import JniContracts.Proofs.Elements
import JniContracts.Proofs.Rejection
import JniContracts.Rule.Scene

/-!
Which loops run an element again. A loop runs its condition, its last clause and its body again, but
not its first clause. The loops that are kept with a site are these, from the outermost to the
innermost.
-/

namespace JniContracts

variable {l m : Located} {e : Element} {n : Nat}

namespace Stmt

/-- A statement that is run as part of another one, with its number there. -/
inductive Part : Stmt → Nat → Stmt → Prop where
  | block {ss p n s} (h : ss[n]? = some s) : Part (block ss p) n s
  | yes {c a b p} : Part (ifElse c a b p) 0 a
  | no {c a b p} : Part (ifElse c a (some b) p) 1 b
  | whileDo {c b p} : Part (whileDo c b p) 0 b
  | doWhile {c b p} : Part (doWhile b c p) 0 b
  | forDo {i c t b p} : Part (forDo i c t b p) 1 b
  | switch {c b p} : Part (switch c b p) 0 b
  | case {v b p} : Part (case v b p) 0 b
  | label {name b p} : Part (label name b p) 0 b

theorem Part.unique {s c c' : Stmt} (h : s.Part n c) (h' : s.Part n c') : c = c' := by
  cases h with
  | block h =>
    cases h' with
    | block h' => exact Option.some.inj (h.symm.trans h')
  | _ =>
    cases h'
    rfl

theorem Part.size {s c : Stmt} (h : s.Part n c) : sizeOf c < sizeOf s := by
  cases h with
  | block h =>
    have hlt := List.sizeOf_lt_of_mem (List.mem_of_getElem? h)
    simp only [block.sizeOf_spec]
    omega
  | _ =>
    simp only [ifElse.sizeOf_spec, whileDo.sizeOf_spec, doWhile.sizeOf_spec, forDo.sizeOf_spec,
      switch.sizeOf_spec,
      case.sizeOf_spec, label.sizeOf_spec, Option.some.sizeOf_spec]
    omega

def first? : Stmt → Option Simple
  | forDo i _ _ _ _ => i
  | _ => none

end Stmt

namespace Located

variable {e : Element} {l : Located} {ss : List Stmt}

def inside (l : Located) : List Located := l.stmt.walkIn l.up l.addr

def elements (l : Located) : List Element := l.stmt.elementsIn l.up l.addr

/-- What holds of a statement if it holds of its parts holds of all statements. -/
theorem part_induction {motive : Located → Prop}
    (step : ∀ l, (∀ n c, l.stmt.Part n c → motive (l.child n c)) → motive l) (l : Located) :
    motive l :=
  step l fun n c _ => part_induction step (l.child n c)
termination_by sizeOf l.stmt
decreasing_by exact Stmt.Part.size ‹_›

/-- The loop runs the element each time round. -/
inductive Reruns (l : Located) (e : Element) : Prop where
  | condition (hl : l.stmt.isLoop = true) (he : e ∈ l.condition)
  | advance (he : e ∈ l.advance)
  | body {b : Located} (hb : l.loopBody? = some b) (he : e ∈ b.elements)

theorem mem_numbered {α : Type} {f : Nat → Stmt → List α} {g : Nat → List Stmt → List α}
    (hnil : ∀ n, g n [] = []) (hcons : ∀ n s ss, g n (s :: ss) = f n s ++ g (n + 1) ss) {a : α} :
    a ∈ g n ss ↔ ∃ k s, ss[k]? = some s ∧ a ∈ f (n + k) s := by
  induction ss generalizing n with
  | nil => simp [hnil]
  | cons s ss ih =>
    rw [hcons, List.mem_append, ih]
    constructor
    · rintro (h | ⟨k, c, hk, h⟩)
      · exact ⟨0, s, rfl, h⟩
      · exact ⟨k + 1, c, hk, by rwa [Nat.add_assoc, Nat.add_comm 1 k] at h⟩
    · rintro ⟨k, c, hk, h⟩
      cases k with
      | zero =>
        cases hk
        exact .inl h
      | succ k => exact .inr ⟨k, c, hk, by rwa [Nat.add_assoc, Nat.add_comm 1 k]⟩

theorem mem_walkInAll {up : List Stmt} {addr : Address} :
    m ∈ Stmt.walkInAll up addr 0 ss ↔
    ∃ (n : Nat) (c : Stmt), ss[n]? = some c ∧ m ∈ c.walkIn up (addr ++ [n]) := by
  rw [mem_numbered (f := fun n c => c.walkIn up (addr ++ [n])) (fun _ => by rw [Stmt.walkInAll])
    fun _ _ _ => by rw [Stmt.walkInAll]]
  simp only [Nat.zero_add]

theorem mem_inside {l : Located} :
    m ∈ l.inside ↔ m = l ∨ (∃ x, l.stmt.first? = some x ∧ m = l.child 0 (.simple x)) ∨
    ∃ n c, l.stmt.Part n c ∧ m ∈ (l.child n c).inside := by
  obtain ⟨up, addr, s⟩ := l
  constructor
  · intro h
    cases s with
    | block ss p =>
      rw [inside, Stmt.walkIn, List.mem_cons, mem_walkInAll] at h
      rcases h with rfl | ⟨n, c, hn, h⟩
      · exact .inl rfl
      · exact .inr (.inr ⟨n, c, .block hn, h⟩)
    | ifElse c a b p =>
      rw [inside, Stmt.walkIn, List.mem_cons, List.mem_append] at h
      rcases h with rfl | h | h
      · exact .inl rfl
      · exact .inr (.inr ⟨0, a, .yes, h⟩)
      · cases b with
        | none => exact absurd h List.not_mem_nil
        | some b => exact .inr (.inr ⟨1, b, .no, h⟩)
    | forDo i c t b p =>
      rw [inside, Stmt.walkIn, List.mem_cons, List.mem_append] at h
      rcases h with rfl | h | h
      · exact .inl rfl
      · obtain ⟨x, hx, rfl⟩ := List.mem_map.mp h
        exact .inr (.inl ⟨x, Option.mem_toList.mp hx, rfl⟩)
      · exact .inr (.inr ⟨1, b, .forDo, h⟩)
    | whileDo c b p => exact (List.mem_cons.mp h).imp id fun h => .inr ⟨0, b, .whileDo, h⟩
    | doWhile b c p => exact (List.mem_cons.mp h).imp id fun h => .inr ⟨0, b, .doWhile, h⟩
    | switch c b p => exact (List.mem_cons.mp h).imp id fun h => .inr ⟨0, b, .switch, h⟩
    | case v b p => exact (List.mem_cons.mp h).imp id fun h => .inr ⟨0, b, .case, h⟩
    | label name b p => exact (List.mem_cons.mp h).imp id fun h => .inr ⟨0, b, .label, h⟩
    | _ => exact .inl (List.mem_singleton.mp h)
  · rintro (rfl | ⟨x, hx, rfl⟩ | ⟨n, c, hpart, h⟩)
    · cases s <;> exact List.mem_cons_self
    · cases s with
      | forDo i c t b p =>
        cases hx
        exact List.mem_cons_of_mem _ (List.mem_append_left _ List.mem_cons_self)
      | _ => cases hx
    · cases hpart with
      | block hn => exact List.mem_cons_of_mem _ (mem_walkInAll.mpr ⟨n, c, hn, h⟩)
      | yes => exact List.mem_cons_of_mem _ (List.mem_append_left _ h)
      | no => exact List.mem_cons_of_mem _ (List.mem_append_right _ h)
      | forDo => exact List.mem_cons_of_mem _ (List.mem_append_right _ h)
      | _ => exact List.mem_cons_of_mem _ h

def own (l : Located) : List Element :=
  match l.stmt with
  | .simple x => [l.element .stmt x.exprs]
  | .ret v _ => [l.element .ret v.toList]
  | .goto .. => [l.element .goto []]
  | _ => []

inductive Holds (l : Located) (e : Element) : Prop where
  | own (he : e ∈ l.own)
  | condition (he : e ∈ l.condition)
  | advance (he : e ∈ l.advance)
  | first {x : Simple} (hx : l.stmt.first? = some x)
      (he : e = (l.child 0 (.simple x)).element .init x.exprs)
  | part {n : Nat} {c : Stmt} (hc : l.stmt.Part n c) (he : e ∈ (l.child n c).elements)

theorem mem_elementsOfAll {up : List Stmt} {addr : Address} :
    e ∈ Stmt.elementsOfAll up addr 0 ss ↔
      ∃ (n : Nat) (c : Stmt), ss[n]? = some c ∧ e ∈ c.elementsIn up (addr ++ [n]) := by
  rw [mem_numbered (f := fun n c => c.elementsIn up (addr ++ [n]))
    (fun _ => by rw [Stmt.elementsOfAll]) fun _ _ _ => by rw [Stmt.elementsOfAll]]
  simp only [Nat.zero_add]

theorem mem_elements : e ∈ l.elements ↔ l.Holds e := by
  obtain ⟨up, addr, s⟩ := l
  constructor
  · intro h
    cases s with
    | block ss p =>
      rw [elements, Stmt.elementsIn, mem_elementsOfAll] at h
      obtain ⟨n, c, hn, h⟩ := h
      exact .part (.block hn) h
    | ifElse c a b p =>
      rw [elements, Stmt.elementsIn, List.mem_cons, List.mem_append] at h
      rcases h with rfl | h | h
      · exact .condition List.mem_cons_self
      · exact .part .yes h
      · cases b with
        | none => exact absurd h List.not_mem_nil
        | some b => exact .part .no h
    | forDo i c t b p =>
      rw [elements, Stmt.elementsIn, List.mem_append, List.mem_append, List.mem_append] at h
      rcases h with ((h | h) | h) | h
      · obtain ⟨x, hx, rfl⟩ := List.mem_map.mp h
        exact .first (Option.mem_toList.mp hx) rfl
      · exact .condition h
      · exact .part .forDo h
      · cases t with
        | none => exact absurd h List.not_mem_nil
        | some t => exact .advance h
    | whileDo c b p =>
      exact (List.mem_cons.mp h).elim (fun h => .condition (h ▸ List.mem_cons_self))
        (.part .whileDo)
    | doWhile b c p => exact (List.mem_append.mp h).elim (.part .doWhile) fun h => .condition h
    | switch c b p =>
      exact (List.mem_cons.mp h).elim (fun h => .condition (h ▸ List.mem_cons_self)) (.part .switch)
    | case v b p => exact .part .case h
    | label name b p => exact .part .label h
    | simple | ret | goto => exact .own h
    | brk | cont | empty => exact absurd h List.not_mem_nil
  · intro h
    cases h with
    | own he =>
      cases s with
      | simple | ret | goto => exact he
      | _ => exact absurd he List.not_mem_nil
    | condition he =>
      cases s with
      | ifElse | whileDo | switch =>
        rw [List.mem_singleton.mp he]
        exact List.mem_cons_self
      | doWhile => exact List.mem_append_right _ he
      | forDo => exact List.mem_append_left _ (List.mem_append_left _ (List.mem_append_right _ he))
      | _ => exact absurd he List.not_mem_nil
    | advance he =>
      cases s with
      | forDo i c t b p =>
        cases t with
        | none => exact absurd he List.not_mem_nil
        | some t => exact List.mem_append_right _ he
      | _ => exact absurd he List.not_mem_nil
    | first hx he =>
      cases s with
      | forDo i c t b p =>
        cases hx
        rw [he]
        exact List.mem_append_left _
          (List.mem_append_left _ (List.mem_append_left _ List.mem_cons_self))
      | _ => cases hx
    | part hc he =>
      cases hc with
      | block hn => exact mem_elementsOfAll.mpr ⟨_, _, hn, he⟩
      | yes => exact List.mem_cons_of_mem _ (List.mem_append_left _ he)
      | no => exact List.mem_cons_of_mem _ (List.mem_append_right _ he)
      | whileDo | switch => exact List.mem_cons_of_mem _ he
      | doWhile => exact List.mem_append_left _ he
      | forDo => exact List.mem_append_left _ (List.mem_append_right _ he)
      | case | label => exact he

theorem addr_of_inside (l : Located) : ∀ m ∈ l.inside, l.addr <+: m.addr := by
  induction l using part_induction with
  | step l ih =>
    intro m hm
    rcases mem_inside.mp hm with rfl | ⟨x, -, rfl⟩ | ⟨n, c, hc, hm⟩
    · exact List.prefix_refl _
    · exact List.prefix_append _ _
    · exact (List.prefix_append _ _).trans (ih n c hc m hm)

theorem under_of_elements (h : e ∈ l.elements) : e.Under l.addr :=
  (Stmt.keyed_elementsIn l.up l.addr l.stmt).under e h

theorem element_of_condition (h : e ∈ l.condition) : ∃ c, e = l.element .cond [c] := by
  obtain ⟨c, -, rfl⟩ := List.mem_map.mp h
  exact ⟨c, rfl⟩

theorem element_of_advance (h : e ∈ l.advance) :
    l.stmt.isLoop = true ∧ ∃ t, e = l.element .step [t] := by
  unfold advance at h
  split at h
  · rename_i hs
    exact ⟨by rw [hs]; rfl, _, List.mem_singleton.mp h⟩
  · exact absurd h List.not_mem_nil

theorem loopBody?_iff {l b : Located} :
    l.loopBody? = some b ↔ l.stmt.isLoop = true ∧ ∃ n c, l.stmt.Part n c ∧ b = l.child n c := by
  obtain ⟨up, addr, s⟩ := l
  constructor
  · intro h
    cases s with
    | whileDo => exact ⟨rfl, _, _, .whileDo, (Option.some.inj h).symm⟩
    | doWhile => exact ⟨rfl, _, _, .doWhile, (Option.some.inj h).symm⟩
    | forDo => exact ⟨rfl, _, _, .forDo, (Option.some.inj h).symm⟩
    | _ => cases h
  · rintro ⟨hl, n, c, hc, rfl⟩
    cases hc with
    | whileDo | doWhile | forDo => rfl
    | _ => cases hl

theorem Reruns.isLoop (h : l.Reruns e) : l.stmt.isLoop = true := by
  cases h with
  | condition hl _ => exact hl
  | advance he => exact (element_of_advance he).1
  | body hb _ => exact (loopBody?_iff.mp hb).1

theorem Reruns.under (h : l.Reruns e) : e.Under l.addr := by
  cases h with
  | condition _ he =>
    obtain ⟨c, rfl⟩ := element_of_condition he
    exact List.prefix_refl _
  | advance he =>
    obtain ⟨-, t, rfl⟩ := element_of_advance he
    exact List.prefix_refl _
  | body hb he =>
    obtain ⟨-, n, c, -, rfl⟩ := loopBody?_iff.mp hb
    exact (under_of_elements he).up

theorem Reruns.eq_self {l : Located} (hm : m ∈ l.inside) (h : m.Reruns e)
    (he : e.address = l.addr) : m = l := by
  rcases mem_inside.mp hm with rfl | ⟨x, -, rfl⟩ | ⟨n, c, -, hm⟩
  · rfl
  · cases h.isLoop
  · have hlen := ((addr_of_inside _ m hm).trans h.under).length_le
    rw [he] at hlen
    simp only [child, List.length_append, List.length_singleton] at hlen
    omega

/-- The first clause of a `for` is run once. -/
theorem not_reruns_first {l : Located} {x : Simple} (hx : l.stmt.first? = some x)
    (hm : m ∈ l.inside) : ¬ m.Reruns ((l.child 0 (.simple x)).element .init x.exprs) := by
  intro h
  have hpart : ∀ n c, l.stmt.Part n c → ¬ l.addr ++ [n] <+: l.addr ++ [0] := by
    obtain ⟨up, addr, s⟩ := l
    intro n c hc hn
    have hzero : n = 0 := Element.part_unique hn (List.prefix_refl _)
    cases hc with
    | forDo => cases hzero
    | _ => cases hx
  rcases mem_inside.mp hm with rfl | ⟨y, -, rfl⟩ | ⟨n, c, hc, hm⟩
  · cases h with
    | condition _ he =>
      obtain ⟨c, hc⟩ := element_of_condition he
      cases congrArg Element.role hc
    | advance he =>
      obtain ⟨-, t, ht⟩ := element_of_advance he
      cases congrArg Element.role ht
    | body hb he =>
      obtain ⟨-, n, c, hc, rfl⟩ := loopBody?_iff.mp hb
      exact hpart n c hc (under_of_elements he)
  · cases h.isLoop
  · exact hpart n c hc ((addr_of_inside _ m hm).trans h.under)

end Located

namespace Element

def loops (e : Element) : List Stmt :=
  let loops := e.ancestors.filter Stmt.isLoop
  let loops := match e.role, e.ancestors.getLast? with
    | .init, some last => if last.isLoop then loops.dropLast else loops
    | _, _ => loops
  match e.role with
  | .cond | .step => if e.stmt.isLoop then loops ++ [e.stmt] else loops
  | _ => loops

end Element

theorem Site.loopsAround_eq (s : Site) : s.loopsAround = s.element.loops := rfl

namespace Located

def Above (a b : Located) : Prop := a.addr <+: b.addr ∧ a.addr ≠ b.addr

/-- The loops in a statement that run an element again, each in front of those inside it. -/
structure LoopsOf (l : Located) (e : Element) (chain : List Located) : Prop where
  loops : e.loops = l.up.filter Stmt.isLoop ++ chain.map Located.stmt
  mem : ∀ m, m ∈ chain ↔ m ∈ l.inside ∧ m.Reruns e
  sorted : chain.Pairwise Above

theorem above_of_child {c : Stmt} (hm : m ∈ (l.child n c).inside) : l.Above m := by
  have hchild := addr_of_inside _ m hm
  refine ⟨(List.prefix_append _ _).trans hchild, fun heq => ?_⟩
  have hlen := hchild.length_le
  simp only [child, heq, List.length_append, List.length_singleton] at hlen
  omega

def withLoop (l : Located) (chain : List Located) : List Located :=
  if l.stmt.isLoop then l :: chain else chain

theorem mem_withLoop {chain : List Located} :
    m ∈ l.withLoop chain ↔ (l.stmt.isLoop = true ∧ m = l) ∨ m ∈ chain := by
  unfold withLoop
  split <;> simp [*]

theorem map_stmt_withLoop (l : Located) (chain : List Located) :
    l.up.filter Stmt.isLoop ++ (l.withLoop chain).map stmt =
      (l.up ++ [l.stmt]).filter Stmt.isLoop ++ chain.map stmt := by
  unfold withLoop
  split <;> simp [List.filter_append, *]

theorem loopsOf_self (he : e.address = l.addr)
    (hloops : e.loops = (l.up ++ [l.stmt]).filter Stmt.isLoop)
    (hr : l.stmt.isLoop = true → l.Reruns e) : LoopsOf l e (l.withLoop []) := by
  refine ⟨?_, fun m => ?_, ?_⟩
  · rw [map_stmt_withLoop, hloops, List.map_nil, List.append_nil]
  · rw [mem_withLoop]
    constructor
    · rintro (⟨hl, rfl⟩ | hm)
      · exact ⟨mem_inside.mpr (.inl rfl), hr hl⟩
      · exact absurd hm List.not_mem_nil
    · rintro ⟨hm, h⟩
      obtain rfl := h.eq_self hm he
      exact .inl ⟨h.isLoop, rfl⟩
  · unfold withLoop
    split <;> simp

theorem loopsOf_first {x : Simple} (hx : l.stmt.first? = some x) :
    LoopsOf l ((l.child 0 (.simple x)).element .init x.exprs) [] := by
  refine ⟨?_, fun m => ⟨fun hm => absurd hm List.not_mem_nil,
    fun hm => absurd hm.2 (not_reruns_first hx hm.1)⟩, .nil⟩
  have hl : l.stmt.isLoop = true := by
    obtain ⟨up, addr, s⟩ := l
    cases s with
    | forDo => rfl
    | _ => cases hx
  simp [Element.loops, element, child, List.filter_append, hl]

theorem loopsOf_part {c : Stmt} (hc : l.stmt.Part n c)
    (he : e ∈ (l.child n c).elements) {chain : List Located} (h : LoopsOf (l.child n c) e chain) :
    LoopsOf l e (l.withLoop chain) := by
  refine ⟨?_, fun m => ?_, ?_⟩
  · rw [map_stmt_withLoop]
    exact h.loops
  · rw [mem_withLoop, h.mem]
    constructor
    · rintro (⟨hl, rfl⟩ | ⟨hm, hr⟩)
      · exact ⟨mem_inside.mpr (.inl rfl), .body (loopBody?_iff.mpr ⟨hl, n, c, hc, rfl⟩) he⟩
      · exact ⟨mem_inside.mpr (.inr (.inr ⟨n, c, hc, hm⟩)), hr⟩
    · rintro ⟨hm, hr⟩
      rcases mem_inside.mp hm with rfl | ⟨x, -, rfl⟩ | ⟨k, d, hd, hm⟩
      · exact .inl ⟨hr.isLoop, rfl⟩
      · cases hr.isLoop
      · -- A loop around the element is in the same part.
        obtain rfl : k = n :=
          Element.part_unique ((addr_of_inside _ m hm).trans hr.under) (under_of_elements he)
        obtain rfl := hc.unique hd
        exact .inr ⟨hm, hr⟩
  · unfold withLoop
    split
    · exact .cons (fun m hm => above_of_child ((h.mem m).mp hm).1) h.sorted
    · exact h.sorted

theorem loops_of_own (h : e ∈ l.own) :
    l.stmt.isLoop = false ∧ e.address = l.addr ∧ e.loops = l.up.filter Stmt.isLoop := by
  obtain ⟨up, addr, s⟩ := l
  cases s with
  | simple | ret | goto =>
    cases List.mem_singleton.mp h
    exact ⟨rfl, rfl, rfl⟩
  | _ => exact absurd h List.not_mem_nil

theorem exists_loopsOf (l : Located) : ∀ e ∈ l.elements, ∃ chain, LoopsOf l e chain := by
  induction l using part_induction with
  | step l ih =>
    intro e he
    cases mem_elements.mp he with
    | own ho =>
      obtain ⟨hl, haddr, hloops⟩ := loops_of_own ho
      exact ⟨_, loopsOf_self haddr (by simp [hloops, List.filter_append, hl]) (by simp [hl])⟩
    | condition ho =>
      obtain ⟨c, rfl⟩ := element_of_condition ho
      refine ⟨_, loopsOf_self rfl ?_ fun hl => .condition hl ho⟩
      by_cases hl : l.stmt.isLoop <;> simp [Element.loops, element, List.filter_append, hl]
    | advance ho =>
      obtain ⟨hl, t, rfl⟩ := element_of_advance ho
      refine ⟨_, loopsOf_self rfl ?_ fun _ => .advance ho⟩
      simp [Element.loops, element, List.filter_append, hl]
    | first hx ho => exact ⟨_, ho ▸ loopsOf_first hx⟩
    | part hc ho =>
      obtain ⟨chain, h⟩ := ih _ _ hc e ho
      exact ⟨_, loopsOf_part hc ho h⟩

end Located

structure Innermost (body : Stmt) (e : Element) (l : Located) : Prop where
  mem : l ∈ body.located
  reruns : l.Reruns e
  inner : ∀ m ∈ body.located, m.Reruns e → m.addr <+: l.addr

theorem getLast?_loops {body : Stmt} (he : e ∈ body.elements) {s : Stmt} :
    e.loops.getLast? = some s ↔ ∃ l, Innermost body e l ∧ l.stmt = s := by
  obtain ⟨chain, h⟩ := Located.exists_loopsOf ⟨[], [], body⟩ e he
  have hloops : e.loops = chain.map Located.stmt := h.loops
  rw [hloops, List.getLast?_map, Option.map_eq_some_iff]
  refine exists_congr fun l => and_congr_left fun _ => ?_
  constructor
  · intro hlast
    obtain ⟨front, rfl⟩ := List.getLast?_eq_some_iff.mp hlast
    have hsorted := List.pairwise_append.mp h.sorted
    obtain ⟨hmem, hreruns⟩ := (h.mem l).mp (by simp)
    refine ⟨hmem, hreruns, fun m hm hr => ?_⟩
    rcases List.mem_append.mp ((h.mem m).mpr ⟨hm, hr⟩) with hm | hm
    · exact (hsorted.2.2 m hm l List.mem_cons_self).1
    · exact List.mem_singleton.mp hm ▸ List.prefix_refl _
  · intro hl
    have hmem : l ∈ chain := (h.mem l).mpr ⟨hl.mem, hl.reruns⟩
    obtain ⟨last, hlast⟩ :=
      Option.isSome_iff_exists.mp (List.getLast?_isSome.mpr (List.ne_nil_of_mem hmem))
    obtain ⟨front, rfl⟩ := List.getLast?_eq_some_iff.mp hlast
    rcases List.mem_append.mp hmem with hfront | heq
    · -- A loop in front of the last one would be around it.
      obtain ⟨hle, hne⟩ := (List.pairwise_append.mp h.sorted).2.2 l hfront last List.mem_cons_self
      obtain ⟨hmem', hreruns'⟩ := (h.mem last).mp (by simp)
      exact absurd (hle.eq_of_length_le (hl.inner last hmem' hreruns').length_le) hne
    · rw [hlast, List.mem_singleton.mp heq]

end JniContracts
