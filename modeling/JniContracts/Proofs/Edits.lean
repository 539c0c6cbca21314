import JniContracts.Proofs.Draft
import Mathlib.Data.List.Perm.Basic

/-!
Drafts as the result of single edits. What every edit keeps holds of every draft: blocks carry their
numbers, edges lead from block to block, and no label is there twice. The elements that the edits
put into blocks are those of the statement, each once.
-/

namespace JniContracts

/-- Whether a graph has a place for an element. A declaration without values is left out. -/
def Element.isPlaced (e : Element) : Bool :=
  match e.stmt with
  | .simple _ => !e.exprs.isEmpty
  | _ => true

namespace Flow

open Execution

/-- A draft comes from another one by edits that put these elements into blocks, in this order. -/
inductive Edits (d : Draft) : List Element → Draft → Prop where
  | refl : Edits d [] d
  | push {es d'} (h : Edits d es d') (kind : BlockKind) : Edits d es (d'.push kind)
  | append {es d'} (h : Edits d es d') (id : Nat) (es' : List Element) (hid : id < d'.size) :
      Edits d (es ++ es') (d'.append id es')
  | link {es d' e} (h : Edits d es d') (hs : e.source < d'.size) (ht : e.target < d'.size) :
      Edits d es (d'.link e)
  | jump {es d' p} (h : Edits d es d') (hs : p.source < d'.size) : Edits d es (d'.jump p)
  | name {es d' label id} (h : Edits d es d') (hl : d'.labels.lookup label = none)
      (hid : id < d'.size) : Edits d es (d'.name label id)

namespace Edits

variable {d d' d'' : Draft} {es es' : List Element}

theorem trans (h : Edits d es d') (h' : Edits d' es' d'') : Edits d (es ++ es') d'' := by
  induction h' with
  | refl => simpa using h
  | push _ kind ih => exact ih.push kind
  | append _ id es'' hid ih => simpa using ih.append id es'' hid
  | link _ hs ht ih => exact ih.link hs ht
  | jump _ hs ih => exact ih.jump hs
  | name _ hl hid ih => exact ih.name hl hid

theorem size_le (h : Edits d es d') : d.size ≤ d'.size := by
  induction h with
  | refl => exact Nat.le_refl _
  | _ => simp; omega

theorem linkIf {e : Edge} (h : Edits d es d') (q : Bool) (hs : e.source < d'.size)
    (ht : e.target < d'.size) : Edits d es (d'.linkIf q e) := by
  cases q with
  | true => exact h.link hs ht
  | false => exact h

theorem leave {s : Option Nat} {t : Nat} {kind : EdgeKind} (h : Edits d es d')
    (hs : ∀ n, s = some n → n < d'.size) (ht : t < d'.size) : Edits d es (d'.leave s t kind) := by
  cases s with
  | some n => exact h.link (hs n rfl) ht
  | none => exact h

end Edits

structure Draft.Sound (d : Draft) : Prop where
  ids : ∀ (i : Nat) (b : Block), d.blocks[i]? = some b → b.id = i
  edges : ∀ e ∈ d.edges, e.source < d.size ∧ e.target < d.size
  gotos : ∀ p ∈ d.gotos, p.source < d.size
  labels : ∀ x ∈ d.labels, x.2 < d.size
  unique : (d.labels.map Prod.fst).Nodup

variable {d : Draft}

theorem Draft.Sound.push (h : d.Sound) (kind : BlockKind) : (d.push kind).Sound := by
  obtain ⟨hids, hedges, hgotos, hlabels, hunique⟩ := h
  refine ⟨fun i b hb => ?_, fun e he => ?_, fun p hp => ?_, fun x hx => ?_, hunique⟩
  · rw [Draft.push, Array.getElem?_push] at hb
    split at hb
    · rename_i hi
      cases hb
      exact hi.symm
    · exact hids i b hb
  · have hlt := hedges e he
    simp only [Draft.size_push]
    omega
  · exact Nat.lt_of_lt_of_le (hgotos p hp) (by simp)
  · exact Nat.lt_of_lt_of_le (hlabels x hx) (by simp)

theorem Draft.Sound.append (h : d.Sound) (id : Nat) (es : List Element) :
    (d.append id es).Sound := by
  obtain ⟨hids, hedges, hgotos, hlabels, hunique⟩ := h
  rw [← Draft.size_append d id es] at hedges hgotos hlabels
  refine ⟨fun i b hb => ?_, hedges, hgotos, hlabels, hunique⟩
  rw [Draft.append, Array.getElem?_modify] at hb
  split at hb
  · obtain ⟨b', hb', rfl⟩ := Option.map_eq_some_iff.mp hb
    exact hids i b' hb'
  · exact hids i b hb

theorem Draft.Sound.link (h : d.Sound) {e : Edge} (hs : e.source < d.size)
    (ht : e.target < d.size) : (d.link e).Sound := by
  obtain ⟨hids, hedges, hgotos, hlabels, hunique⟩ := h
  refine ⟨hids, fun e' he => ?_, hgotos, hlabels, hunique⟩
  rcases Array.mem_push.mp he with he | rfl
  · exact hedges e' he
  · exact ⟨hs, ht⟩

theorem Draft.Sound.jump (h : d.Sound) {p : Pending} (hs : p.source < d.size) :
    (d.jump p).Sound := by
  obtain ⟨hids, hedges, hgotos, hlabels, hunique⟩ := h
  refine ⟨hids, hedges, fun p' hp => ?_, hlabels, hunique⟩
  rcases List.mem_append.mp hp with hp | hp
  · exact hgotos p' hp
  · rw [List.mem_singleton.mp hp]
    exact hs

theorem Draft.Sound.name (h : d.Sound) {label : String} {id : Nat}
    (hl : d.labels.lookup label = none) (hid : id < d.size) : (d.name label id).Sound := by
  obtain ⟨hids, hedges, hgotos, hlabels, hunique⟩ := h
  refine ⟨hids, hedges, hgotos, fun x hx => ?_, ?_⟩
  · rcases List.mem_append.mp hx with hx | hx
    · exact hlabels x hx
    · rw [List.mem_singleton.mp hx]
      exact hid
  · rw [Draft.name, List.map_append, List.map_singleton]
    refine List.nodup_append.mpr ⟨hunique, by simp, fun n hn n' hn' heq => ?_⟩
    obtain ⟨x, hx, rfl⟩ := List.mem_map.mp hn
    have hne := List.lookup_eq_none_iff.mp hl x hx
    rw [List.mem_singleton.mp hn'] at heq
    simp [heq] at hne

theorem Edits.sound {d d' : Draft} {es : List Element} (h : Edits d es d') (hd : d.Sound) :
    d'.Sound := by
  induction h with
  | refl => exact hd
  | push _ kind ih => exact ih.push kind
  | append _ id es' _ ih => exact ih.append id es'
  | link _ hs ht ih => exact ih.link hs ht
  | jump _ hs ih => exact ih.jump hs
  | name _ hl hid ih => exact ih.name hl hid

namespace Draft

def elements (d : Draft) : List Element := d.blocks.toList.flatMap (·.elements)

theorem elements_push (d : Draft) (kind : BlockKind) : (d.push kind).elements = d.elements := by
  simp [elements, push]

theorem elements_modify_perm (es : List Element) {bs : List Block} {i : Nat} (h : i < bs.length) :
    ((bs.modify i fun b => { b with elements := b.elements ++ es }).flatMap (·.elements)).Perm
      (bs.flatMap (·.elements) ++ es) := by
  induction bs generalizing i with
  | nil => simp at h
  | cons b bs ih =>
    cases i with
    | zero =>
      simp only [List.modify_zero_cons, List.flatMap_cons, List.append_assoc]
      exact List.Perm.append_left _ List.perm_append_comm
    | succ i =>
      simp only [List.modify_succ_cons, List.flatMap_cons, List.append_assoc]
      exact List.Perm.append_left _ (ih (by simpa using h))

theorem elements_append (d : Draft) {id : Nat} (es : List Element) (h : id < d.size) :
    (d.append id es).elements.Perm (d.elements ++ es) := by
  rw [elements, append, Array.toList_modify]
  exact elements_modify_perm es h

end Draft

theorem Edits.elements_perm {d d' : Draft} {es : List Element} (h : Edits d es d') :
    d'.elements.Perm (d.elements ++ es) := by
  induction h with
  | refl => simp
  | push _ kind ih => rwa [Draft.elements_push]
  | append _ id es' hid ih =>
    rw [← List.append_assoc]
    exact (Draft.elements_append _ es' hid).trans (ih.append_right es')
  | link _ _ _ ih => exact ih
  | jump _ _ ih => exact ih
  | name _ _ _ ih => exact ih

structure Scope.Below (sc : Scope) (n : Nat) : Prop where
  exit : exitId < n
  brk : ∀ t, sc.brk = some t → t < n
  cont : ∀ t, sc.cont = some t → t < n
  dispatch : ∀ t, sc.dispatch = some t → t < n

theorem Scope.Below.mono {sc : Scope} {n m : Nat} (h : sc.Below n) (hm : n ≤ m) : sc.Below m :=
  ⟨Nat.lt_of_lt_of_le h.exit hm, fun t ht => Nat.lt_of_lt_of_le (h.brk t ht) hm,
    fun t ht => Nat.lt_of_lt_of_le (h.cont t ht) hm,
    fun t ht => Nat.lt_of_lt_of_le (h.dispatch t ht) hm⟩

theorem Scope.Below.loop {sc : Scope} {n m b c : Nat} (h : sc.Below n) (hm : n ≤ m) (hb : b < m)
    (hc : c < m) : Scope.Below { sc with brk := some b, cont := some c } m := by
  have h' := h.mono hm
  refine ⟨h'.exit, ?_, ?_, h'.dispatch⟩
  · rintro _ ⟨⟩
    exact hb
  · rintro _ ⟨⟩
    exact hc

structure Edited (s : Stmt) (up : List Stmt) (addr : Address) (d d' : Draft)
  (next : Option Nat) : Prop where
  edits : ∃ es, Edits d es d' ∧ es.Perm ((s.elementsIn up addr).filter Element.isPlaced)
  next : ∀ n, next = some n → n < d'.size

def Editable (exits : List String) (s : Stmt) : Prop :=
  ∀ sc up addr cur d next d', addStmt exits sc up addr s cur d = .ok (next, d') → sc.Below d.size →
    (∀ c, cur = some c → c < d.size) → Edited s up addr d d' next

variable {exits : List String}

theorem editable_of_some {s : Stmt}
    (h : ∀ sc up addr cur d next d', addStmt exits sc up addr s (some cur) d = .ok (next, d') →
      sc.Below d.size → cur < d.size → Edited s up addr d d' next) : Editable exits s := by
  intro sc up addr cur d next d' hrun hsc hcur
  cases cur with
  | some c => exact h sc up addr c d next d' hrun hsc (hcur c rfl)
  | none =>
    rw [addStmt_none] at hrun
    obtain ⟨⟨es, he, hp⟩, hn⟩ := h sc up addr d.size _ next d' hrun (hsc.mono (by simp)) (by simp)
    refine ⟨⟨es, ?_, hp⟩, hn⟩
    simpa using (Edits.refl.push _).trans he

attribute [local simp] Stmt.elementsIn Located.element

theorem editable_simple (x : Simple) : Editable exits (.simple x) := by
  refine editable_of_some fun sc up addr cur d next d' hrun hsc hcur => ?_
  have hp : Located.evaluated ⟨up, addr, .simple x⟩ .stmt x =
      ((Stmt.simple x).elementsIn up addr).filter Element.isPlaced := by
    cases hx : x.exprs.isEmpty <;>
      simp [Located.evaluated, Element.isPlaced, hx]
  rcases addStmt_simple hrun with ⟨-, rfl, rfl⟩ | ⟨hx, rfl, rfl⟩
  · refine ⟨⟨_, Edits.refl.append _ _ hcur, by rw [← hp]; simp⟩, ?_⟩
    rintro _ ⟨⟩
    simpa using hcur
  · rw [Located.evaluated_of_leaves hx] at hp
    refine ⟨⟨_, (Edits.refl.append _ _ hcur).link (by simpa using hcur) (by simpa using hsc.exit),
      ?_⟩, by simp⟩
    rw [← hp]
    simp

theorem editable_ret (v : Option Expr) (p : Pos) : Editable exits (.ret v p) := by
  refine editable_of_some fun sc up addr cur d next d' hrun hsc hcur => ?_
  obtain ⟨rfl, rfl⟩ := addStmt_ret hrun
  refine ⟨⟨_, (Edits.refl.append _ _ hcur).link (by simpa using hcur) (by simpa using hsc.exit),
    ?_⟩, by simp⟩
  simp [List.filter_cons, Element.isPlaced]

theorem editable_goto (name : String) (p : Pos) : Editable exits (.goto name p) := by
  refine editable_of_some fun sc up addr cur d next d' hrun hsc hcur => ?_
  obtain ⟨rfl, rfl⟩ := addStmt_goto hrun
  refine ⟨⟨_, (Edits.refl.append _ _ hcur).jump (by simpa using hcur), ?_⟩, by simp⟩
  simp [List.filter_cons, Element.isPlaced]

theorem editable_brk (p : Pos) : Editable exits (.brk p) := by
  refine editable_of_some fun sc up addr cur d next d' hrun hsc hcur => ?_
  obtain ⟨t, ht, rfl, rfl⟩ := addStmt_brk hrun
  exact ⟨⟨_, Edits.refl.link hcur (hsc.brk t ht), by simp⟩, by simp⟩

theorem editable_cont (p : Pos) : Editable exits (.cont p) := by
  refine editable_of_some fun sc up addr cur d next d' hrun hsc hcur => ?_
  obtain ⟨t, ht, rfl, rfl⟩ := addStmt_cont hrun
  exact ⟨⟨_, Edits.refl.link hcur (hsc.cont t ht), by simp⟩, by simp⟩

theorem editable_empty (p : Pos) : Editable exits (.empty p) := by
  refine editable_of_some fun sc up addr cur d next d' hrun hsc hcur => ?_
  rw [addStmt_empty] at hrun
  cases hrun
  refine ⟨⟨_, Edits.refl, by simp⟩, ?_⟩
  rintro _ ⟨⟩
  exact hcur

theorem edits_openIf {cur : Nat} (l : Located) (h : cur < d.size) :
    Edits d l.condition (d.openIf cur l) := by
  have he := (Edits.refl.append cur l.condition h).push .join |>.push .yes
  exact he.link (by simp; omega) (by simp)

theorem editable_ifOnly {a : Stmt} (c : Expr) (p : Pos) (ha : Editable exits a) :
    Editable exits (.ifElse c a none p) := by
  refine editable_of_some fun sc up addr cur d next d' hrun hsc hcur => ?_
  obtain ⟨r, d₁, rfl, hrun₁, rfl⟩ := addStmt_ifOnly hrun
  have h₀ := edits_openIf ⟨up, addr, .ifElse c a none p⟩ hcur
  obtain ⟨⟨es, he, hp⟩, hn⟩ := ha _ _ _ _ _ _ _ hrun₁ (hsc.mono h₀.size_le) (by simp)
  have hsize := he.size_le
  simp only [Draft.size_openIf] at hsize
  refine ⟨⟨_, ((h₀.trans he).leave hn (by omega)).link (by simp; omega) (by simp; omega), ?_⟩, ?_⟩
  · simpa [Located.condition, Stmt.control?, Stmt.elementsOfElse,
      List.filter_cons, Element.isPlaced] using hp
  · rintro _ ⟨⟩
    simp
    omega

theorem editable_ifElse {a b : Stmt} (c : Expr) (p : Pos) (ha : Editable exits a)
    (hb : Editable exits b) : Editable exits (.ifElse c a (some b) p) := by
  refine editable_of_some fun sc up addr cur d next d' hrun hsc hcur => ?_
  obtain ⟨r, d₁, r', d₂, rfl, hrun₁, hrun₂, rfl⟩ := addStmt_ifElse hrun
  have h₀ := edits_openIf ⟨up, addr, .ifElse c a (some b) p⟩ hcur
  obtain ⟨⟨es, he, hp⟩, hn⟩ := ha _ _ _ _ _ _ _ hrun₁ (hsc.mono h₀.size_le) (by simp)
  have hsize := he.size_le
  simp only [Draft.size_openIf] at hsize
  have h₁ : Edits d _ ((d₁.leave r d.size .fallThrough).openElse cur) :=
    (((h₀.trans he).leave hn (by omega)).push .no).link (by simp; omega) (by simp)
  obtain ⟨⟨es', he', hp'⟩, hn'⟩ := hb _ _ _ _ _ _ _ hrun₂ (hsc.mono h₁.size_le) (by simp)
  have hsize' := he'.size_le
  simp only [Draft.size_openElse, Draft.size_leave] at hsize'
  refine ⟨⟨_, (h₁.trans he').leave hn' (by omega), ?_⟩, ?_⟩
  · simpa [Located.condition, Stmt.control?, Stmt.elementsOfElse,
      List.filter_cons, Element.isPlaced] using hp.append hp'
  · rintro _ ⟨⟩
    simp
    omega

theorem edits_openWhile {cur : Nat} (l : Located) (h : cur < d.size) :
    Edits d l.condition (d.openWhile cur l) := by
  have h₁ : Edits d [] ((d.push .loopHeader).link ⟨cur, d.size, .fallThrough⟩) :=
    (Edits.refl.push _).link (by simp; omega) (by simp)
  have h₂ := ((h₁.append d.size l.condition (by simp)).push .loopBody).push .loopExit
  exact (h₂.link (by simp; omega) (by simp)).linkIf _ (by simp; omega) (by simp)

variable {b : Stmt}

theorem editable_whileDo (c : Expr) (p : Pos) (hb : Editable exits b) :
    Editable exits (.whileDo c b p) := by
  refine editable_of_some fun sc up addr cur d next d' hrun hsc hcur => ?_
  obtain ⟨r, d₁, rfl, hrun₁, rfl⟩ := addStmt_whileDo hrun
  have h₀ := edits_openWhile ⟨up, addr, .whileDo c b p⟩ hcur
  obtain ⟨⟨es, he, hp⟩, hn⟩ :=
    hb _ _ _ _ _ _ _ hrun₁ (hsc.loop h₀.size_le (by simp) (by simp)) (by simp)
  have hsize := he.size_le
  simp only [Draft.size_openWhile] at hsize
  refine ⟨⟨_, (h₀.trans he).leave hn (by omega), ?_⟩, ?_⟩
  · simpa [Located.condition, Stmt.control?, List.filter_cons,
      Element.isPlaced] using hp
  · rintro _ ⟨⟩
    simp
    omega

theorem edits_openDo {cur : Nat} (h : cur < d.size) : Edits d [] (d.openDo cur) :=
  (((Edits.refl.push _).link (by simp; omega) (by simp)).push _).push _

theorem editable_doWhile (c : Expr) (p : Pos) (hb : Editable exits b) :
    Editable exits (.doWhile b c p) := by
  refine editable_of_some fun sc up addr cur d next d' hrun hsc hcur => ?_
  obtain ⟨r, d₁, rfl, hrun₁, rfl⟩ := addStmt_doWhile hrun
  have h₀ := edits_openDo hcur
  obtain ⟨⟨es, he, hp⟩, hn⟩ :=
    hb _ _ _ _ _ _ _ hrun₁ (hsc.loop h₀.size_le (by simp) (by simp)) (by simp)
  have hsize := he.size_le
  simp only [Draft.size_openDo] at hsize
  have h₁ : Edits d _ ((d₁.leave r (d.size + 1) .fallThrough).append (d.size + 1)
      (Located.condition ⟨up, addr, .doWhile b c p⟩)) :=
    ((h₀.trans he).leave hn (by omega)).append _ _ (by simp; omega)
  refine ⟨⟨_,
    (h₁.linkIf _ (by simp; omega) (by simp; omega)).linkIf _ (by simp; omega) (by simp; omega), ?_⟩,
    ?_⟩
  · simpa [Located.condition, Stmt.control?, List.filter_cons,
      Element.isPlaced] using hp.append_right _
  · rintro _ ⟨⟩
    simp
    omega

theorem edits_openFor {cur : Nat} (l : Located) (h : cur < d.size) :
    Edits d (l.initial ++ l.condition ++ l.advance) (d.openFor cur l) := by
  have h₁ :=
    ((Edits.refl.append cur l.initial h).push .loopHeader).link (e := ⟨cur, d.size, .fallThrough⟩)
      (by simp; omega) (by simp)
  have h₂ := ((h₁.append d.size l.condition (by simp)).push .loopStep).append
    (d.size + 1) l.advance (by simp)
  have hsize :
      d.size <
      (((((d.append cur l.initial).push .loopHeader).link ⟨cur, d.size, .fallThrough⟩).append d.size
        l.condition).push .loopStep |>.append (d.size + 1) l.advance).size := by
    simp only [Draft.size_append, Draft.size_push, Draft.size_link]
    omega
  have h₃ :=
    ((h₂.link (e := ⟨d.size + 1, d.size, .backEdge⟩) (by simp) hsize).push .loopBody).push .loopExit
  exact (h₃.link (by simp; omega) (by simp)).linkIf _ (by simp; omega) (by simp)

theorem placed_forDo (up : List Stmt) (addr : Address) (i : Option Simple) (c t : Option Expr)
    (b : Stmt) (p : Pos) :
    ((Stmt.forDo i c t b p).elementsIn up addr).filter Element.isPlaced =
    Located.initial ⟨up, addr, .forDo i c t b p⟩ ++
      Located.condition ⟨up, addr, .forDo i c t b p⟩ ++
      (b.elementsIn (up ++ [Stmt.forDo i c t b p]) (addr ++ [1])).filter Element.isPlaced ++
      Located.advance ⟨up, addr, .forDo i c t b p⟩ := by
  have hi :
      (i.toList.map fun x => (⟨addr ++ [0], .simple x, .init, x.exprs,
        up ++ [Stmt.forDo i c t b p]⟩ : Element)).filter Element.isPlaced =
      Located.initial ⟨up, addr, .forDo i c t b p⟩ := by
    cases i with
    | none => rfl
    | some x =>
      cases hx : x.exprs.isEmpty <;>
        simp [Located.initial, Located.evaluated, Located.element, Located.child,
          Element.isPlaced, hx]
  rw [Stmt.elementsIn, List.filter_append, List.filter_append, List.filter_append, hi]
  cases c <;> cases t <;>
    simp [Located.condition, Located.advance, Located.element, Stmt.control?, List.filter_cons,
      Element.isPlaced]

theorem editable_forDo (i : Option Simple) (c t : Option Expr) (p : Pos) (hb : Editable exits b) :
    Editable exits (.forDo i c t b p) := by
  refine editable_of_some fun sc up addr cur d next d' hrun hsc hcur => ?_
  obtain ⟨r, d₁, rfl, hrun₁, rfl⟩ := addStmt_forDo hrun
  have h₀ := edits_openFor ⟨up, addr, .forDo i c t b p⟩ hcur
  obtain ⟨⟨es, he, hp⟩, hn⟩ :=
    hb _ _ _ _ _ _ _ hrun₁ (hsc.loop h₀.size_le (by simp) (by simp)) (by simp)
  have hsize := he.size_le
  simp only [Draft.size_openFor] at hsize
  refine ⟨⟨_, (h₀.trans he).leave hn (by omega), ?_⟩, ?_⟩
  · rw [placed_forDo, List.append_assoc, List.append_assoc (_ ++ _)]
    exact List.Perm.append_left _ (List.perm_append_comm.trans (hp.append_right _))
  · rintro _ ⟨⟩
    simp
    omega

theorem editable_switch (c : Expr) (p : Pos) (hb : Editable exits b) :
    Editable exits (.switch c b p) := by
  refine editable_of_some fun sc up addr cur d next d' hrun hsc hcur => ?_
  obtain ⟨r, d₁, rfl, hrun₁, rfl⟩ := addStmt_switch hrun
  have h₀ : Edits d _ (d.openSwitch cur ⟨up, addr, .switch c b p⟩) :=
    ((Edits.refl.append _ _ hcur).push _).push _
  have hsc' := hsc.mono h₀.size_le
  obtain ⟨⟨es, he, hp⟩, hn⟩ :=
    hb _ _ _ _ _ _ _ hrun₁ ⟨hsc'.exit, by simp, hsc'.cont, by simp; omega⟩ (by simp)
  have hsize := he.size_le
  simp only [Draft.size_openSwitch] at hsize
  refine ⟨⟨_, ((h₀.trans he).leave hn (by omega)).linkIf _ (by simp; omega) (by simp; omega), ?_⟩,
    ?_⟩
  · simpa [Located.condition, Stmt.control?, List.filter_cons,
      Element.isPlaced] using hp
  · rintro _ ⟨⟩
    simp
    omega

theorem editable_case (v : Option Expr) (p : Pos) (hb : Editable exits b) :
    Editable exits (.case v b p) := by
  refine editable_of_some fun sc up addr cur d next d' hrun hsc hcur => ?_
  obtain ⟨k, hk, hrun₁⟩ := addStmt_case hrun
  have hklt := hsc.dispatch k hk
  have h₀ : Edits d [] (d.openCase cur k) :=
    ((Edits.refl.push _).link (by simp; omega) (by simp)).link (by simp; omega) (by simp)
  obtain ⟨⟨es, he, hp⟩, hn⟩ := hb _ _ _ _ _ _ _ hrun₁ (hsc.mono h₀.size_le) (by simp)
  exact ⟨⟨_, h₀.trans he, by simpa using hp⟩, hn⟩

theorem editable_label (name : String) (p : Pos) (hb : Editable exits b) :
    Editable exits (.label name b p) := by
  refine editable_of_some fun sc up addr cur d next d' hrun hsc hcur => ?_
  obtain ⟨hl, hrun₁⟩ := addStmt_label hrun
  have h₀ : Edits d [] (d.openLabel cur name) :=
    ((Edits.refl.push _).link (by simp; omega) (by simp)).name hl (by simp)
  obtain ⟨⟨es, he, hp⟩, hn⟩ := hb _ _ _ _ _ _ _ hrun₁ (hsc.mono h₀.size_le) (by simp)
  exact ⟨⟨_, h₀.trans he, by simpa using hp⟩, hn⟩

def EditableAll (exits : List String) (ss : List Stmt) : Prop :=
  ∀ sc up addr n cur d next d', addAll exits sc up addr n ss cur d = .ok (next, d') →
    sc.Below d.size → (∀ c, cur = some c → c < d.size) →
    (∃ es, Edits d es d' ∧ es.Perm ((Stmt.elementsOfAll up addr n ss).filter Element.isPlaced)) ∧
    ∀ n, next = some n → n < d'.size

theorem editableAll_nil : EditableAll exits [] := by
  intro sc up addr n cur d next d' hrun hsc hcur
  simp only [addAll] at hrun
  cases hrun
  exact ⟨⟨[], .refl, by simp [Stmt.elementsOfAll]⟩, hcur⟩

theorem editableAll_cons {s : Stmt} {ss : List Stmt} (hs : Editable exits s)
    (hss : EditableAll exits ss) : EditableAll exits (s :: ss) := by
  intro sc up addr n cur d next d' hrun hsc hcur
  simp only [addAll] at hrun
  obtain ⟨mid, d₁, hrun₁, hrun₂⟩ := bind_ok hrun
  obtain ⟨⟨es, he, hp⟩, hmid⟩ := hs _ _ _ _ _ _ _ hrun₁ hsc hcur
  obtain ⟨⟨es', he', hp'⟩, hn⟩ := hss _ _ _ _ _ _ _ _ hrun₂ (hsc.mono he.size_le) hmid
  exact ⟨⟨_, he.trans he', by simpa [Stmt.elementsOfAll] using hp.append hp'⟩, hn⟩

theorem editable_block {ss : List Stmt} (p : Pos) (hss : EditableAll exits ss) :
    Editable exits (.block ss p) := by
  refine editable_of_some fun sc up addr cur d next d' hrun hsc hcur => ?_
  rw [addStmt_block] at hrun
  obtain ⟨⟨es, he, hp⟩, hn⟩ := hss _ _ _ _ _ _ _ _ hrun hsc (by simpa using hcur)
  exact ⟨⟨es, he, by simpa using hp⟩, hn⟩

mutual
/-- Adding a statement is a sequence of edits that put each of its elements into a block once. -/
theorem editable : ∀ s : Stmt, Editable exits s
  | .block ss p => editable_block p (editableAll ss)
  | .simple x => editable_simple x
  | .ret v p => editable_ret v p
  | .goto name p => editable_goto name p
  | .brk p => editable_brk p
  | .cont p => editable_cont p
  | .empty p => editable_empty p
  | .ifElse c a none p => editable_ifOnly c p (editable a)
  | .ifElse c a (some b) p => editable_ifElse c p (editable a) (editable b)
  | .whileDo c b p => editable_whileDo c p (editable b)
  | .doWhile b c p => editable_doWhile c p (editable b)
  | .forDo i c t b p => editable_forDo i c t p (editable b)
  | .switch c b p => editable_switch c p (editable b)
  | .case v b p => editable_case v p (editable b)
  | .label name b p => editable_label name p (editable b)

theorem editableAll : ∀ ss : List Stmt, EditableAll exits ss
  | [] => editableAll_nil
  | s :: ss => editableAll_cons (editable s) (editableAll ss)
end

end Flow

end JniContracts
