import JniContracts.Proofs.ControlFlow
import JniContracts.Proofs.Coverage
import Mathlib.Data.List.Induction

/-!
What has to be done behind an element before the function is left or the element runs again, told of
the executions of a body. A duty can be failed just if the search in the control-flow graph finds a
violating path.
-/

namespace JniContracts.Flow

open Execution

variable {q : Position} {ms : List Move}

namespace Graph

variable {p : Position} {e : Element} {key : Address × Role}

theorem mem_placed {g : Graph} :
    (p, e) ∈ g.placed ↔ ∃ b ∈ g.blocks, b.id = p.block ∧ b.elements[p.index]? = some e := by
  simp only [placed, List.mem_flatMap, List.mem_map, Prod.exists, List.mem_zipIdx_iff_getElem?]
  constructor
  · rintro ⟨b, hb, e', i, he, heq⟩
    cases heq
    exact ⟨b, hb, rfl, he⟩
  · rintro ⟨b, hb, hid, he⟩
    refine ⟨b, hb, e, p.index, he, ?_⟩
    rw [hid]

theorem map_placed (g : Graph) : g.placed.map (·.2) = g.blocks.flatMap Block.elements := by
  simp [placed, List.map_flatMap, Function.comp_def]

theorem Moves.placed {g : Graph} {p p' : Position} (h : g.Moves p (.run p' e) q) :
    p' = p ∧ (p, e) ∈ g.placed ∧ q = ⟨p.block, p.index + 1⟩ := by
  cases h with
  | run hb he => exact ⟨rfl, mem_placed.mpr ⟨_, hb, rfl, he⟩, rfl⟩

theorem moves_of_placed {g : Graph} (h : (p, e) ∈ g.placed) :
    g.Moves p (.run p e) ⟨p.block, p.index + 1⟩ := by
  obtain ⟨b, hb, hid, he⟩ := mem_placed.mp h
  obtain ⟨n, i⟩ := p
  cases hid
  exact .run hb he

theorem Walk.enters {g : Graph} {p : Position} (h : g.Walk p ms q) (hp : p ≠ q)
    (hq : q.index = 0) : ∃ b e, .take b e ∈ ms ∧ e.target = q.block := by
  induction h with
  | refl p => exact absurd rfl hp
  | @step p r q m ms hm _ ih =>
    by_cases hr : r = q
    · subst hr
      cases hm with
      | run => simp at hq
      | @take b e => exact ⟨b, e, List.mem_cons_self .., rfl⟩
    · obtain ⟨b, e, hin, ht⟩ := ih hr hq
      exact ⟨b, e, List.mem_cons_of_mem _ hin, ht⟩

theorem Walk.moves {g : Graph} {p : Position} (h : g.Walk p ms q) :
    ∀ m ∈ ms, ∃ r r', g.Moves r m r' := by
  induction h with
  | refl p => simp
  | step hm _ ih =>
    intro m hin
    rcases List.mem_cons.mp hin with rfl | hin
    · exact ⟨_, _, hm⟩
    · exact ih m hin

def Keyed (g : Graph) : Prop := (g.placed.map (·.2.key)).Nodup

theorem Keyed.place_eq {g : Graph} (hk : g.Keyed) {p : Position} {e e' : Element}
    (h : (p, e) ∈ g.placed) (h' : (q, e') ∈ g.placed) (he : e.key = e'.key) : p = q :=
  congrArg Prod.fst (List.inj_on_of_nodup_map hk h h' he)

theorem Distinct.element_eq {g : Graph} (hd : g.Distinct) {e e' : Element}
    (h : (p, e) ∈ g.placed) (h' : (p, e') ∈ g.placed) : e = e' := by
  obtain ⟨b, hb, hid, he⟩ := mem_placed.mp h
  obtain ⟨b', hb', hid', he'⟩ := mem_placed.mp h'
  rw [hd.eq_of_id hb hb' (hid.trans hid'.symm), he'] at he
  exact (Option.some.inj he).symm

theorem placed_of_position? {g : Graph} (h : g.position? key = some p) :
    ∃ e, (p, e) ∈ g.placed ∧ e.key = key := by
  obtain ⟨⟨q, e⟩, hf, rfl⟩ := Option.map_eq_some_iff.mp h
  exact ⟨e, List.mem_of_find?_eq_some hf, by simpa using List.find?_some hf⟩

theorem position?_isSome {g : Graph} :
    (g.position? key).isSome = true ↔ ∃ e ∈ g.blocks.flatMap Block.elements, e.key = key := by
  rw [Graph.position?, Option.isSome_map, List.find?_isSome, ← map_placed]
  constructor
  · rintro ⟨x, hx, hkey⟩
    exact ⟨x.2, List.mem_map_of_mem hx, beq_iff_eq.mp hkey⟩
  · rintro ⟨e, he, hkey⟩
    obtain ⟨x, hx, rfl⟩ := List.mem_map.mp he
    exact ⟨x, hx, beq_iff_eq.mpr hkey⟩

theorem Keyed.position? {g : Graph} (hk : g.Keyed) (h : (p, e) ∈ g.placed) :
    g.position? e.key = some p := by
  cases hq : g.position? e.key with
  | none =>
    simp only [Graph.position?, Option.map_eq_none_iff, List.find?_eq_none] at hq
    exact absurd (beq_self_eq_true _) (hq (p, e) h)
  | some q =>
    obtain ⟨e', he', hkey⟩ := placed_of_position? hq
    rw [hk.place_eq he' h hkey]

theorem Keyed.place_iff {g : Graph} (hk : g.Keyed) (hd : g.Distinct) {t p : Position}
    (ht : g.position? key = some t) (he : (p, e) ∈ g.placed) : p = t ↔ e.key = key := by
  constructor
  · rintro rfl
    obtain ⟨e', he', hkey⟩ := placed_of_position? ht
    rw [hd.element_eq he he']
    exact hkey
  · intro hkey
    have hq := hk.position? he
    rw [hkey, ht] at hq
    exact (Option.some.inj hq).symm

end Graph

variable {exits : List String} {f : Function} {g : Graph} {p : Position}

theorem keyed_of_build (h : build exits f = .ok g) : g.Keyed := by
  obtain ⟨d, hd, -, -, hsub⟩ := build_ok h
  have hbody : (f.body.elements.map Element.key).Nodup := (Stmt.keyed_elementsIn [] [] f.body).nodup
  have hdraft : (d.elements.map Element.key).Nodup :=
    (hd.elements.map Element.key).nodup_iff.mpr (hbody.sublist (List.filter_sublist.map _))
  have hkeys : g.placed.map (·.2.key) = (g.blocks.flatMap Block.elements).map Element.key := by
    rw [← Graph.map_placed, List.map_map]
    rfl
  rw [Graph.Keyed, hkeys]
  exact hdraft.sublist (hsub.map _)

theorem distinct_of_build (h : build exits f = .ok g) : g.Distinct := by
  obtain ⟨d, -, hg, -⟩ := build_ok h
  exact hg.distinct

theorem walk_to_placed (h : build exits f = .ok g) {e : Element} (he : (p, e) ∈ g.placed) :
    ∃ ms, g.Walk ⟨g.entry, 0⟩ ms p := by
  obtain ⟨d, -, hg, -⟩ := build_ok h
  obtain ⟨b, hb, hid, hget⟩ := Graph.mem_placed.mp he
  obtain ⟨n, i⟩ := p
  cases hid
  have hlt : i < b.elements.length := (List.getElem?_eq_some_iff.mp hget).1
  have hne : b.elements ≠ [] := fun hnil => by simp [hnil] at hlt
  obtain ⟨es, hs⟩ := hg.reached b hb hne
  obtain ⟨ms, hw, -, -⟩ := walk_of_steps hg hs hg.entry
  obtain ⟨ns, hrun, -, -⟩ := Graph.walk_run hb 0 (b.elements.take i) (List.take_prefix ..)
  have hi : 0 + (b.elements.take i).length = i := by
    rw [List.length_take]
    omega
  rw [hi] at hrun
  exact ⟨ms ++ ns, hw.append hrun⟩

def branchKind (yes : Bool) : EdgeKind := if yes then .branchTrue else .branchFalse

/-- Leaving a block is seen only where its last element decides between two branches. -/
theorem mem_decided {es : List Element} {kind : EdgeKind} {x : Event} :
    x ∈ decided es kind ↔ ∃ e yes, es.getLast? = some e ∧ e.isBranch = true ∧
    kind = branchKind yes ∧ x = .chose e yes := by
  cases hl : es.getLast? with
  | none => simp [decided, hl]
  | some e => cases hb : e.isBranch <;> cases kind <;> simp [decided, branchKind, hl, hb]

/-- The last element that is seen to run on a walk, and the silent rest of the walk. -/
theorem split_ran {es : List Event} {e : Element}
    (h : ms.flatMap Move.events = es ++ [Event.ran e]) :
    ∃ ms₁ p ms₂, ms = ms₁ ++ .run p e :: ms₂ ∧ ms₂.flatMap Move.events = [] := by
  induction ms using List.reverseRecOn with
  | nil => simp at h
  | append_singleton ms m ih =>
    rw [List.flatMap_append, List.flatMap_singleton] at h
    cases m with
    | run p e' =>
      have heq : Event.ran e' = .ran e := by simpa [Move.events] using congrArg List.getLast? h
      cases heq
      exact ⟨ms, p, [], rfl, rfl⟩
    | take b k =>
      rcases List.eq_nil_or_concat (Move.take b k).events with hnil | ⟨xs, x, hx⟩
      · rw [hnil, List.append_nil] at h
        obtain ⟨ms₁, p, ms₂, rfl, hsilent⟩ := ih h
        refine ⟨ms₁, p, ms₂ ++ [Move.take b k], by simp, ?_⟩
        rw [List.flatMap_append, hsilent, List.flatMap_singleton, hnil, List.append_nil]
      · have hmem : x ∈ decided b.elements k.kind := by
          rw [show decided b.elements k.kind = _ from hx]
          simp
        obtain ⟨e', yes, -, -, -, rfl⟩ := mem_decided.mp hmem
        rw [hx] at h
        have heq : Event.chose e' yes = .ran e := by simpa using congrArg List.getLast? h
        cases heq

/-- Something that has to be done behind an element, whenever it has run: before it runs again, and
before the function is left. -/
structure Duty where
  key : Address × Role
  classify : Element → Verdict
  /-- The branches on which there is nothing to do. -/
  Exempt : Element → Bool → Prop

namespace Duty

def verdict (d : Duty) (e : Element) : Verdict := if e.key = d.key then .violated else d.classify e

def Keeps (d : Duty) : Event → Prop
  | .ran e => d.verdict e = .pending
  | .chose e yes => ¬ d.Exempt e yes

def Misses (d : Duty) : Event → Prop
  | .ran e => d.verdict e ≠ .satisfied
  | .chose e yes => ¬ d.Exempt e yes

/-- An execution that runs the element of the duty, goes on with such events only, and comes out of
the function or to an element at which the duty is violated. -/
def Fails (d : Duty) (exits : List String) (body : Stmt) (P : Event → Prop) : Prop :=
  ∃ before e s after s', Steps exits body (start body) (before ++ [.ran e]) s ∧ e.key = d.key ∧
    Steps exits body s after s' ∧ (∀ x ∈ after, P x) ∧
    (s' = .left ∨ ∃ e' s'', Steps exits body s' [.ran e'] s'' ∧ d.verdict e' = .violated)

end Duty

/-- The obligation that stands for a duty in the graph, at the place of its element. -/
structure Obligation.Enforces (o : Obligation) (g : Graph) (d : Duty) : Prop where
  trigger : g.position? d.key = some o.trigger
  classify : o.classify = d.classify
  atTrigger : o.atTrigger = .violated
  atExit : o.atExit = .violated
  prune : ∀ e k, e.role = .cond →
    (o.prune e k = true ↔ e.isBranch = true ∧ ∃ yes, k.kind = branchKind yes ∧ d.Exempt e yes)

namespace Obligation

variable {o : Obligation} {d : Duty}

theorem Enforces.verdictAt (h : o.Enforces g d) (hb : build exits f = .ok g) {e : Element}
    (he : (p, e) ∈ g.placed) : o.verdictAt p e = d.verdict e := by
  have hp : p = o.trigger ↔ e.key = d.key :=
    (keyed_of_build hb).place_iff (distinct_of_build hb) h.trigger he
  simp [Obligation.verdictAt, Duty.verdict, hp, h.atTrigger, h.classify]

/-- An edge is followed just if the branch that is seen to be taken with it is not exempt. -/
theorem Enforces.follows_iff (h : o.Enforces g d) {b : Block} {k : Edge} :
    o.Follows b k ↔ ∀ x ∈ decided b.elements k.kind, d.Misses x := by
  constructor
  · intro hf x hx
    obtain ⟨e, yes, hl, hbr, hk, rfl⟩ := mem_decided.mp hx
    have hrole : e.role = .cond := by
      rw [Element.isBranch, Bool.and_eq_true, beq_iff_eq] at hbr
      exact hbr.1
    intro hex
    have hp := (h.prune e k hrole).mpr ⟨hbr, yes, hk, hex⟩
    rw [hf e hl hrole] at hp
    cases hp
  · intro hx e hl hrole
    rw [Bool.eq_false_iff]
    intro hp
    obtain ⟨hbr, yes, hk, hex⟩ := (h.prune e k hrole).mp hp
    exact hx (.chose e yes) (mem_decided.mpr ⟨e, yes, hl, hbr, hk, rfl⟩) hex

theorem Enforces.keepsOpen_or_breaks (h : o.Enforces g d) (hb : build exits f = .ok g) {m : Move}
    (hm : g.Moves p m q) (hx : ∀ x ∈ m.events, d.Misses x) : o.KeepsOpen g m ∨ o.Breaks g m := by
  cases m with
  | run p' e =>
    obtain ⟨rfl, he, -⟩ := hm.placed
    have hv := h.verdictAt hb he
    have hne : d.verdict e ≠ .satisfied := hx (.ran e) (List.mem_singleton.mpr rfl)
    cases hd : d.verdict e with
    | satisfied => exact absurd hd hne
    | pending => exact .inl (hv.trans hd)
    | violated => exact .inr (hv.trans hd)
  | take b k =>
    have hf := h.follows_iff.mpr hx
    by_cases ht : k.target = g.exit
    · exact .inr ⟨hf, ht, h.atExit⟩
    · exact .inl ⟨hf, ht⟩

theorem Enforces.keeps_of_keepsOpen (h : o.Enforces g d) (hb : build exits f = .ok g)
    {m : Move} (hm : g.Moves p m q) (ho : o.KeepsOpen g m) : ∀ x ∈ m.events, d.Keeps x := by
  intro x hx
  cases m with
  | run p' e =>
    obtain ⟨rfl, he, -⟩ := hm.placed
    rw [List.mem_singleton.mp hx]
    exact (h.verdictAt hb he).symm.trans ho
  | take b k =>
    have hmiss := h.follows_iff.mp ho.1 x hx
    obtain ⟨e, yes, -, -, -, rfl⟩ := mem_decided.mp hx
    exact hmiss

/-- Up to the first move that breaks the obligation, it stays open. -/
theorem exists_first_break (hw : g.Walk p ms q)
    (hall : ∀ m ∈ ms, o.KeepsOpen g m ∨ o.Breaks g m) (hex : ∃ m ∈ ms, o.Breaks g m) :
    ∃ ns n r r', g.Walk p ns r ∧ (∀ x ∈ ns, o.KeepsOpen g x) ∧ g.Moves r n r' ∧ o.Breaks g n := by
  induction hw with
  | refl p => simp at hex
  | @step p r q m ms hm _ ih =>
    rcases hall m (List.mem_cons_self ..) with hopen | hbreak
    · by_cases hlater : ∃ m ∈ ms, o.Breaks g m
      · obtain ⟨ns, n, t, t', hw, ho, hn, hbr⟩ :=
          ih (fun m hin => hall m (List.mem_cons_of_mem _ hin)) hlater
        refine ⟨m :: ns, n, t, t', .step hm hw, fun x hin => ?_, hn, hbr⟩
        rcases List.mem_cons.mp hin with rfl | hin
        · exact hopen
        · exact ho x hin
      · obtain ⟨m', hin, hbr⟩ := hex
        rcases List.mem_cons.mp hin with rfl | hin
        · exact ⟨[], m', p, r, .refl p, by simp, hm, hbr⟩
        · exact absurd ⟨m', hin, hbr⟩ hlater
    · exact ⟨[], m, p, r, .refl p, by simp, hm, hbreak⟩

/-- A violating path is the trace of an execution that fails the duty. -/
theorem Enforces.fails_of_violating (h : o.Enforces g d) (hb : build exits f = .ok g)
    {m : Move} (hv : o.Violating g ms m) : d.Fails exits f.body d.Keeps := by
  obtain ⟨p, q, hw, hopen, hm, hbreak⟩ := hv
  obtain ⟨e, he, hkey⟩ := Graph.placed_of_position? h.trigger
  obtain ⟨ns, hto⟩ := walk_to_placed hb he
  obtain ⟨s, hs, hstart⟩ := (aligned_start hb).steps (hto.snoc (Graph.moves_of_placed he))
  rw [List.flatMap_append, List.flatMap_singleton] at hs
  obtain ⟨s', hs', hp⟩ := hstart.steps hw
  obtain ⟨s'', hs'', hq⟩ := hp.steps hm.walk
  rw [List.flatMap_singleton] at hs''
  have hkeeps : ∀ x ∈ ms.flatMap Move.events, d.Keeps x := by
    intro x hx
    obtain ⟨n, hn, hx⟩ := List.mem_flatMap.mp hx
    obtain ⟨r, r', hr⟩ := hw.moves n hn
    exact h.keeps_of_keepsOpen hb hr (hopen n hn) x hx
  cases m with
  | run p' e' =>
    obtain ⟨rfl, he', -⟩ := hm.placed
    have hviolated : d.verdict e' = .violated := (h.verdictAt hb he').symm.trans hbreak
    exact ⟨_, e, s, _, s', hs, hkey, hs', hkeeps, .inr ⟨e', s'', hs'', hviolated⟩⟩
  | take b k =>
    obtain ⟨hf, htarget, -⟩ := hbreak
    have hexit : q = ⟨g.exit, 0⟩ := by
      cases hm with
      | take => rw [htarget]
    rw [hexit] at hq
    refine ⟨_, e, s, _, .left, hs, hkey, (hs'.append hs'').append hq.left, ?_, .inl rfl⟩
    intro x hx
    rw [List.append_nil] at hx
    rcases List.mem_append.mp hx with hx | hx
    · exact hkeeps x hx
    · have hmiss := h.follows_iff.mp hf x hx
      obtain ⟨e', yes, -, -, -, rfl⟩ := mem_decided.mp hx
      exact hmiss

/-- A walk behind the trigger on which nothing meets the duty has a violating path in it, if one of
its moves breaks the obligation. -/
theorem Enforces.violating_of_walk (h : o.Enforces g d) (hb : build exits f = .ok g)
    (hw : g.Walk o.start ms q) (hmiss : ∀ x ∈ ms.flatMap Move.events, d.Misses x)
    (hex : ∃ m ∈ ms, o.Breaks g m) : ∃ ns n, o.Violating g ns n := by
  have hall : ∀ m ∈ ms, o.KeepsOpen g m ∨ o.Breaks g m := by
    intro m hm
    obtain ⟨u, u', hmove⟩ := hw.moves m hm
    exact h.keepsOpen_or_breaks hb hmove fun x hx => hmiss x (List.mem_flatMap.mpr ⟨m, hm, hx⟩)
  obtain ⟨ns, n, u, u', hn⟩ := exists_first_break hw hall hex
  exact ⟨ns, n, u, u', hn⟩

/-- An execution that fails a duty runs along a violating path, or along more than that. -/
theorem violating_of_fails (hb : build exits f = .ok g) (hd : d.Fails exits f.body d.Misses) :
    ∃ p, g.position? d.key = some p ∧
      ∀ o : Obligation, o.trigger = p → o.Enforces g d → ∃ ms m, o.Violating g ms m := by
  obtain ⟨before, e, s, after, s', hs, hkey, hs', hmiss, hend⟩ := hd
  obtain ⟨ms, q, hw, hms, hq⟩ := (aligned_start hb).walk hs
  obtain ⟨ms₁, p, ms₂, rfl, hsilent⟩ := split_ran hms
  obtain ⟨p', -, hw⟩ := hw.split
  cases hw with
  | step hrun hw₂ =>
  obtain ⟨rfl, he, rfl⟩ := hrun.placed
  refine ⟨p, hkey ▸ (keyed_of_build hb).position? he, fun o ho h => ?_⟩
  obtain ⟨ms₃, r, hw₃, hms₃, hr⟩ := hq.walk hs'
  have hwalk : g.Walk o.start (ms₂ ++ ms₃) r := by
    rw [start, ho]
    exact hw₂.append hw₃
  have hevents : (ms₂ ++ ms₃).flatMap Move.events = after := by
    rw [List.flatMap_append, hsilent, hms₃, List.nil_append]
  rcases hend with rfl | ⟨e', s'', hs'', hviolated⟩
  · -- The silent rest of the walk takes an edge to the exit.
    obtain ⟨ms₄, hw₄, hms₄⟩ := hr.exit
    have hmiss' : ∀ x ∈ (ms₂ ++ ms₃ ++ ms₄).flatMap Move.events, d.Misses x := by
      rw [List.flatMap_append, hevents, hms₄, List.append_nil]
      exact hmiss
    obtain ⟨b, k, hk, htarget⟩ := (hwalk.append hw₄).enters (by simp [start]) rfl
    refine h.violating_of_walk hb (hwalk.append hw₄) hmiss' ⟨.take b k, hk, ?_, htarget, h.atExit⟩
    exact h.follows_iff.mpr fun x hx => hmiss' x (List.mem_flatMap.mpr ⟨.take b k, hk, hx⟩)
  · obtain ⟨ms₄, t, hw₄, hms₄, -⟩ := hr.walk hs''
    have hmiss' : ∀ x ∈ (ms₂ ++ ms₃ ++ ms₄).flatMap Move.events, d.Misses x := by
      intro x hx
      rw [List.flatMap_append, hevents, hms₄] at hx
      rcases List.mem_append.mp hx with hx | hx
      · exact hmiss x hx
      · rw [List.mem_singleton.mp hx]
        simp [Duty.Misses, hviolated]
    obtain ⟨ns, p', ns', hns, -⟩ := split_ran (show _ = [] ++ [_] from hms₄)
    have hin : .run p' e' ∈ ms₂ ++ ms₃ ++ ms₄ := by simp [hns]
    obtain ⟨u, u', hmove⟩ := (hwalk.append hw₄).moves _ hin
    obtain ⟨rfl, he', -⟩ := hmove.placed
    exact h.violating_of_walk hb (hwalk.append hw₄) hmiss'
      ⟨.run p' e', hin, (h.verdictAt hb he').trans hviolated⟩

end Obligation

end JniContracts.Flow
