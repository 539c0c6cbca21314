import JniContracts.Proofs.Coverage
import Mathlib.Data.List.Flatten
import Mathlib.Data.List.Perm.Subperm

/-!
The lines that go with a violation are those of a path of the graph. No block is entered twice on
it, which bounds its length by the number of elements, and the reason says how it ends.
-/

namespace JniContracts.Flow

variable {g : Graph}

namespace Graph

/-- The elements of a block; a number without a block has none. -/
def code (g : Graph) (id : Nat) : List Element := ((g.block? id).map Block.elements).getD []

theorem Distinct.code_eq (hd : g.Distinct) {b : Block} (hb : b ∈ g.blocks) :
    g.code b.id = b.elements := by
  rw [code, hd.block? hb]
  rfl

theorem flatMap_code_filter (ids : List Nat) :
    (ids.filter fun id => (g.block? id).isSome).flatMap g.code = ids.flatMap g.code := by
  induction ids with
  | nil => rfl
  | cons id ids ih => cases hb : g.block? id <;> simp [hb, code, ih]

theorem Distinct.length_code (hd : g.Distinct) :
    ((g.blocks.map Block.id).flatMap g.code).length = g.placed.length := by
  have hcode : (g.blocks.map Block.id).flatMap g.code = g.blocks.flatMap Block.elements := by
    rw [List.flatMap_map]
    exact List.flatMap_congr fun b hb => hd.code_eq hb
  rw [hcode]
  simp only [placed, List.length_flatMap, List.length_map, List.length_zipIdx]

/-- Different blocks have no more elements together than the graph has. -/
theorem Distinct.length_code_le (hd : g.Distinct) {ids : List Nat} (hids : ids.Nodup) :
    (ids.flatMap g.code).length ≤ g.placed.length := by
  have hblocks : (ids.filter fun id => (g.block? id).isSome) ⊆ g.blocks.map Block.id := by
    intro id hid
    obtain ⟨b, hb⟩ := Option.isSome_iff_exists.mp (List.mem_filter.mp hid).2
    exact List.mem_map.mpr ⟨b, mem_of_block? hb⟩
  obtain ⟨l, hperm, hsub⟩ := List.subperm_of_subset (hids.filter _) hblocks
  calc (ids.flatMap g.code).length
    _ = (l.flatMap g.code).length := by
      rw [← flatMap_code_filter, (hperm.flatMap_right g.code).length_eq]
    _ ≤ ((g.blocks.map Block.id).flatMap g.code).length := (hsub.flatMap g.code).length_le
    _ = g.placed.length := hd.length_code

theorem Walk.length_run_le (hd : g.Distinct) {p q : Position} {ms : List Move}
    (hw : g.Walk p ms q) :
    (ms.filterMap Move.element?).length ≤
    (g.code p.block).length - p.index + ((Obligation.enteredBy ms).flatMap g.code).length := by
  induction hw with
  | refl p => simp
  | step hm _ ih =>
    cases hm with
    | @run b i e hb he =>
      have hi : i < b.elements.length := (List.getElem?_eq_some_iff.mp he).1
      simp only [hd.code_eq hb] at ih ⊢
      simp only [Obligation.enteredBy, Move.element?, Move.entered?, List.filterMap_cons,
        List.length_cons] at ih ⊢
      omega
    | @take b e hb he =>
      simp only [Obligation.enteredBy, Move.element?, Move.entered?, List.filterMap_cons,
        List.flatMap_cons, List.length_append] at ih ⊢
      omega

end Graph

namespace Obligation

variable {o : Obligation} {ms : List Move} {m : Move}

theorem length_linesOf (ms : List Move) :
    (linesOf ms).length = (ms.filterMap Move.element?).length :=
  List.length_map ..

theorem Violating.walk (h : o.Violating g ms m) : ∃ q, g.Walk o.start (ms ++ [m]) q := by
  obtain ⟨p, q, hw, -, hm, -⟩ := h
  exact ⟨q, hw.snoc hm⟩

theorem Violating.follows (h : o.Violating g ms m)
    {b : Block} {e : Edge} (he : .take b e ∈ ms ++ [m]) : o.Follows b e := by
  obtain ⟨p, q, -, hopen, -, hbreaks⟩ := h
  rcases List.mem_append.mp he with he | he
  · exact (hopen _ he).1
  · rw [← List.mem_singleton.mp he] at hbreaks
    exact hbreaks.1

/-- Only the last edge of a violating path leads to the exit. -/
theorem Violating.nodup_entered (h : o.Violating g ms m)
    (hn : (enteredBy ms).Nodup) : (enteredBy (ms ++ [m])).Nodup := by
  obtain ⟨p, q, -, hopen, -, hbreaks⟩ := h
  cases m with
  | run p e => simpa [enteredBy, Move.entered?, List.filterMap_cons] using hn
  | take b e =>
    have hexit : e.target ∉ enteredBy ms := by
      intro hmem
      obtain ⟨x, hx, hxe⟩ := List.mem_filterMap.mp hmem
      cases x with
      | run => simp [Move.entered?] at hxe
      | take b' e' =>
        have hsame : e'.target = e.target := by simpa [Move.entered?] using hxe
        exact (hopen _ hx).2 (hsame.trans hbreaks.2.1)
    have happend : enteredBy (ms ++ [Move.take b e]) = enteredBy ms ++ [e.target] := by
      simp [enteredBy, Move.entered?]
    rw [happend]
    exact List.nodup_append'.mpr ⟨hn, List.nodup_singleton _, by simpa using hexit⟩

theorem Violating.length_le (hd : g.Distinct) (h : o.Violating g ms m)
    (hn : (enteredBy (ms ++ [m])).Nodup) : (linesOf (ms ++ [m])).length ≤ 2 * g.placed.length := by
  obtain ⟨q, hw⟩ := h.walk
  have hrun := hw.length_run_le hd
  have hfirst := hd.length_code_le (List.nodup_singleton o.start.block)
  have hentered := hd.length_code_le hn
  rw [List.flatMap_singleton] at hfirst
  rw [length_linesOf]
  omega

/-- What the last move of a violating path is, by the reason given for the violation: an element
that breaks the obligation and is not the trigger, the trigger, or an edge to the exit. -/
inductive EndsBy (o : Obligation) (g : Graph) (trigger : Element) : Reason → Move → Prop where
  | hazard {p : Position} {e : Element} (hp : p ≠ o.trigger) (hv : o.classify e = .violated) :
      EndsBy o g trigger .hazard (.run p e)
  | retrigger (hv : o.atTrigger = .violated) :
      EndsBy o g trigger .retrigger (.run o.trigger trigger)
  | exit {b : Block} {e : Edge} (ht : e.target = g.exit) (hv : o.atExit = .violated) :
      EndsBy o g trigger .exit (.take b e)

theorem endsBy_of_breaks (hd : g.Distinct) {trigger : Element}
    (ht : g.elementAt? o.trigger = some trigger) {p q : Position} (hm : g.Moves p m q)
    (hb : o.Breaks g m) : o.EndsBy g trigger (o.reasonOf m) m := by
  cases hm with
  | @run b i e hmem he =>
    have hbreak : o.verdictAt ⟨b.id, i⟩ e = .violated := hb
    by_cases hp : (⟨b.id, i⟩ : Position) = o.trigger
    · have hsame : e = trigger := by
        rw [← hp, Graph.elementAt?, hd.block? hmem] at ht
        exact Option.some.inj (he.symm.trans ht)
      rw [verdictAt, if_pos hp] at hbreak
      rw [reasonOf, if_pos hp, hp, hsame]
      exact .retrigger hbreak
    · rw [verdictAt, if_neg hp] at hbreak
      rw [reasonOf, if_neg hp]
      exact .hazard hp hbreak
  | take _ _ => exact .exit hb.2.1 hb.2.2

/-- The witness of a violation is a violating path: its lines are those of the path, the trigger's
first; the path takes no pruned edge, enters no block twice, is no longer than that allows, and ends
as the reason says. -/
theorem coverage_witness_path {o : Obligation} {g : Graph} (hd : g.Distinct) {witness : List Nat}
    {reason : Reason} (h : o.coverage g = .violated witness reason) :
    ∃ trigger ms m, g.elementAt? o.trigger = some trigger ∧ o.Violating g ms m ∧
      witness = trigger.line :: linesOf (ms ++ [m]) ∧
      (∀ b e, .take b e ∈ ms ++ [m] → o.Follows b e) ∧
      (enteredBy (ms ++ [m])).Nodup ∧ witness.length ≤ 1 + 2 * g.placed.length ∧
      o.EndsBy g trigger reason m := by
  obtain ⟨trigger, ht, ms, m, hv, rfl, rfl, hn⟩ := coverage_reported h
  have hentered := hv.nodup_entered hn
  have hlength := hv.length_le hd hentered
  refine ⟨trigger, ms, m, ht, hv, rfl, fun b e he => hv.follows he, hentered, ?_, ?_⟩
  · rw [List.length_cons]
    omega
  · obtain ⟨p, q, -, -, hm, hb⟩ := hv
    exact endsBy_of_breaks hd ht hm hb

def onLine (n : Nat) : Element := ⟨[n], .empty ⟨n, 1⟩, .stmt, [.name "x" ⟨n, 1⟩], []⟩

/-- A call on line 3 with two ways to the same statement on line 6, from where it is made again. -/
def forked : Graph where
  entry := 0
  exit := 1
  blocks := [⟨0, .entry, []⟩, ⟨1, .exit, []⟩, ⟨2, .loopBody, [onLine 3]⟩, ⟨3, .yes, [onLine 4]⟩,
    ⟨4, .no, [onLine 5]⟩, ⟨5, .join, [onLine 6]⟩]
  unreachable := []
  edges := [⟨0, 2, .fallThrough⟩, ⟨2, 3, .branchTrue⟩, ⟨2, 4, .branchFalse⟩, ⟨3, 5, .fallThrough⟩,
    ⟨4, 5, .fallThrough⟩, ⟨5, 2, .backEdge⟩, ⟨5, 1, .ret⟩]

def settledOnFour : Obligation :=
  ⟨⟨2, 0⟩, fun e => if e.line == 4 then .satisfied else .pending, .satisfied, .violated,
    fun _ _ => false⟩

theorem coverage_witness_path_forked : forked.Distinct ∧
    settledOnFour.coverage forked = .violated [3, 5, 6, 3] .retrigger ∧
    ∃ ms m, settledOnFour.Violating forked ms m ∧ [3, 5, 6, 3] = 3 :: linesOf (ms ++ [m]) ∧
      m = .run ⟨2, 0⟩ (onLine 3) := by
  have hcoverage : settledOnFour.coverage forked = .violated [3, 5, 6, 3] .retrigger := by decide
  obtain ⟨trigger, ms, m, ht, hv, hlines, -, -, -, hends⟩ :=
    coverage_witness_path (by decide) hcoverage
  obtain rfl : onLine 3 = trigger := Option.some.inj ht
  refine ⟨by decide, hcoverage, ms, m, hv, hlines, ?_⟩
  cases hends with
  | retrigger _ => rfl

end Obligation

end JniContracts.Flow
