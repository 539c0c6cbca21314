import JniContracts.Flow.Graph
import Mathlib.Data.List.Nodup

/-!
Walks through a control-flow graph. A walk runs the elements of a block one after the other and
leaves the block along an edge; the position behind the last element is where the edges start.
-/

namespace JniContracts.Flow

inductive Move where
  | run (place : Position) (e : Element)
  | take (b : Block) (e : Edge)

namespace Move

def element? : Move → Option Element
  | run _ e => some e
  | take .. => none

def entered? : Move → Option Nat
  | run .. => none
  | take _ e => some e.target

end Move

namespace Graph

variable {g : Graph}

inductive Moves (g : Graph) : Position → Move → Position → Prop where
  | run {b : Block} {i : Nat} {e : Element} (hb : b ∈ g.blocks) (he : b.elements[i]? = some e) :
      Moves g ⟨b.id, i⟩ (.run ⟨b.id, i⟩ e) ⟨b.id, i + 1⟩
  | take {b : Block} {e : Edge} (hb : b ∈ g.blocks) (he : e ∈ g.successors b.id) :
      Moves g ⟨b.id, b.elements.length⟩ (.take b e) ⟨e.target, 0⟩

inductive Walk (g : Graph) : Position → List Move → Position → Prop where
  | refl (p : Position) : Walk g p [] p
  | step {p q r : Position} {m : Move} {ms : List Move} :
      Moves g p m q → Walk g q ms r → Walk g p (m :: ms) r

theorem Moves.walk {p q : Position} {m : Move} (h : g.Moves p m q) : g.Walk p [m] q :=
  .step h (.refl q)

theorem Walk.append {p q r : Position} {ms ns : List Move}
    (h : g.Walk p ms q) (h' : g.Walk q ns r) : g.Walk p (ms ++ ns) r := by
  induction h with
  | refl p => exact h'
  | step hm _ ih => exact .step hm (ih h')

theorem Walk.snoc {p q r : Position} {ms : List Move} {m : Move}
    (h : g.Walk p ms q) (hm : g.Moves q m r) : g.Walk p (ms ++ [m]) r := h.append hm.walk

theorem Walk.split {p r : Position} {ms ns : List Move} (h : g.Walk p (ms ++ ns) r) :
    ∃ q, g.Walk p ms q ∧ g.Walk q ns r := by
  induction ms generalizing p with
  | nil => exact ⟨p, .refl p, h⟩
  | cons m ms ih =>
    cases h with
    | step hm h =>
      obtain ⟨q, h₁, h₂⟩ := ih h
      exact ⟨q, .step hm h₁, h₂⟩

theorem walk_run {b : Block} (hb : b ∈ g.blocks) (i : Nat) (es : List Element)
    (he : es <+: b.elements.drop i) :
    ∃ ms, g.Walk ⟨b.id, i⟩ ms ⟨b.id, i + es.length⟩ ∧ ms.filterMap Move.element? = es ∧ ∀ m ∈ ms,
    ∃ j e, i ≤ j ∧ j < i + es.length ∧ m = .run ⟨b.id, j⟩ e ∧ b.elements[j]? = some e := by
  induction es generalizing i with
  | nil => exact ⟨[], .refl _, rfl, by simp⟩
  | cons e es ih =>
    obtain ⟨rest, hrest⟩ := he
    have he : b.elements[i]? = some e := by
      have h := congrArg (fun l => l[0]?) hrest
      simpa using h.symm
    have hd : es <+: b.elements.drop (i + 1) := by
      refine ⟨rest, ?_⟩
      have h := congrArg List.tail hrest
      simpa using h
    obtain ⟨ms, hw, hes, hall⟩ := ih (i + 1) hd
    have hlen : i + (e :: es).length = i + 1 + es.length := by
      rw [List.length_cons]
      omega
    refine ⟨.run ⟨b.id, i⟩ e :: ms, .step (.run hb he) (hlen ▸ hw), ?_, ?_⟩
    · simp [Move.element?, hes]
    · intro m hm
      rcases List.mem_cons.mp hm with rfl | hm
      · exact ⟨i, e, Nat.le_refl i, by omega, rfl, he⟩
      · obtain ⟨j, x, hj, hlt, rfl, hx⟩ := hall m hm
        exact ⟨j, x, by omega, by omega, rfl, hx⟩

theorem mem_of_block? {id : Nat} {b : Block} (h : g.block? id = some b) :
    b ∈ g.blocks ∧ b.id = id :=
  ⟨List.mem_of_find?_eq_some h, by simpa using List.find?_some h⟩

theorem block?_eq_none {id : Nat} : g.block? id = none ↔ ∀ b ∈ g.blocks, b.id ≠ id := by
  simp [block?]

def Distinct (g : Graph) : Prop := (g.blocks.map Block.id).Nodup

instance (g : Graph) : Decidable g.Distinct := inferInstanceAs (Decidable (List.Nodup _))

theorem Distinct.eq_of_id (hd : g.Distinct) {a b : Block} (ha : a ∈ g.blocks)
    (hb : b ∈ g.blocks) (h : a.id = b.id) : a = b :=
  List.inj_on_of_nodup_map hd ha hb h

theorem Distinct.block? {g : Graph} (hd : g.Distinct) {b : Block} (hb : b ∈ g.blocks) :
    g.block? b.id = some b := by
  cases h : g.block? b.id with
  | none => exact absurd rfl (block?_eq_none.mp h b hb)
  | some a =>
    obtain ⟨ha, hid⟩ := mem_of_block? h
    rw [hd.eq_of_id ha hb hid]

end Graph

end JniContracts.Flow
