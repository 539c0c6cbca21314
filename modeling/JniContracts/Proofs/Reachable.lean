import JniContracts.Flow.Build
import JniContracts.Proofs.Gathering
import Mathlib.Data.List.Nodup
import Mathlib.Data.List.Range
import Mathlib.Data.List.Perm.Subperm
import Mathlib.Logic.Relation

/-!
The blocks that are kept are those that control can come to: the first block is among them, so is
every block to which an edge leads from one of them, and to each of them edges lead from the first
block.
-/

namespace JniContracts.Flow

variable {edges : List Edge} {count : Nat} {seen todo : List Nat}

def Reached (edges : List Edge) : Nat → Prop :=
  Relation.ReflTransGen (fun a b => ∃ e ∈ edges, e.source = a ∧ e.target = b) 0

/-- The search between two blocks: what it has seen is in range and can be reached, and apart from
the blocks it has still to take up it is closed under edges. -/
structure Searched (edges : List Edge) (count : Nat) (seen todo : List Nat) : Prop where
  nodup : seen.Nodup
  inRange : ∀ s ∈ seen, s < count
  reached : ∀ s ∈ seen, Reached edges s
  pending : todo ⊆ seen
  closed : ∀ s ∈ seen, s ∉ todo → ∀ e ∈ edges, e.source = s → e.target ∈ seen

theorem Searched.length_le (h : Searched edges count seen todo) : seen.length ≤ count := by
  have hsub : seen ⊆ List.range count := fun s hs => List.mem_range.mpr (h.inRange s hs)
  simpa using (h.nodup.subperm hsub).length_le

def freshFrom (edges : List Edge) (seen : List Nat) (id : Nat) : List Nat :=
  ((edges.filter fun e => e.source == id && !seen.contains e.target).map (·.target)).eraseDups

theorem mem_freshFrom {id t : Nat} :
    t ∈ freshFrom edges seen id ↔ t ∉ seen ∧ ∃ e ∈ edges, e.source = id ∧ e.target = t := by
  simp only [freshFrom, List.mem_eraseDups, List.mem_map, List.mem_filter, Bool.and_eq_true,
    beq_iff_eq, Bool.not_eq_true', List.contains_eq_mem, decide_eq_false_iff_not]
  constructor
  · rintro ⟨e, ⟨he, hs, hn⟩, rfl⟩
    exact ⟨hn, e, he, hs, rfl⟩
  · rintro ⟨hn, e, he, hs, rfl⟩
    exact ⟨e, ⟨he, hs, hn⟩, rfl⟩

theorem Searched.step {id : Nat} (ht : ∀ e ∈ edges, e.target < count)
    (h : Searched edges count seen (id :: todo)) :
    Searched edges count (seen ++ freshFrom edges seen id) (freshFrom edges seen id ++ todo) := by
  obtain ⟨hnodup, hrange, hreached, htodo, hclosed⟩ := h
  refine ⟨List.nodup_append.mpr ⟨hnodup, nodup_eraseDups _, ?_⟩, fun s hs => ?_, fun s hs => ?_, ?_,
    fun s hs hns e he hse => ?_⟩
  · rintro s hs t hf rfl
    exact (mem_freshFrom.mp hf).1 hs
  · rcases List.mem_append.mp hs with hs | hs
    · exact hrange s hs
    · obtain ⟨-, e, he, -, rfl⟩ := mem_freshFrom.mp hs
      exact ht e he
  · rcases List.mem_append.mp hs with hs | hs
    · exact hreached s hs
    · obtain ⟨-, e, he, hse, rfl⟩ := mem_freshFrom.mp hs
      exact (hreached id (htodo (List.mem_cons_self ..))).tail ⟨e, he, hse, rfl⟩
  · intro s hs
    rcases List.mem_append.mp hs with hs | hs
    · exact List.mem_append_right _ hs
    · exact List.mem_append_left _ (htodo (List.mem_cons_of_mem _ hs))
  · have hseen : s ∈ seen :=
      (List.mem_append.mp hs).resolve_right fun hf => hns (List.mem_append_left _ hf)
    by_cases hid : s = id
    · by_cases hin : e.target ∈ seen
      · exact List.mem_append_left _ hin
      · exact List.mem_append_right _ (mem_freshFrom.mpr ⟨hin, e, he, hse.trans hid, rfl⟩)
    · refine List.mem_append_left _ (hclosed s hseen (fun hm => ?_) e he hse)
      rcases List.mem_cons.mp hm with hm | hm
      · exact hid hm
      · exact hns (List.mem_append_right _ hm)

/-- With fuel for every block that is to be taken up, the search ends with nothing left to do. -/
theorem Searched.reachFor {fuel : Nat} (ht : ∀ e ∈ edges, e.target < count)
    (h : Searched edges count seen todo) (hf : todo.length + (count - seen.length) ≤ fuel) :
    Searched edges count (Flow.reachFor edges fuel seen todo) [] ∧
    seen ⊆ Flow.reachFor edges fuel seen todo := by
  induction fuel generalizing seen todo with
  | zero =>
    have hnil : todo = [] := List.length_eq_zero_iff.mp (by omega)
    subst hnil
    exact ⟨h, List.Subset.refl _⟩
  | succ fuel ih =>
    cases todo with
    | nil => exact ⟨h, List.Subset.refl _⟩
    | cons id todo =>
      have hstep := h.step ht
      have hlen := hstep.length_le
      simp only [List.length_append, List.length_cons] at hlen hf
      obtain ⟨hs, hsub⟩ := ih hstep (by simp only [List.length_append]; omega)
      exact ⟨hs, fun s hm => hsub (List.mem_append_left _ hm)⟩

theorem mem_reachable (hc : 0 < count) (ht : ∀ e ∈ edges, e.target < count) (s : Nat) :
    s ∈ reachable edges count ↔ Reached edges s := by
  have h₀ : Searched edges count [0] [0] := by
    refine ⟨by simp, by simpa using hc, ?_, List.Subset.refl _, by simp⟩
    intro s hs
    rw [List.mem_singleton.mp hs]
    exact .refl
  obtain ⟨h, hsub⟩ := h₀.reachFor ht (show 1 + (count - 1) ≤ count by omega)
  refine ⟨h.reached s, fun hr => ?_⟩
  induction hr with
  | refl => exact hsub (List.mem_singleton.mpr rfl)
  | tail _ he ih =>
    obtain ⟨e, he, rfl, rfl⟩ := he
    exact h.closed _ ih (by simp) e he rfl

theorem Reached.lt (hc : 0 < count)
    (ht : ∀ e ∈ edges, e.target < count) {s : Nat} (h : Reached edges s) : s < count := by
  rcases Relation.ReflTransGen.cases_tail h with rfl | ⟨-, -, e, he, -, rfl⟩
  · exact hc
  · exact ht e he

end JniContracts.Flow
