import JniContracts.Json.Canonical
import Mathlib.Data.List.Nodup

/-!
JSON values up to the order of keys. Two values that differ only in the order in which their objects
have their members are written alike, and every value has a form whose keys stand in order.
-/

namespace JniContracts.Json

/-- Values without floats whose objects have each key once. -/
inductive Plain : Json → Prop
  | null : Plain .null
  | bool (b : Bool) : Plain (.bool b)
  | int (n : Int) : Plain (.int n)
  | str (s : String) : Plain (.str s)
  | arr {items : List Json} (each : ∀ v ∈ items, Plain v) : Plain (.arr items)
  | obj {members : List (String × Json)} (distinct : (members.map Prod.fst).Nodup)
      (each : ∀ m ∈ members, Plain m.2) : Plain (.obj members)

/-- Values that differ only in the order of members, at any depth. -/
inductive Reordered : Json → Json → Prop
  | refl (v : Json) : Reordered v v
  | trans {u v w : Json} (first : Reordered u v) (second : Reordered v w) : Reordered u w
  | item {v w : Json} (before after : List Json) (inside : Reordered v w) :
      Reordered (.arr (before ++ v :: after)) (.arr (before ++ w :: after))
  | member {v w : Json} (key : String) (before after : List (String × Json))
      (inside : Reordered v w) :
      Reordered (.obj (before ++ (key, v) :: after)) (.obj (before ++ (key, w) :: after))
  | members {l l' : List (String × Json)} (perm : l.Perm l') : Reordered (.obj l) (.obj l')

section Keys

variable {α β : Type} {l l' : List (String × α)}

def sortKeys (l : List (String × α)) : List (String × α) :=
  l.mergeSort fun a b => decide (a.1 ≤ b.1)

theorem sortKeys_perm (l : List (String × α)) : (sortKeys l).Perm l := List.mergeSort_perm l _

theorem pairwise_sortKeys (l : List (String × α)) : (sortKeys l).Pairwise fun a b => a.1 ≤ b.1 := by
  have htrans : ∀ a b c : String × α, decide (a.1 ≤ b.1) = true → decide (b.1 ≤ c.1) = true →
      decide (a.1 ≤ c.1) = true := by
    intro a b c hab hbc
    exact decide_eq_true (String.le_trans (of_decide_eq_true hab) (of_decide_eq_true hbc))
  have htotal : ∀ a b : String × α, (decide (a.1 ≤ b.1) || decide (b.1 ≤ a.1)) = true := by
    intro a b
    simpa using String.le_total a.1 b.1
  exact (List.pairwise_mergeSort htrans htotal l).imp of_decide_eq_true

/-- What the keys have does not matter to their order. -/
theorem sortKeys_map (f : α → β) (l : List (String × α)) :
    sortKeys (l.map fun m => (m.1, f m.2)) = (sortKeys l).map fun m => (m.1, f m.2) := by
  symm
  apply List.map_mergeSort
  intro a _ b _
  rfl

theorem nodup_sortKeys (h : (l.map Prod.fst).Nodup) : ((sortKeys l).map Prod.fst).Nodup :=
  ((sortKeys_perm l).map Prod.fst).nodup_iff.mpr h

/-- Members with distinct keys have one order. -/
theorem sortKeys_congr (h : l.Perm l') (distinct : (l.map Prod.fst).Nodup) :
    sortKeys l = sortKeys l' := by
  refine List.Perm.eq_of_pairwise (fun a b ha hb hab hba => ?_) (pairwise_sortKeys l)
    (pairwise_sortKeys l') ((sortKeys_perm l).trans (h.trans (sortKeys_perm l').symm))
  have ha : a ∈ l := (sortKeys_perm l).mem_iff.mp ha
  have hb : b ∈ l := h.mem_iff.mpr ((sortKeys_perm l').mem_iff.mp hb)
  exact List.inj_on_of_nodup_map distinct ha hb (String.le_antisymm hab hba)

end Keys

mutual
def sorted : Json → Json
  | .arr items => .arr (sortedItems items)
  | .obj members => .obj (sortKeys (sortedMembers members))
  | v => v

def sortedItems : List Json → List Json
  | [] => []
  | v :: vs => sorted v :: sortedItems vs

def sortedMembers : List (String × Json) → List (String × Json)
  | [] => []
  | (k, v) :: ms => (k, sorted v) :: sortedMembers ms
end

theorem sorted_arr (items : List Json) : sorted (.arr items) = .arr (items.map sorted) := by
  rw [sorted, Json.arr.injEq]
  induction items with
  | nil => rfl
  | cons v vs ih => rw [sortedItems, ih, List.map_cons]

theorem sorted_obj (members : List (String × Json)) :
    sorted (.obj members) = .obj (sortKeys (members.map fun m => (m.1, sorted m.2))) := by
  have h : sortedMembers members = members.map fun m => (m.1, sorted m.2) := by
    induction members with
    | nil => rfl
    | cons m ms ih => rw [sortedMembers, ih, List.map_cons]
  rw [sorted, h]

namespace Reordered

theorem symm {v w : Json} (h : Reordered v w) : Reordered w v := by
  induction h with
  | refl v => exact .refl v
  | trans _ _ ih ih' => exact .trans ih' ih
  | item before after _ ih => exact .item before after ih
  | member key before after _ ih => exact .member key before after ih
  | members perm => exact .members perm.symm

theorem items {f : Json → Json} {l : List Json} (h : ∀ v ∈ l, Reordered v (f v))
    (before : List Json) : Reordered (.arr (before ++ l)) (.arr (before ++ l.map f)) := by
  induction l generalizing before with
  | nil => exact .refl _
  | cons v vs ih =>
    have hrest := ih (fun w hw => h w (List.mem_cons_of_mem v hw)) (before ++ [f v])
    rw [List.append_assoc, List.append_assoc] at hrest
    exact .trans (.item before vs (h v List.mem_cons_self)) hrest

theorem values {f : Json → Json} {l : List (String × Json)} (h : ∀ m ∈ l, Reordered m.2 (f m.2))
    (before : List (String × Json)) :
    Reordered (.obj (before ++ l)) (.obj (before ++ l.map fun m => (m.1, f m.2))) := by
  induction l generalizing before with
  | nil => exact .refl _
  | cons m ms ih =>
    have hrest := ih (fun m' hm => h m' (List.mem_cons_of_mem m hm)) (before ++ [(m.1, f m.2)])
    rw [List.append_assoc, List.append_assoc] at hrest
    exact .trans (.member m.1 before ms (h m List.mem_cons_self)) hrest

theorem plain {v w : Json} (h : Reordered v w) (hv : v.Plain) : w.Plain := by
  induction h with
  | refl v => exact hv
  | trans _ _ ih ih' => exact ih' (ih hv)
  | item before after _ ih =>
    cases hv with | arr each =>
    simp only [List.forall_mem_append, List.forall_mem_cons] at each
    refine .arr ?_
    simp only [List.forall_mem_append, List.forall_mem_cons]
    exact ⟨each.1, ih each.2.1, each.2.2⟩
  | member key before after _ ih =>
    cases hv with | obj distinct each =>
    simp only [List.forall_mem_append, List.forall_mem_cons] at each
    refine .obj (by simpa using distinct) ?_
    simp only [List.forall_mem_append, List.forall_mem_cons]
    exact ⟨each.1, ih each.2.1, each.2.2⟩
  | members perm =>
    cases hv with | obj distinct each =>
    exact .obj ((perm.map Prod.fst).nodup_iff.mp distinct) fun m hm => each m (perm.mem_iff.mpr hm)

end Reordered

theorem Plain.reordered_sorted {v : Json} (h : v.Plain) : Reordered v v.sorted := by
  induction h with
  | null | bool | int | str => exact .refl _
  | arr _ ih =>
    rw [sorted_arr]
    exact .items ih []
  | obj _ _ ih =>
    rw [sorted_obj]
    exact .trans (.values ih []) (.members (sortKeys_perm _).symm)

namespace Canonical

theorem write_arr (level : Nat) (items : List Json) :
    write level (.arr items) = enclose level '[' ']' (items.map (write (level + 1))) := by
  have h : writeItems (level + 1) items = items.map (write (level + 1)) := by
    induction items with
    | nil => rfl
    | cons v vs ih => rw [writeItems, ih, List.map_cons]
  exact congrArg (enclose level '[' ']') h

theorem write_obj (level : Nat) (members : List (String × Json)) :
    write level (.obj members) =
    enclose level '{' '}' ((sortKeys (members.map fun m => (m.1, write (level + 1) m.2))).map
      fun m => quoted m.1 ++ [':', ' '] ++ m.2) := by
  have h :
      writeMembers (level + 1) members = members.map fun m => (m.1, write (level + 1) m.2) := by
    induction members with
    | nil => rfl
    | cons m ms ih => rw [writeMembers, ih, List.map_cons]
  rw [← h]
  rfl

theorem write_congr {v w : Json} (h : Reordered v w) (hv : v.Plain) (level : Nat) :
    write level v = write level w := by
  induction h generalizing level with
  | refl v => rfl
  | trans first _ ih ih' => exact (ih hv level).trans (ih' (first.plain hv) level)
  | item before after _ ih =>
    cases hv with | arr each =>
    simp only [write_arr, List.map_append, List.map_cons, ih (each _ (by simp))]
  | member key before after _ ih =>
    cases hv with | obj distinct each =>
    simp only [write_obj, List.map_append, List.map_cons, ih (each (key, _) (by simp))]
  | members perm =>
    cases hv with | obj distinct each =>
    rw [write_obj, write_obj,
      sortKeys_congr (perm.map _) (by simpa [Function.comp_def] using distinct)]

end Canonical

end JniContracts.Json
