import JniContracts.Flow.Graph
import Mathlib.Data.List.Nodup

/-!
Edges block by block. A block has the list of the edges out of it and that of the edges into it. An
edge that is linked goes into both, and when blocks are cut off the edges out of them are taken from
the lists of the blocks that they lead to. So both lists can be told from the edges in the order in
which they were linked.
-/

namespace JniContracts.Flow

structure Links where
  out : Nat → List Edge
  into : Nat → List Edge

namespace Links

variable {es : List Edge} {dropped : List Nat}

def empty : Links := ⟨fun _ => [], fun _ => []⟩

def link (l : Links) (e : Edge) : Links where
  out id := if e.source == id then l.out id ++ [e] else l.out id
  into id := if e.target == id then l.into id ++ [e] else l.into id

def ofEdges (es : List Edge) : Links := es.foldl link empty

/-- Takes an edge from the list of the block that it leads to, if it is there. -/
def forget (l : Links) (e : Edge) : Links where
  out := l.out
  into id := if e.target == id then (l.into id).erase e else l.into id

def forgetAll (l : Links) (es : List Edge) : Links := es.foldl forget l

/-- Dropped blocks lose their edges, first on the other side, then their own. -/
def cut (l : Links) (dropped : List Nat) : Links :=
  let l := dropped.foldl (fun l id => l.forgetAll (l.out id)) l
  ⟨fun id => if dropped.contains id then [] else l.out id,
    fun id => if dropped.contains id then [] else l.into id⟩

theorem foldl_link (l : Links) (es : List Edge) (id : Nat) :
    (es.foldl link l).out id = l.out id ++ es.filter (·.source == id) ∧
      (es.foldl link l).into id = l.into id ++ es.filter (·.target == id) := by
  induction es generalizing l with
  | nil => simp
  | cons e es ih =>
    rw [List.foldl_cons, (ih (l.link e)).1, (ih (l.link e)).2]
    by_cases hs : e.source = id <;> by_cases ht : e.target = id <;> simp [link, hs, ht]

theorem out_ofEdges (es : List Edge) (id : Nat) :
    (ofEdges es).out id = es.filter (·.source == id) :=
  (foldl_link empty es id).1

theorem into_ofEdges (es : List Edge) (id : Nat) :
    (ofEdges es).into id = es.filter (·.target == id) :=
  (foldl_link empty es id).2

theorem out_forgetAll (l : Links) (es : List Edge) : (l.forgetAll es).out = l.out := by
  induction es generalizing l with
  | nil => rfl
  | cons e es ih => exact ih (l.forget e)

theorem into_forget (l : Links) (e : Edge) (id : Nat) : (l.forget e).into id =
    if e.target == id then (l.into id).erase e else l.into id := rfl

theorem into_forgetAll (l : Links) (es : List Edge) (id : Nat) :
    (l.forgetAll es).into id = (l.into id).diff (es.filter (·.target == id)) := by
  induction es generalizing l with
  | nil => rfl
  | cons e es ih =>
    have hstep : l.forgetAll (e :: es) = (l.forget e).forgetAll es := rfl
    rw [hstep, ih, List.filter_cons, into_forget]
    split
    · rw [List.diff_cons]
    · rfl

/-- One dropped block after the other: the edges out of them are forgotten. -/
theorem foldl_forgetAll (l : Links) (dropped : List Nat) :
    dropped.foldl (fun l id => l.forgetAll (l.out id)) l = l.forgetAll (dropped.flatMap l.out) := by
  induction dropped generalizing l with
  | nil => rfl
  | cons id dropped ih =>
    rw [List.foldl_cons, ih, out_forgetAll, List.flatMap_cons, forgetAll, forgetAll, forgetAll,
      List.foldl_append]

theorem out_cut (l : Links) (dropped : List Nat) (id : Nat) :
    (l.cut dropped).out id = if dropped.contains id then [] else l.out id := by
  simp only [cut, foldl_forgetAll, out_forgetAll]

theorem into_cut (l : Links) (dropped : List Nat) (id : Nat) : (l.cut dropped).into id =
    if dropped.contains id then []
    else (l.into id).diff ((dropped.flatMap l.out).filter (·.target == id)) := by
  simp only [cut, foldl_forgetAll, into_forgetAll]

theorem out_cut_ofEdges (es : List Edge) (dropped : List Nat) (id : Nat) :
    ((ofEdges es).cut dropped).out id =
      es.filter fun e => e.source == id && !dropped.contains e.source := by
  rw [out_cut, out_ofEdges]
  split
  · refine (List.filter_eq_nil_iff.mpr fun e _ he => ?_).symm
    grind
  · refine List.filter_congr fun e _ => ?_
    by_cases he : e.source = id <;> simp_all

/-- What is left to lead into a block are the edges from blocks that are not dropped. -/
theorem into_cut_ofEdges (hes : es.Nodup) (dropped : List Nat) (id : Nat) :
    ((ofEdges es).cut dropped).into id = es.filter fun e =>
      e.target == id && !dropped.contains e.source && !dropped.contains e.target := by
  have hgone (e : Edge) (he : e ∈ es) (ht : e.target = id) :
      e ∈ (dropped.flatMap (ofEdges es).out).filter (·.target == id) ↔ e.source ∈ dropped := by
    simp [out_ofEdges, ht, he, List.mem_flatMap]
  rw [into_cut, into_ofEdges]
  split
  · refine (List.filter_eq_nil_iff.mpr fun e _ he => ?_).symm
    grind
  · rw [(hes.filter _).sdiff_eq_filter, List.filter_filter]
    refine List.filter_congr fun e he => ?_
    by_cases ht : e.target = id
    · have hiff := hgone e he ht
      simp_all
    · grind

end Links

end JniContracts.Flow
