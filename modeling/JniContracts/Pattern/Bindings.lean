/-!
Bindings of metavariables to text. The entries stand in the order of the variables, so that equal
bindings are the same list.
-/

namespace JniContracts

structure Bindings where
  entries : List (String × String)
  ordered : entries.Pairwise fun a b => a.1 < b.1
  deriving DecidableEq, Repr

namespace Bindings

def empty : Bindings := ⟨[], .nil⟩

def get? (b : Bindings) (var : String) : Option String := b.entries.lookup var

def insertInto (var text : String) : List (String × String) → List (String × String)
  | [] => [(var, text)]
  | (v, t) :: rest =>
    if var < v then (var, text) :: (v, t) :: rest
    else if var == v then (v, text) :: rest
    else (v, t) :: insertInto var text rest

theorem mem_insertInto {v t : String} {e : String × String} {l : List (String × String)}
    (h : e ∈ insertInto v t l) : e.1 = v ∨ e ∈ l := by
  induction l with
  | nil => exact .inl (by simp_all [insertInto])
  | cons a l ih => grind [insertInto]

theorem pairwise_insertInto {l : List (String × String)} (h : l.Pairwise fun a b => a.1 < b.1)
    (v t : String) : (insertInto v t l).Pairwise fun a b => a.1 < b.1 := by
  induction l with
  | nil => simp [insertInto]
  | cons a l ih =>
    obtain ⟨w, s⟩ := a
    obtain ⟨hfirst, hrest⟩ := List.pairwise_cons.mp h
    rw [insertInto]
    split
    · rename_i hlt
      refine List.pairwise_cons.mpr ⟨fun e he => ?_, h⟩
      obtain rfl | he := List.mem_cons.mp he
      · exact hlt
      · exact String.lt_trans hlt (hfirst e he)
    · rename_i hle
      split
      · exact List.pairwise_cons.mpr ⟨hfirst, hrest⟩
      · rename_i hne
        refine List.pairwise_cons.mpr ⟨fun e he => ?_, ih hrest⟩
        obtain rfl | he := mem_insertInto he
        · exact Std.lt_of_le_of_ne (String.not_lt.mp hle) fun h => hne (beq_iff_eq.mpr h.symm)
        · exact hfirst e he

def insert (b : Bindings) (var text : String) : Bindings :=
  ⟨insertInto var text b.entries, pairwise_insertInto b.ordered var text⟩

def ofList (l : List (String × String)) : Bindings :=
  l.foldl (fun b (v, t) => b.insert v t) empty

def bind (b : Bindings) (var text : String) : Option Bindings :=
  match b.get? var with
  | none => some (b.insert var text)
  | some t => if t == text then some b else none

end Bindings

end JniContracts
