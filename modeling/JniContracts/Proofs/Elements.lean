import JniContracts.Code.Element
import Mathlib.Data.List.Basic

/-!
The elements of a statement are told apart by their keys: each part of a statement has an address of
its own, and all elements of the part lie under it.
-/

namespace JniContracts

namespace Element

def Under (addr : Address) (e : Element) : Prop := addr <+: e.address

theorem Under.up {addr : Address} {n : Nat} {e : Element} (h : e.Under (addr ++ [n])) :
    e.Under addr :=
  (List.prefix_append addr [n]).trans h

theorem key_ne_of_own {addr : Address} {n : Nat} {e e' : Element} (h : e.address = addr)
    (h' : e'.Under (addr ++ [n])) : e.key ≠ e'.key := by
  intro hk
  have ha : e.address = e'.address := congrArg Prod.fst hk
  have hlen := h'.length_le
  simp only [← ha, h, List.length_append, List.length_singleton] at hlen
  omega

/-- What lies under two parts of a statement lies under one. -/
theorem part_unique {addr a : Address} {m n : Nat} (h : addr ++ [m] <+: a)
    (h' : addr ++ [n] <+: a) : m = n := by
  have heq : addr ++ [m] = addr ++ [n] := by
    refine (List.prefix_of_prefix_length_le h h' ?_).eq_of_length ?_ <;> simp
  simpa using heq

theorem key_ne_of_parts {addr : Address} {m n : Nat} (hne : m ≠ n) {e e' : Element}
    (h : e.Under (addr ++ [m])) (h' : e'.Under (addr ++ [n])) : e.key ≠ e'.key := by
  intro hk
  have ha : e.address = e'.address := congrArg Prod.fst hk
  rw [Under, ha] at h
  exact hne (part_unique h h')

end Element

/-- Elements under an address, no two of which have the same key. -/
structure Keyed (addr : Address) (es : List Element) : Prop where
  under : ∀ e ∈ es, e.Under addr
  nodup : (es.map Element.key).Nodup

structure KeyedParts (addr : Address) (n : Nat) (es : List Element) : Prop where
  under : ∀ e ∈ es, ∃ m, n ≤ m ∧ e.Under (addr ++ [m])
  nodup : (es.map Element.key).Nodup

variable {addr : Address} {n : Nat} {es es' : List Element}

theorem Keyed.perm (h : Keyed addr es) (hp : es.Perm es') : Keyed addr es' :=
  ⟨fun e he => h.under e (hp.mem_iff.mpr he), (hp.map Element.key).nodup_iff.mp h.nodup⟩

theorem KeyedParts.nil : KeyedParts addr n [] := ⟨by simp, by simp⟩

theorem KeyedParts.keyed (h : KeyedParts addr n es) : Keyed addr es := by
  refine ⟨fun e he => ?_, h.nodup⟩
  obtain ⟨m, -, hm⟩ := h.under e he
  exact hm.up

theorem nodup_keys_append (h : (es.map Element.key).Nodup) (h' : (es'.map Element.key).Nodup)
    (hne : ∀ e ∈ es, ∀ e' ∈ es', e.key ≠ e'.key) : ((es ++ es').map Element.key).Nodup := by
  rw [List.map_append]
  refine List.nodup_append.mpr ⟨h, h', fun k hk k' hk' => ?_⟩
  obtain ⟨e, he, rfl⟩ := List.mem_map.mp hk
  obtain ⟨e', he', rfl⟩ := List.mem_map.mp hk'
  exact hne e he e' he'

theorem Keyed.append_parts (h : Keyed (addr ++ [n]) es) (h' : KeyedParts addr (n + 1) es') :
    KeyedParts addr n (es ++ es') := by
  refine ⟨fun e he => ?_, nodup_keys_append h.nodup h'.nodup fun e he e' he' => ?_⟩
  · rcases List.mem_append.mp he with he | he
    · exact ⟨n, Nat.le_refl _, h.under e he⟩
    · obtain ⟨m, hm, hu⟩ := h'.under e he
      exact ⟨m, by omega, hu⟩
  · obtain ⟨m, hm, hu⟩ := h'.under e' he'
    exact Element.key_ne_of_parts (by omega) (h.under e he) hu

theorem Keyed.part (h : Keyed (addr ++ [n]) es) : KeyedParts addr n es := by
  simpa using h.append_parts .nil

theorem KeyedParts.own_append (h : KeyedParts addr n es') (ho : ∀ e ∈ es, e.address = addr)
    (hn : (es.map Element.key).Nodup) : Keyed addr (es ++ es') := by
  refine ⟨fun e he => ?_, nodup_keys_append hn h.nodup fun e he e' he' => ?_⟩
  · rcases List.mem_append.mp he with he | he
    · exact ho e he ▸ List.prefix_refl _
    · exact h.keyed.under e he
  · obtain ⟨m, -, hu⟩ := h.under e' he'
    exact Element.key_ne_of_own (ho e he) hu

theorem KeyedParts.cons {e : Element} (h : KeyedParts addr n es) (he : e.address = addr) :
    Keyed addr (e :: es) :=
  h.own_append (fun e' he' => List.mem_singleton.mp he' ▸ he) (by simp)

theorem keyed_own {e : Element} (he : e.address = addr) : Keyed addr [e] :=
  (KeyedParts.nil (n := 0)).cons he

namespace Stmt

theorem keyed_forDo (up : List Stmt) (i : Option Simple) (c t : Option Expr) {b : Stmt} (p : Pos)
    (hb : Keyed (addr ++ [1]) (b.elementsIn (up ++ [forDo i c t b p]) (addr ++ [1]))) :
    Keyed addr ((forDo i c t b p).elementsIn up addr) := by
  rw [elementsIn]
  generalize forDo i c t b p = s at hb ⊢
  have hinit :
      Keyed (addr ++ [0])
        (i.toList.map fun x => ⟨addr ++ [0], simple x, .init, x.exprs, up ++ [s]⟩) := by
    cases i with
    | none => exact (KeyedParts.nil (n := 0)).keyed
    | some x => exact keyed_own rfl
  have hown : Keyed addr ((c.toList.map (fun x => ⟨addr, s, .cond, [x], up⟩) ++
      t.toList.map (fun x => ⟨addr, s, .step, [x], up⟩)) ++
      (i.toList.map (fun x => ⟨addr ++ [0], simple x, .init, x.exprs, up ++ [s]⟩) ++
        b.elementsIn (up ++ [s]) (addr ++ [1]))) := by
    refine (hinit.append_parts hb.part).own_append ?_ ?_
    · cases c <;> cases t <;> simp
    · cases c <;> cases t <;> simp [Element.key]
  refine hown.perm (List.perm_append_comm.trans ?_)
  simp only [List.append_assoc]
  exact (List.perm_append_comm_assoc ..).append_left _

mutual
/-- No two elements of a statement have the same key. -/
theorem keyed_elementsIn (up : List Stmt) (addr : Address) :
    ∀ s : Stmt, Keyed addr (s.elementsIn up addr)
  | block ss p => by
    rw [elementsIn]
    exact (keyed_elementsOfAll _ addr 0 ss).keyed
  | simple x => by
    rw [elementsIn]
    exact keyed_own rfl
  | ifElse c a b p => by
    rw [elementsIn]
    exact ((keyed_elementsIn _ (addr ++ [0]) a).append_parts (keyed_elementsOfElse _ addr b)).cons
      rfl
  | whileDo c b p => by
    rw [elementsIn]
    exact (keyed_elementsIn _ (addr ++ [0]) b).part.cons rfl
  | doWhile b c p => by
    rw [elementsIn]
    exact ((keyed_elementsIn _ (addr ++ [0]) b).part.cons rfl).perm
      (List.perm_append_singleton _ _).symm
  | forDo i c t b p => by
    exact keyed_forDo up i c t p (keyed_elementsIn _ (addr ++ [1]) b)
  | switch c b p => by
    rw [elementsIn]
    exact (keyed_elementsIn _ (addr ++ [0]) b).part.cons rfl
  | case v b p => by
    rw [elementsIn]
    exact (keyed_elementsIn _ (addr ++ [0]) b).part.keyed
  | label name b p => by
    rw [elementsIn]
    exact (keyed_elementsIn _ (addr ++ [0]) b).part.keyed
  | ret v p => by
    rw [elementsIn]
    exact keyed_own rfl
  | goto name p => by
    rw [elementsIn]
    exact keyed_own rfl
  | brk p => by
    rw [elementsIn]
    exact (KeyedParts.nil (n := 0)).keyed
  | cont p => by
    rw [elementsIn]
    exact (KeyedParts.nil (n := 0)).keyed
  | empty p => by
    rw [elementsIn]
    exact (KeyedParts.nil (n := 0)).keyed

theorem keyed_elementsOfAll (up : List Stmt) (addr : Address) :
    ∀ (n : Nat) (ss : List Stmt), KeyedParts addr n (elementsOfAll up addr n ss)
  | n, [] => by
    rw [elementsOfAll]
    exact .nil
  | n, s :: ss => by
    rw [elementsOfAll]
    exact (keyed_elementsIn up (addr ++ [n]) s).append_parts
      (keyed_elementsOfAll up addr (n + 1) ss)

theorem keyed_elementsOfElse (up : List Stmt) (addr : Address) :
    ∀ s : Option Stmt, KeyedParts addr 1 (elementsOfElse up (addr ++ [1]) s)
  | none => by
    rw [elementsOfElse]
    exact .nil
  | some s => by
    rw [elementsOfElse]
    exact (keyed_elementsIn up (addr ++ [1]) s).part
end

end Stmt

end JniContracts
