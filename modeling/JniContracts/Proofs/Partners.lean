import JniContracts.Parse.State
import Mathlib.Data.List.Pairwise

/-!
The table of brackets. Every bracket has a partner of its own kind and nothing else has one; of two
pairs, one lies within the other or wholly behind it.
-/

namespace JniContracts

namespace Brackets

variable {ps : List (Nat × Nat)} {ts : List Token} {a : Array (Option Nat)}
  {waiting : List (Nat × Token)}

def Follows (p q : Nat × Nat) : Prop := p.2 < q.2 ∧ (q.1 < p.1 ∨ p.2 < q.1)

/-- The token at a place, when `ts` are those from place `i` on and `waiting` are open brackets
before. -/
def Stands (i : Nat) (waiting : List (Nat × Token)) (ts : List Token) (k : Nat) (t : Token) :
    Prop :=
  (k, t) ∈ waiting ∨ i ≤ k ∧ ts[k - i]? = some t

/-- What the pairs found from a place on have to do with the tokens there. -/
structure Pairing (i : Nat) (waiting : List (Nat × Token)) (ts : List Token)
  (ps : List (Nat × Nat)) : Prop where
  follows : ps.Pairwise Follows
  ordered : ∀ p ∈ ps, p.1 < p.2
  range : ∀ p ∈ ps, i ≤ p.2 ∧ p.2 < i + ts.length
  kind : ∀ p ∈ ps, ∃ o t, Stands i waiting ts p.1 o ∧ ts[p.2 - i]? = some t ∧
    closer? o = some t.text ∧ isCloser t = true
  openers : ∀ k t, Stands i waiting ts k t → (closer? t).isSome → ∃ j, (k, j) ∈ ps
  closers : ∀ k t, ts[k]? = some t → isCloser t = true → ∃ j, (j, i + k) ∈ ps

theorem closer?_eq_some {t : Token} {x : String} : closer? t = some x ↔ t.kind = .punct ∧
    (t.text = "(" ∧ x = ")" ∨ t.text = "[" ∧ x = "]" ∨ t.text = "\x7b" ∧ x = "\x7d") := by
  simp only [closer?, bne_iff_ne, ne_eq, ite_not, beq_iff_eq]
  by_cases hk : t.kind = .punct
  · by_cases h₁ : t.text = "("
    · simp [hk, h₁, eq_comm]
    · by_cases h₂ : t.text = "["
      · simp [hk, h₂, eq_comm]
      · by_cases h₃ : t.text = "\x7b"
        · simp [hk, h₃, eq_comm]
        · simp [hk, h₁, h₂, h₃]
  · simp [hk]

theorem isSome_closer? {t : Token} : (closer? t).isSome = t.isPunctOf ["(", "[", "\x7b"] := by
  rw [Bool.eq_iff_iff, Option.isSome_iff_exists]
  simp only [closer?_eq_some, Token.isPunctOf, Bool.and_eq_true, beq_iff_eq, List.contains_iff_mem,
    List.mem_cons, List.not_mem_nil, or_false]
  constructor
  · rintro ⟨x, hk, ⟨h, -⟩ | ⟨h, -⟩ | ⟨h, -⟩⟩ <;> simp [hk, h]
  · rintro ⟨hk, h | h | h⟩
    · exact ⟨_, hk, .inl ⟨h, rfl⟩⟩
    · exact ⟨_, hk, .inr (.inl ⟨h, rfl⟩)⟩
    · exact ⟨_, hk, .inr (.inr ⟨h, rfl⟩)⟩

theorem not_isCloser_of_closer? {t : Token} (h : (closer? t).isSome) : isCloser t = false := by
  obtain ⟨x, hx⟩ := Option.isSome_iff_exists.mp h
  obtain ⟨-, ⟨h, -⟩ | ⟨h, -⟩ | ⟨h, -⟩⟩ := closer?_eq_some.mp hx <;>
    simp [isCloser, Token.isPunctOf, h]

theorem isSome_closer?_of_isCloser {t : Token} (h : isCloser t = true) :
    (closer? t).isSome = false := by
  by_contra hopen
  rw [not_isCloser_of_closer? (Bool.not_eq_false _ ▸ hopen)] at h
  cases h

section Steps

variable {i : Nat} {waiting outer : List (Nat × Token)} {t o : Token} {ts : List Token}
  {ps : List (Nat × Nat)}

theorem getElem?_cons_sub {k : Nat} (h : i + 1 ≤ k) : (t :: ts)[k - i]? = ts[k - (i + 1)]? := by
  obtain ⟨m, rfl⟩ := Nat.exists_eq_add_of_le h
  have hm : i + 1 + m - i = m + 1 := by omega
  simp [hm]

theorem Stands.cons {k : Nat} {u : Token} (h : Stands (i + 1) waiting ts k u) :
    Stands i waiting (t :: ts) k u := by
  rcases h with h | ⟨hk, h⟩
  · exact .inl h
  · exact .inr ⟨by omega, by rwa [getElem?_cons_sub hk]⟩

theorem stands_cons {k : Nat} {u : Token} :
    Stands i waiting (t :: ts) k u ↔ Stands (i + 1) waiting ts k u ∨ k = i ∧ u = t := by
  constructor
  · rintro (h | ⟨hk, h⟩)
    · exact .inl (.inl h)
    · rcases Nat.eq_or_lt_of_le hk with rfl | hlt
      · simp only [Nat.sub_self, List.getElem?_cons_zero, Option.some.injEq] at h
        exact .inr ⟨rfl, h.symm⟩
      · exact .inl (.inr ⟨hlt, by rwa [getElem?_cons_sub hlt] at h⟩)
  · rintro (h | ⟨rfl, rfl⟩)
    · exact h.cons
    · exact .inr ⟨Nat.le_refl _, by simp⟩

theorem stands_push {k : Nat} {u : Token} :
    Stands (i + 1) ((i, t) :: waiting) ts k u ↔ Stands i waiting (t :: ts) k u := by
  rw [stands_cons]
  simp only [Stands, List.mem_cons, Prod.mk.injEq]
  exact or_assoc.trans or_comm

theorem Pairing.behind (h : Pairing (i + 1) outer ts ps) (hs : ∀ k u, (closer? u).isSome →
      (Stands i waiting (t :: ts) k u ↔ Stands (i + 1) outer ts k u)) (ht : isCloser t = false) :
    Pairing i waiting (t :: ts) ps where
  follows := h.follows
  ordered := h.ordered
  range p hp := by
    have := h.range p hp
    simp only [List.length_cons]
    omega
  kind p hp := by
    obtain ⟨o, u, ho, hu, hk, hc⟩ := h.kind p hp
    have hr := h.range p hp
    refine ⟨o, u, (hs _ _ (by simp [hk])).mpr ho, ?_, hk, hc⟩
    rwa [getElem?_cons_sub hr.1]
  openers k u hk hu := h.openers k u ((hs k u hu).mp hk) hu
  closers k u hk hu := by
    cases k with
    | zero =>
      simp only [List.getElem?_cons_zero, Option.some.injEq] at hk
      rw [← hk, ht] at hu
      cases hu
    | succ k =>
      simp only [List.getElem?_cons_succ] at hk
      obtain ⟨j, hj⟩ := h.closers k u hk hu
      exact ⟨j, by rwa [Nat.add_right_comm, Nat.add_assoc] at hj⟩

theorem Pairing.close {j : Nat} (h : Pairing (i + 1) outer ts ps) (hj : j < i)
    (ho : closer? o = some t.text) (ht : isCloser t = true) (hout : ∀ w ∈ outer, w.1 < j)
    (hstart : ∀ p ∈ ps, p.1 ∈ outer.map (·.1) ∨ i < p.1) :
    Pairing i ((j, o) :: outer) (t :: ts) ((j, i) :: ps) where
  follows := by
    refine List.pairwise_cons.mpr ⟨fun p hp => ⟨(h.range p hp).1, ?_⟩, h.follows⟩
    rcases hstart p hp with hp' | hp'
    · obtain ⟨w, hw, hwp⟩ := List.mem_map.mp hp'
      exact .inl (hwp ▸ hout w hw)
    · exact .inr hp'
  ordered p hp := by
    rcases List.mem_cons.mp hp with rfl | hp
    · exact hj
    · exact h.ordered p hp
  range p hp := by
    simp only [List.length_cons]
    rcases List.mem_cons.mp hp with rfl | hp
    · simp only
      omega
    · have := h.range p hp
      omega
  kind p hp := by
    rcases List.mem_cons.mp hp with rfl | hp
    · exact ⟨o, t, .inl (by simp), by simp, ho, ht⟩
    · obtain ⟨o', u, ho', hu, hk, hc⟩ := h.kind p hp
      refine ⟨o', u, ?_, ?_, hk, hc⟩
      · rcases ho' with ho' | ho'
        · exact .inl (List.mem_cons_of_mem _ ho')
        · exact Stands.cons (.inr ho')
      · rwa [getElem?_cons_sub (h.range p hp).1]
  openers k u hk hu := by
    rcases stands_cons.mp hk with hk | ⟨rfl, rfl⟩
    · rcases hk with hk | hk
      · rcases List.mem_cons.mp hk with hk | hk
        · cases hk
          exact ⟨i, List.mem_cons_self⟩
        · obtain ⟨b, hb⟩ := h.openers k u (.inl hk) hu
          exact ⟨b, List.mem_cons_of_mem _ hb⟩
      · obtain ⟨b, hb⟩ := h.openers k u (.inr hk) hu
        exact ⟨b, List.mem_cons_of_mem _ hb⟩
    · rw [not_isCloser_of_closer? hu] at ht
      cases ht
  closers k u hk hu := by
    cases k with
    | zero => exact ⟨j, List.mem_cons_self⟩
    | succ k =>
      simp only [List.getElem?_cons_succ] at hk
      obtain ⟨b, hb⟩ := h.closers k u hk hu
      exact ⟨b, List.mem_cons_of_mem _ (by rwa [Nat.add_right_comm, Nat.add_assoc] at hb)⟩

end Steps

theorem start_of_pairs {i : Nat} (h : Pairing i waiting ts ps) :
    ∀ p ∈ ps, p.1 ∈ waiting.map (·.1) ∨ i ≤ p.1 := by
  intro p hp
  obtain ⟨o, _, ho, -⟩ := h.kind p hp
  rcases ho with ho | ⟨ho, -⟩
  · exact .inl (List.mem_map_of_mem ho)
  · exact .inr ho

/-- The search for pairs finds a pairing of what waits and what comes. -/
theorem pairing_of_pairs {i : Nat} (h : pairs i waiting ts = .ok ps)
    (hsorted : (waiting.map (·.1)).Pairwise (· > ·)) (hlt : ∀ w ∈ waiting, w.1 < i)
    (hopen : ∀ w ∈ waiting, (closer? w.2).isSome) : Pairing i waiting ts ps := by
  induction ts generalizing i waiting ps with
  | nil =>
    cases waiting with
    | nil =>
      cases h
      constructor <;> simp [Stands]
    | cons w waiting => cases h
  | cons t ts ih =>
    have hlt' : ∀ w ∈ waiting, w.1 < i + 1 := fun w hw => Nat.lt_succ_of_lt (hlt w hw)
    rw [pairs.eq_def] at h
    simp only at h
    split at h
    · rename_i hsome
      refine (ih h ?_ ?_ ?_).behind (fun k u _ => stands_push.symm) (not_isCloser_of_closer? hsome)
      · simpa using ⟨fun a b hb => hlt (a, b) hb, hsorted⟩
      · simpa using fun a b hb => hlt' (a, b) hb
      · simpa using ⟨hsome, fun a b hb => hopen (a, b) hb⟩
    · rename_i hnone
      split at h
      · rename_i hcloser
        cases waiting with
        | nil => cases h
        | cons w outer =>
          obtain ⟨j, o⟩ := w
          simp only [List.map_cons, List.pairwise_cons, List.mem_map, forall_exists_index, and_imp,
            forall_apply_eq_imp_iff₂] at hsorted
          simp only at h
          split at h
          · rename_i hkind
            cases hrest : pairs (i + 1) outer ts with
            | error e =>
              rw [hrest] at h
              cases h
            | ok rest =>
              rw [hrest] at h
              cases h
              have hp := ih hrest hsorted.2 (fun w hw => hlt' w (List.mem_cons_of_mem _ hw))
                fun w hw => hopen w (List.mem_cons_of_mem _ hw)
              exact hp.close (hlt (j, o) List.mem_cons_self) (by simpa using hkind) hcloser
                (fun w hw => hsorted.1 w hw) (start_of_pairs hp)
          · cases h
      · rename_i hcloser
        refine (ih h hsorted hlt' hopen).behind (fun k u hu => ?_) (by simpa using hcloser)
        rw [stands_cons]
        refine or_iff_left ?_
        rintro ⟨-, rfl⟩
        exact hnone hu

section Whole

variable {tokens : List Token} {ps : List (Nat × Nat)}

/-- Of two pairs one follows the other. -/
theorem Pairing.related (h : Pairing 0 [] tokens ps) :
    ∀ p ∈ ps, ∀ q ∈ ps, p = q ∨ Follows p q ∨ Follows q p :=
  fun _ hp _ hq => List.Pairwise.forall_of_forall_of_flip
    (R := fun p q => p = q ∨ Follows p q ∨ Follows q p) (fun _ _ => .inl rfl)
    (h.follows.imp fun h => .inr (.inl h)) (h.follows.imp fun h => .inr (.inr h)) hp hq

theorem Pairing.ends (h : Pairing 0 [] tokens ps) {i j : Nat} (hp : (i, j) ∈ ps) :
    ∃ o e, tokens[i]? = some o ∧ tokens[j]? = some e ∧ closer? o = some e.text ∧
    isCloser e = true := by
  obtain ⟨o, e, ho, he, hk, hc⟩ := h.kind _ hp
  simp only [Stands, List.not_mem_nil, Nat.zero_le, true_and, false_or, Nat.sub_zero] at ho he
  exact ⟨o, e, ho, he, hk, hc⟩

end Whole

def enter (a : Array (Option Nat)) (p : Nat × Nat) : Array (Option Nat) :=
  (a.setIfInBounds p.1 (some p.2)).setIfInBounds p.2 (some p.1)

theorem getElem?_enter_ne {p : Nat × Nat} {k : Nat} (h₁ : p.1 ≠ k) (h₂ : p.2 ≠ k) :
    (enter a p)[k]? = a[k]? := by
  simp [enter, h₁, h₂]

theorem getElem?_foldl_enter {k : Nat} (h : ∀ p ∈ ps, p.1 ≠ k ∧ p.2 ≠ k) :
    (ps.foldl enter a)[k]? = a[k]? := by
  induction ps generalizing a with
  | nil => rfl
  | cons p ps ih =>
    simp only [List.mem_cons, forall_eq_or_imp] at h
    rw [List.foldl_cons, ih h.2, getElem?_enter_ne h.1.1 h.1.2]

/-- In the table of pairs that follow one another both ends of a pair lead to the other. -/
theorem foldl_enter_pair (hf : ps.Pairwise Follows) (ho : ∀ p ∈ ps, p.1 < p.2)
    {p : Nat × Nat} (hp : p ∈ ps) (hlt : p.2 < a.size) :
    (ps.foldl enter a)[p.1]? = some (some p.2) ∧ (ps.foldl enter a)[p.2]? = some (some p.1) := by
  induction ps generalizing a with
  | nil => cases hp
  | cons q ps ih =>
    have hf' := List.pairwise_cons.mp hf
    have ho' : ∀ p ∈ ps, p.1 < p.2 := fun p hp => ho p (List.mem_cons_of_mem _ hp)
    rcases List.mem_cons.mp hp with rfl | hp
    · have hpq := ho p List.mem_cons_self
      have hother : ∀ q ∈ ps, (q.1 ≠ p.1 ∧ q.2 ≠ p.1) ∧ q.1 ≠ p.2 ∧ q.2 ≠ p.2 := by
        intro q hq
        have h₁ := hf'.1 q hq
        have h₂ := ho' q hq
        simp only [Follows] at h₁
        omega
      rw [List.foldl_cons, getElem?_foldl_enter fun q hq => (hother q hq).1,
        getElem?_foldl_enter fun q hq => (hother q hq).2]
      have hlt' : p.1 < a.size := by omega
      have hne : p.2 ≠ p.1 := by omega
      simp [enter, hne, hlt, hlt']
    · rw [List.foldl_cons]
      exact ih hf'.2 ho' hp (by simpa [enter] using hlt)

theorem foldl_enter_inv {n k j : Nat}
    (h : (ps.foldl enter (Array.replicate n none))[k]? = some (some j)) (ho : ∀ p ∈ ps, p.1 < p.2)
    (hf : ps.Pairwise Follows) (hr : ∀ p ∈ ps, p.2 < n) : (k, j) ∈ ps ∨ (j, k) ∈ ps := by
  by_cases hk : ∀ p ∈ ps, p.1 ≠ k ∧ p.2 ≠ k
  · rw [getElem?_foldl_enter hk, Array.getElem?_replicate] at h
    split at h <;> simp at h
  · simp only [ne_eq, not_forall] at hk
    obtain ⟨p, hp, hk⟩ := hk
    obtain ⟨h₁, h₂⟩ :=
      foldl_enter_pair hf ho (a := Array.replicate n none) hp (by simpa using hr p hp)
    rcases Decidable.not_and_iff_not_or_not.mp hk with hk | hk
    · rw [← Decidable.not_not.mp hk, h₁] at h
      simp only [Option.some.injEq] at h
      exact .inl (by rwa [← Decidable.not_not.mp hk, ← h])
    · rw [← Decidable.not_not.mp hk, h₂] at h
      simp only [Option.some.injEq] at h
      exact .inr (by rwa [← Decidable.not_not.mp hk, ← h])

/-- The entries of the table are the pairs that are found, from both ends. -/
theorem pairing_of_table {tokens : List Token} (h : table tokens = .ok a) :
    ∃ ps, pairs 0 [] tokens = .ok ps ∧ Pairing 0 [] tokens ps ∧
      ∀ i j, a[i]? = some (some j) ↔ (i, j) ∈ ps ∨ (j, i) ∈ ps := by
  cases hp : pairs 0 [] tokens with
  | error e =>
    rw [table, hp] at h
    cases h
  | ok ps =>
    rw [table, hp] at h
    cases h
    have hpair := pairing_of_pairs hp .nil (by simp) (by simp)
    have hrange : ∀ p ∈ ps, p.2 < tokens.length := fun p hp => by simpa using (hpair.range p hp).2
    refine ⟨ps, rfl, hpair,
      fun i j => ⟨fun h => foldl_enter_inv h hpair.ordered hpair.follows hrange, ?_⟩⟩
    rintro (h | h)
    · exact (foldl_enter_pair hpair.follows hpair.ordered h (by simpa using hrange _ h)).1
    · exact (foldl_enter_pair hpair.follows hpair.ordered h (by simpa using hrange _ h)).2

inductive Balanced : List Token → Prop where
  | nil : Balanced []
  | token {t ts} (ho : closer? t = none) (hc : isCloser t = false) (h : Balanced ts) :
      Balanced (t :: ts)
  | group {o inner e ts} (ho : closer? o = some e.text) (he : isCloser e = true)
      (hi : Balanced inner) (h : Balanced ts) : Balanced (o :: (inner ++ e :: ts))

theorem Balanced.append {ts ts' : List Token} (h : Balanced ts) (h' : Balanced ts') :
    Balanced (ts ++ ts') := by
  induction h with
  | nil => exact h'
  | token ho hc _ ih => exact .token ho hc ih
  | group ho he hi _ _ ih =>
    rw [List.cons_append, List.append_assoc, List.cons_append]
    exact .group ho he hi ih

theorem pairs_cons (i : Nat) (waiting : List (Nat × Token)) (t : Token) (ts : List Token) :
    pairs i waiting (t :: ts) =
      if (closer? t).isSome then pairs (i + 1) ((i, t) :: waiting) ts
      else if isCloser t then
        match waiting with
        | (j, o) :: outer =>
          if closer? o == some t.text then (pairs (i + 1) outer ts).map ((j, i) :: ·)
          else .error ⟨.unbalanced t.text, t.line⟩
        | [] => .error ⟨.unbalanced t.text, t.line⟩
      else pairs (i + 1) waiting ts := by
  cases waiting <;> rfl

theorem except_map_map {α β γ : Type} (x : Except Fault α) (f : α → β) (g : β → γ) :
    (x.map f).map g = x.map (g ∘ f) := by
  cases x <;> rfl

/-- Balanced tokens are passed with the same brackets waiting, and add pairs of their own. -/
theorem pairs_append (h : Balanced ts) (i : Nat) : ∃ new, ∀ waiting rest,
    pairs i waiting (ts ++ rest) = (pairs (i + ts.length) waiting rest).map (new ++ ·) := by
  induction h generalizing i with
  | nil =>
    refine ⟨[], fun waiting rest => ?_⟩
    show pairs i waiting rest = (pairs i waiting rest).map id
    rw [Except.map_id, id]
  | token ho hc _ ih =>
    obtain ⟨new, hnew⟩ := ih (i + 1)
    refine ⟨new, fun waiting rest => ?_⟩
    simp only [List.cons_append, pairs_cons, ho, hc, Option.isSome_none, Bool.false_eq_true,
      if_false, hnew, List.length_cons, Nat.add_comm 1, Nat.add_assoc]
  | @group o inner e ts ho he hi _ ihi ih =>
    have hnone := isSome_closer?_of_isCloser he
    obtain ⟨new, hnew⟩ := ihi (i + 1)
    obtain ⟨new', hnew'⟩ := ih (i + 1 + inner.length + 1)
    refine ⟨new ++ (i, i + 1 + inner.length) :: new', fun waiting rest => ?_⟩
    have hlength : i + (o :: (inner ++ e :: ts)).length = i + 1 + inner.length + 1 + ts.length := by
      simp only [List.length_cons, List.length_append]
      omega
    rw [List.cons_append, List.append_assoc, List.cons_append, hlength, pairs_cons]
    simp only [ho, Option.isSome_some, if_true, hnew, pairs_cons, hnone, he, Bool.false_eq_true,
      if_false, beq_self_eq_true, hnew', except_map_map]
    refine congrArg (Except.map · _) (funext fun ps => ?_)
    simp

/-- The tokens close the waiting brackets one after another and are balanced in between. -/
def Settles : List Token → List Token → Prop
  | [], ts => Balanced ts
  | o :: waiting, ts =>
    ∃ inner e rest, ts = inner ++ e :: rest ∧ Balanced inner ∧ closer? o = some e.text ∧
      isCloser e = true ∧ Settles waiting rest

theorem Settles.prepend {waiting ts ts' : List Token} (h : Balanced ts) (h' : Settles waiting ts') :
    Settles waiting (ts ++ ts') := by
  cases waiting with
  | nil => exact h.append h'
  | cons o waiting =>
    obtain ⟨inner, e, rest, rfl, hi, ho, he, hrest⟩ := h'
    exact ⟨ts ++ inner, e, rest, (List.append_assoc ..).symm, h.append hi, ho, he, hrest⟩

theorem settles_of_pairs {i : Nat} (h : pairs i waiting ts = .ok ps) :
    Settles (waiting.map Prod.snd) ts := by
  induction ts generalizing i waiting ps with
  | nil =>
    cases waiting with
    | nil => exact .nil
    | cons w waiting =>
      rw [pairs] at h
      cases h
  | cons t ts ih =>
    rw [pairs_cons] at h
    split at h
    · rename_i hopen
      obtain ⟨inner, e, rest, rfl, hi, ho, he, hrest⟩ := ih h
      have hgroup : Balanced (t :: (inner ++ [e])) := .group ho he hi .nil
      simpa using Settles.prepend hgroup hrest
    · rename_i hopen
      split at h
      · rename_i hclose
        split at h
        · rename_i j o outer
          split at h
          · rename_i hkind
            cases hp : pairs (i + 1) outer ts with
            | error f =>
              rw [hp] at h
              cases h
            | ok ps' => exact ⟨[], t, ts, rfl, .nil, by simpa using hkind, hclose, ih hp⟩
          · cases h
        · cases h
      · rename_i hclose
        have htoken : Balanced [t] := .token (by simpa using hopen) (by simpa using hclose) .nil
        exact Settles.prepend htoken (ih h)

theorem balanced_iff : Balanced ts ↔ ∃ ps, pairs 0 [] ts = .ok ps := by
  constructor
  · intro h
    obtain ⟨new, hnew⟩ := pairs_append h 0
    have hpairs := hnew [] []
    rw [List.append_nil, pairs] at hpairs
    exact ⟨_, hpairs⟩
  · rintro ⟨ps, hps⟩
    exact settles_of_pairs hps

end Brackets

namespace Parse.Context

open Brackets

structure Matched (c : Context) : Prop where
  ends : c.last.isEof = true
  opener : ∀ {i}, (closer? (c.tokenAt i)).isSome → ∃ j, c.partner? i = some j ∧ i < j
  closer : ∀ {j}, isCloser (c.tokenAt j) = true → ∃ i, c.partner? j = some i ∧ i < j
  partner : ∀ {i j}, c.partner? i = some j → c.partner? j = some i
  apart : ∀ {i j}, c.partner? i = some j → i ≠ j
  bound : ∀ {i j}, c.partner? i = some j → j < c.tokens.size
  kinds : ∀ {i j}, c.partner? i = some j → i < j →
    closer? (c.tokenAt i) = some (c.tokenAt j).text ∧ isCloser (c.tokenAt j) = true
  nested : ∀ {i j a b}, c.partner? i = some j → c.partner? a = some b → i < a → a < j →
    a < b → b < j

theorem tokenAt_eq (c : Context) {i : Nat} {t : Token} (h : c.tokens[i]? = some t) :
    c.tokenAt i = t := by
  simp [tokenAt, Array.getD_eq_getD_getElem?, h]

theorem getElem?_of_tokenAt (c : Context) {i : Nat} (h : i < c.tokens.size) :
    c.tokens[i]? = some (c.tokenAt i) := by
  simp [tokenAt, Array.getD_eq_getD_getElem?, h]

theorem tokenAt_of_le (c : Context) {i : Nat} (h : c.tokens.size ≤ i) : c.tokenAt i = c.last := by
  simp [tokenAt, Array.getD_eq_getD_getElem?, h]

theorem lt_size_of_not_eof {c : Context} (h : c.last.isEof = true) {i : Nat}
    (hi : (c.tokenAt i).isEof = false) : i < c.tokens.size := by
  by_contra hle
  rw [tokenAt_of_le c (Nat.le_of_not_lt hle), h] at hi
  cases hi

theorem matched_of_pairing {c : Context} {tokens : List Token} {ps : List (Nat × Nat)}
    (h : Pairing 0 [] tokens ps) (hlast : c.last.isEof = true) (htokens : c.tokens = tokens.toArray)
    (hpartner : ∀ i j, c.partner? i = some j ↔ (i, j) ∈ ps ∨ (j, i) ∈ ps) : c.Matched := by
  have hat : ∀ {i t}, tokens[i]? = some t → c.tokenAt i = t := fun hi =>
    tokenAt_eq c (by simpa [htokens] using hi)
  have hin : ∀ {i}, (c.tokenAt i).isEof = false → tokens[i]? = some (c.tokenAt i) := fun hi => by
    simpa [htokens] using getElem?_of_tokenAt c (lt_size_of_not_eof hlast hi)
  have hpair : ∀ {i j}, c.partner? i = some j → i < j → (i, j) ∈ ps := by
    intro i j hij hlt
    rcases (hpartner i j).mp hij with hm | hm
    · exact hm
    · have := h.ordered _ hm
      simp only at this
      omega
  constructor
  case ends => exact hlast
  case opener =>
    intro i hi
    have heof : (c.tokenAt i).isEof = false := by
      obtain ⟨x, hx⟩ := Option.isSome_iff_exists.mp hi
      simp [Token.isEof, (closer?_eq_some.mp hx).1]
    obtain ⟨j, hj⟩ := h.openers i _ (.inr ⟨Nat.zero_le _, by simpa using hin heof⟩) hi
    exact ⟨j, (hpartner i j).mpr (.inl hj), h.ordered _ hj⟩
  case closer =>
    intro j hj
    have heof : (c.tokenAt j).isEof = false := by
      simp only [isCloser, Token.isPunctOf, Bool.and_eq_true, beq_iff_eq] at hj
      simp [Token.isEof, hj.1]
    obtain ⟨i, hi⟩ := h.closers j _ (hin heof) hj
    rw [Nat.zero_add] at hi
    exact ⟨i, (hpartner j i).mpr (.inr hi), h.ordered _ hi⟩
  case partner => exact fun hij => (hpartner _ _).mpr ((hpartner _ _).mp hij).symm
  case apart =>
    intro i j hij
    rcases (hpartner i j).mp hij with hm | hm
    · exact Nat.ne_of_lt (h.ordered _ hm)
    · exact Nat.ne_of_gt (h.ordered _ hm)
  case bound =>
    intro i j hij
    have hsize : c.tokens.size = tokens.length := by simp [htokens]
    rcases (hpartner i j).mp hij with hm | hm
    · have := h.range _ hm
      simp only at this
      omega
    · have h₁ := h.range _ hm
      have h₂ := h.ordered _ hm
      simp only at h₁ h₂
      omega
  case kinds =>
    intro i j hij hlt
    obtain ⟨o, t, ho, ht, hk, hc⟩ := h.ends (hpair hij hlt)
    rw [hat ho, hat ht]
    exact ⟨hk, hc⟩
  case nested =>
    intro i j a b hij hab hia haj hlt
    rcases h.related _ (hpair hij (by omega)) _ (hpair hab hlt) with heq | hf | hf
    · cases heq
      omega
    · simp only [Follows] at hf
      omega
    · exact hf.1

theorem matched_of_ofTokens {tokens : List Token} {types : List String} {c : Context}
    (h : ofTokens tokens types = .ok c) (hlast : (tokens.getLastD default).isEof = true) :
    c.Matched := by
  cases ht : table tokens with
  | error e =>
    rw [ofTokens, ht] at h
    cases h
  | ok a =>
    rw [ofTokens, ht] at h
    cases h
    obtain ⟨ps, -, hpair, hentry⟩ := pairing_of_table ht
    refine matched_of_pairing hpair hlast rfl fun i j => ?_
    rw [← hentry]
    simp [partner?, Array.getD_eq_getD_getElem?, Option.getD_eq_iff]

def Encloses (c : Context) (b i : Nat) : Prop := ∃ j, c.partner? b = some j ∧ b < i ∧ i ≤ j

/-- The same brackets are open in front of two places, among those that start with a token in
`p`. -/
def Level (c : Context) (p : Token → Bool) (i j : Nat) : Prop :=
  ∀ b, p (c.tokenAt b) = true → (c.Encloses b i ↔ c.Encloses b j)

namespace Level

variable {c : Context} {p : Token → Bool} {i j k : Nat}

theorem refl (i : Nat) : c.Level p i i := fun _ _ => Iff.rfl

theorem trans (h : c.Level p i j) (h' : c.Level p j k) : c.Level p i k :=
  fun b hb => (h b hb).trans (h' b hb)

theorem take (hopen : p (c.tokenAt i) = false)
    (hclose : ∀ b, c.partner? b = some i → b < i → p (c.tokenAt b) = false) :
    c.Level p i (i + 1) := by
  intro b hb
  have hbi : b ≠ i := by
    rintro rfl
    rw [hopen] at hb
    cases hb
  constructor
  · rintro ⟨j, hj, hlt, hle⟩
    have hij : j ≠ i := by
      rintro rfl
      rw [hclose b hj hlt] at hb
      cases hb
    exact ⟨j, hj, by omega, by omega⟩
  · rintro ⟨j, hj, hlt, hle⟩
    exact ⟨j, hj, by omega, by omega⟩

theorem pass (hc : c.Matched) (h : c.partner? i = some j) (hij : i < j) : c.Level p i (j + 1) := by
  intro b _
  constructor
  · rintro ⟨k, hk, hlt, hle⟩
    have hik : i ≠ k := by
      rintro rfl
      have := Option.some.inj (h.symm.trans (hc.partner hk))
      omega
    have := hc.nested hk h hlt (by omega) hij
    exact ⟨k, hk, by omega, by omega⟩
  · rintro ⟨k, hk, hlt, hle⟩
    have hbi : b ≠ i := by
      rintro rfl
      have := Option.some.inj (hk.symm.trans h)
      omega
    have hbj : b ≠ j := by
      rintro rfl
      have := Option.some.inj (hk.symm.trans (hc.partner h))
      omega
    rcases Nat.lt_or_ge i b with hib | hib
    · have := hc.nested h hk hib (by omega) (by omega)
      omega
    · exact ⟨k, hk, by omega, by omega⟩

theorem back (hc : c.Matched) (h : c.partner? i = some j) (hji : j < i) : c.Level p i (j + 1) := by
  have h' := hc.partner h
  intro b _
  constructor
  · rintro ⟨k, hk, hlt, hle⟩
    rcases Nat.lt_or_ge j b with hjb | hjb
    · have := hc.nested h' hk hjb hlt (by omega)
      omega
    · exact ⟨k, hk, by omega, by omega⟩
  · rintro ⟨k, hk, hlt, hle⟩
    rcases Nat.eq_or_lt_of_le (Nat.le_of_lt_succ hlt) with rfl | hbj
    · have := Option.some.inj (hk.symm.trans h')
      exact ⟨k, hk, by omega, by omega⟩
    · have := hc.nested hk h' hbj (by omega) hji
      exact ⟨k, hk, by omega, by omega⟩

/-- Behind the partner of any bracket the same is open as in front of the bracket. -/
theorem leap (hc : c.Matched) (h : c.partner? i = some j) : c.Level p i (j + 1) :=
  (Nat.lt_or_gt_of_ne (hc.apart h)).elim (pass hc h) (back hc h)

end Level

def opensBlock (t : Token) : Bool := t.isPunct "\x7b"

theorem closer?_opensBlock {t : Token} (h : opensBlock t = true) : closer? t = some "\x7d" := by
  simp only [opensBlock, Token.isPunct, Bool.and_eq_true, beq_iff_eq] at h
  exact closer?_eq_some.mpr ⟨h.1, .inr (.inr ⟨h.2, rfl⟩)⟩

theorem opensBlock_of_closer? {t : Token} (h : closer? t = some "\x7d") : opensBlock t = true := by
  obtain ⟨hk, ⟨-, h⟩ | ⟨-, h⟩ | ⟨h, -⟩⟩ := closer?_eq_some.mp h
  · exact absurd h (by decide)
  · exact absurd h (by decide)
  · simp [opensBlock, Token.isPunct, hk, h]

theorem isCloser_of_isPunct {t : Token} (h : t.isPunct "\x7d" = true) : isCloser t = true := by
  simp only [Token.isPunct, Bool.and_eq_true, beq_iff_eq] at h
  simp [isCloser, Token.isPunctOf, h]

/-- A closing brace in front of which the same blocks are open as behind an opening one is its
partner. -/
theorem Matched.partner_of_level {c : Context} (hc : c.Matched) {i j : Nat}
    (hi : opensBlock (c.tokenAt i) = true) (hj : (c.tokenAt j).isPunct "\x7d" = true)
    (h : c.Level opensBlock (i + 1) j) : c.partner? i = some j := by
  obtain ⟨k, hk, hik⟩ := hc.opener (i := i) (by simp [closer?_opensBlock hi])
  obtain ⟨k', hk', hij, hjk⟩ := (h i hi).mp ⟨k, hk, Nat.lt_succ_self i, hik⟩
  cases Option.some.inj (hk.symm.trans hk')
  rcases Nat.eq_or_lt_of_le hjk with rfl | hjk
  · exact hk
  · obtain ⟨o, ho, hoj⟩ := hc.closer (isCloser_of_isPunct hj)
    have ho' := hc.partner ho
    have htext : (c.tokenAt j).text = "\x7d" := by
      simpa [Token.isPunct] using (Bool.and_eq_true_iff.mp hj).2
    have hopens : opensBlock (c.tokenAt o) = true :=
      opensBlock_of_closer? (htext ▸ (hc.kinds ho' hoj).1)
    obtain ⟨j', hj', hoi, hij'⟩ := (h o hopens).mpr ⟨j, ho', hoj, Nat.le_refl j⟩
    rcases Nat.eq_or_lt_of_le (Nat.le_of_lt_succ hoi) with rfl | hoi
    · have := Option.some.inj (hk.symm.trans ho')
      omega
    · have := hc.nested ho' hk hoi hij hik
      omega

end Parse.Context

end JniContracts
