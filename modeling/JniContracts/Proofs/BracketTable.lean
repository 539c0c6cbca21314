import JniContracts.Proofs.Partners

/-!
The bracket table and balanced words. A table is made just if the brackets among the tokens are a
balanced word over the three pairs, and then it leads from each bracket to its partner and back.
Otherwise the fault is at the first closing bracket that does not fit, or, if all fit, at the
innermost bracket that stays open.
-/

namespace JniContracts.Brackets

variable {ts : List Token}

def isBracket (t : Token) : Bool := (closer? t).isSome || isCloser t

def word (tokens : List Token) : List Token := tokens.filter isBracket

inductive Dyck : List Token → Prop where
  | nil : Dyck []
  | group {o inner e rest} (ho : closer? o = some e.text) (he : isCloser e = true) (hi : Dyck inner)
      (h : Dyck rest) : Dyck (o :: (inner ++ e :: rest))

theorem balanced_of_inert (h : ∀ t ∈ ts, isBracket t = false) : Balanced ts := by
  induction ts with
  | nil => exact .nil
  | cons t ts ih =>
    obtain ⟨ht, hts⟩ := List.forall_mem_cons.mp h
    rw [isBracket, Bool.or_eq_false_iff] at ht
    exact .token (by simpa using ht.1) ht.2 (ih hts)

theorem dyck_of_balanced (h : Balanced ts) : Dyck (word ts) := by
  induction h with
  | nil => exact .nil
  | @token t ts ho hc _ ih =>
    rwa [word, List.filter_cons_of_neg (by simp [isBracket, ho, hc])]
  | @group o inner e ts ho he _ _ ihi ih =>
    rw [word, List.filter_cons_of_pos (by simp [isBracket, ho]), List.filter_append,
      List.filter_cons_of_pos (by simp [isBracket, he])]
    exact .group ho he ihi ih

/-- What is no bracket may stand anywhere in a balanced word. -/
theorem balanced_of_dyck {w : List Token} (h : Dyck w) (hw : word ts = w) : Balanced ts := by
  induction h generalizing ts with
  | nil => exact balanced_of_inert fun t ht => by simpa using List.filter_eq_nil_iff.mp hw t ht
  | group ho he _ _ ihi ih =>
    obtain ⟨before, behind, rfl, hbefore, -, hw⟩ := List.filter_eq_cons_iff.mp hw
    obtain ⟨inner, behind, rfl, hinner, hw⟩ := List.filter_eq_append_iff.mp hw
    obtain ⟨gap, rest, rfl, hgap, -, hrest⟩ := List.filter_eq_cons_iff.mp hw
    have hfront := balanced_of_inert fun t ht => by simpa using hbefore t ht
    have hback := balanced_of_inert fun t ht => by simpa using hgap t ht
    rw [← List.append_assoc inner]
    exact hfront.append (.group ho he ((ihi hinner).append hback) (ih hrest))

theorem balanced_iff_dyck : Balanced ts ↔ Dyck (word ts) :=
  ⟨dyck_of_balanced, fun h => balanced_of_dyck h rfl⟩

/-- What a token does to the brackets that wait, and the pair that it completes. -/
inductive Passes (i : Nat) (t : Token) : List (Nat × Token) → List (Nat × Token) →
  List (Nat × Nat) → Prop where
  | push {waiting} (ho : (closer? t).isSome) : Passes i t waiting ((i, t) :: waiting) []
  | pop {j o outer} (ho : closer? o = some t.text) (ht : isCloser t = true) :
      Passes i t ((j, o) :: outer) outer [(j, i)]
  | pass {waiting} (ht : isBracket t = false) : Passes i t waiting waiting []

theorem pairs_step (i : Nat) (waiting : List (Nat × Token)) (t : Token) (ts : List Token) :
    (∃ waiting' new, Passes i t waiting waiting' new ∧
      pairs i waiting (t :: ts) = (pairs (i + 1) waiting' ts).map (new ++ ·)) ∨
    isCloser t = true ∧ (∀ w ∈ waiting.head?, closer? w.2 ≠ some t.text) ∧
      pairs i waiting (t :: ts) = .error ⟨.unbalanced t.text, t.line⟩ := by
  have hkeep : ∀ waiting, pairs (i + 1) waiting ts = (pairs (i + 1) waiting ts).map ([] ++ ·) := by
    intro waiting
    show _ = Except.map id _
    rw [Except.map_id, id]
  rw [pairs_cons]
  cases hopen : (closer? t).isSome with
  | true => exact .inl ⟨_, _, .push hopen, hkeep _⟩
  | false =>
    cases hclose : isCloser t with
    | false => exact .inl ⟨_, _, .pass (by simp [isBracket, hopen, hclose]), hkeep _⟩
    | true =>
      cases waiting with
      | nil => exact .inr ⟨rfl, by simp, rfl⟩
      | cons w outer =>
        by_cases hkind : closer? w.2 = some t.text
        · exact .inl ⟨_, _, .pop hkind hclose, by simp [hkind]⟩
        · exact .inr ⟨rfl, by simpa using hkind, by simp [hkind]⟩

section Map

variable {α β : Type} {x : Except Fault α} {f : α → β}

theorem ok_of_map {b : β} (h : x.map f = .ok b) : ∃ a, x = .ok a ∧ f a = b := by
  cases x with
  | ok a => exact ⟨a, rfl, Except.ok.inj h⟩
  | error e => cases h

theorem error_of_map {e : Fault} (h : x.map f = .error e) : x = .error e := by
  cases x with
  | ok a => cases h
  | error e' => exact congrArg _ (Except.error.inj h)

end Map

theorem pairs_behind {before ts : List Token} {i : Nat} {waiting : List (Nat × Token)}
    {ps : List (Nat × Nat)} (h : pairs i waiting (before ++ ts) = .ok ps) :
    ∃ waiting' rest, pairs (i + before.length) waiting' ts = .ok rest ∧ rest ⊆ ps := by
  induction before generalizing i waiting ps with
  | nil => exact ⟨waiting, ps, h, List.Subset.refl _⟩
  | cons t before ih =>
    rw [List.cons_append] at h
    obtain ⟨waiting', new, -, hstep⟩ | ⟨-, -, hstep⟩ := pairs_step i waiting t (before ++ ts)
    · obtain ⟨ps, hps, rfl⟩ := ok_of_map (hstep.symm.trans h)
      obtain ⟨waiting'', rest, hrest, hsub⟩ := ih hps
      rw [Nat.add_right_comm] at hrest
      exact ⟨waiting'', rest, hrest, fun p hp => List.mem_append_right _ (hsub hp)⟩
    · rw [hstep] at h
      cases h

section Open

variable {o : Token} {v : List Token}

/-- A bracket with balanced tokens behind it stays open. -/
theorem not_balanced_of_open (ho : (closer? o).isSome) (hv : Balanced v) (u : List Token) :
    ¬ Balanced (u ++ o :: v) := by
  intro h
  obtain ⟨ps, hps⟩ := balanced_iff.mp h
  obtain ⟨waiting, rest, hrest, -⟩ := pairs_behind hps
  obtain ⟨new, hnew⟩ := pairs_append hv (0 + u.length + 1)
  rw [pairs_cons, if_pos ho, ← List.append_nil v, hnew, pairs] at hrest
  cases hrest

theorem innermost_unique {o' : Token} {u u' v' : List Token} (h : u ++ o :: v = u' ++ o' :: v')
    (ho : (closer? o).isSome) (ho' : (closer? o').isSome) (hv : Balanced v) (hv' : Balanced v') :
    o = o' := by
  obtain ⟨between, -, h⟩ | ⟨between, -, h⟩ := List.append_eq_append_iff.mp h
  · cases between with
    | nil => exact (List.cons.inj h).1
    | cons x between =>
      obtain ⟨-, rfl⟩ := List.cons.inj h
      exact absurd hv (not_balanced_of_open ho' hv' between)
  · cases between with
    | nil => exact (List.cons.inj h).1.symm
    | cons x between =>
      obtain ⟨-, rfl⟩ := List.cons.inj h
      exact absurd hv' (not_balanced_of_open ho hv between)

end Open

def Leaves : List Token → List Token → Prop
  | w, [] => Balanced w
  | w, o :: outer => ∃ u v, w = u ++ o :: v ∧ (closer? o).isSome ∧ Balanced v ∧ Leaves u outer

theorem Leaves.append {w waiting ts : List Token} (h : Leaves w waiting) (hts : Balanced ts) :
    Leaves (w ++ ts) waiting := by
  cases waiting with
  | nil => exact Balanced.append h hts
  | cons o outer =>
    obtain ⟨u, v, rfl, ho, hv, hu⟩ := h
    exact ⟨u, v ++ ts, by simp, ho, hv.append hts, hu⟩

def Fits (before : List Token) (t : Token) : Prop :=
  ∃ u o v, before = u ++ o :: v ∧ Dyck (word v) ∧ closer? o = some t.text

def AllFit (tokens : List Token) : Prop :=
  ∀ u t v, tokens = u ++ t :: v → isCloser t = true → Fits u t

theorem AllFit.concat {w : List Token} {t : Token} (h : AllFit w)
    (ht : isCloser t = true → Fits w t) : AllFit (w ++ [t]) := by
  intro u x v hsplit hx
  obtain rfl | ⟨v, y, rfl⟩ := List.eq_nil_or_concat v
  · obtain ⟨rfl, hlast⟩ := List.append_inj' hsplit rfl
    cases hlast
    exact ht hx
  · rw [List.concat_eq_append, ← List.cons_append, ← List.append_assoc] at hsplit
    exact h u x v (List.append_inj' hsplit rfl).1 hx

section Steps

variable {i : Nat} {t : Token} {w : List Token} {waiting waiting' : List (Nat × Token)}
  {new : List (Nat × Nat)}

theorem Leaves.passes (h : Leaves w (waiting.map Prod.snd)) (hp : Passes i t waiting waiting' new) :
    Leaves (w ++ [t]) (waiting'.map Prod.snd) := by
  cases hp with
  | push ho => exact ⟨w, [], rfl, ho, .nil, h⟩
  | pop ho ht =>
    obtain ⟨u, v, rfl, -, hv, hu⟩ := h
    have hgroup : Leaves (u ++ _) _ := hu.append (.group ho ht hv .nil)
    simpa using hgroup
  | pass ht => exact h.append (balanced_of_inert (by simpa using ht))

theorem Leaves.fits (h : Leaves w (waiting.map Prod.snd)) (hp : Passes i t waiting waiting' new)
    (ht : isCloser t = true) : Fits w t := by
  cases hp with
  | push ho =>
    rw [not_isCloser_of_closer? ho] at ht
    cases ht
  | pop ho _ =>
    obtain ⟨u, v, hw, -, hv, -⟩ := h
    exact ⟨u, _, v, hw, balanced_iff_dyck.mp hv, ho⟩
  | pass hno => simp [isBracket, ht] at hno

theorem Leaves.not_fits (h : Leaves w (waiting.map Prod.snd))
    (ht : ∀ x ∈ waiting.head?, closer? x.2 ≠ some t.text) : ¬ Fits w t := by
  rintro ⟨u, o, v, hw, hv, ho⟩
  have hopen : (closer? o).isSome := by simp [ho]
  cases waiting with
  | nil =>
    subst hw
    exact not_balanced_of_open hopen (balanced_iff_dyck.mpr hv) u h
  | cons x outer =>
    obtain ⟨u', v', hw', ho', hv', -⟩ := h
    obtain rfl := innermost_unique (hw.symm.trans hw') hopen ho' (balanced_iff_dyck.mpr hv) hv'
    exact ht x rfl ho

end Steps

theorem balanced_between {before rest : List Token} {o : Token} {ps : List (Nat × Nat)}
    (h : pairs 0 [] (before ++ o :: rest) = .ok ps) (ho : (closer? o).isSome) :
    ∃ inner e behind, rest = inner ++ e :: behind ∧ Balanced inner ∧
      (before.length, before.length + 1 + inner.length) ∈ ps := by
  obtain ⟨waiting, new, hnew, hsub⟩ := pairs_behind h
  rw [pairs_cons, if_pos ho, Nat.zero_add] at hnew
  obtain ⟨inner, e, behind, rfl, hinner, hkind, he, -⟩ := settles_of_pairs hnew
  refine ⟨inner, e, behind, rfl, hinner, hsub ?_⟩
  obtain ⟨first, hfirst⟩ := pairs_append hinner (before.length + 1)
  have hclose := isSome_closer?_of_isCloser he
  rw [hfirst, pairs_cons] at hnew
  simp only [hclose, he, hkind, Bool.false_eq_true, if_false, if_true, beq_self_eq_true] at hnew
  obtain ⟨ps', hps', rfl⟩ := ok_of_map hnew
  obtain ⟨last, -, rfl⟩ := ok_of_map hps'
  exact List.mem_append_right _ List.mem_cons_self

/-- The table leads from each bracket to its partner, an opening bracket to a later closing one of
its kind and that one back; of two pairs one lies within the other or behind it, and what lies
between the ends of a pair is balanced. -/
structure PartnersIn (tokens : List Token) (table : Array (Option Nat)) : Prop where
  size : table.size = tokens.length
  defined : ∀ i : Nat, (∃ j, table[i]? = some (some j)) ↔ ∃ t, tokens[i]? = some t ∧
    isBracket t = true
  involution : ∀ i j : Nat, table[i]? = some (some j) → table[j]? = some (some i)
  opener : ∀ (i : Nat) (o : Token), tokens[i]? = some o → (closer? o).isSome → ∃ j e, table[i]? =
      some (some j) ∧ i < j ∧ tokens[j]? = some e ∧ isCloser e = true ∧ closer? o = some e.text
  closer : ∀ (j : Nat) (e : Token), tokens[j]? = some e → isCloser e = true → ∃ i o, table[j]? =
      some (some i) ∧ i < j ∧ tokens[i]? = some o ∧ closer? o = some e.text
  nested : ∀ i j a b : Nat, table[i]? = some (some j) → table[a]? = some (some b) → i < j → a < b →
    i < a → j < a ∨ b < j
  between : ∀ i j : Nat, table[i]? = some (some j) → i < j →
    Dyck (word ((tokens.take j).drop (i + 1)))

theorem size_foldl_enter (ps : List (Nat × Nat)) (a : Array (Option Nat)) :
    (ps.foldl enter a).size = a.size := by
  induction ps generalizing a with
  | nil => rfl
  | cons p ps ih => simp [ih, enter]

theorem partnersIn_of_table {tokens : List Token} {a : Array (Option Nat)}
    (h : table tokens = .ok a) : PartnersIn tokens a := by
  obtain ⟨ps, hps, hp, hentry⟩ := pairing_of_table h
  -- the pair that an entry comes from, told by the order of its ends
  have hpair : ∀ {i j : Nat}, a[i]? = some (some j) → i < j → (i, j) ∈ ps := by
    intro i j hij hlt
    obtain hm | hm := (hentry i j).mp hij
    · exact hm
    · have hlt' := hp.ordered _ hm
      simp only at hlt'
      omega
  constructor
  case size =>
    rw [table, hps] at h
    cases h
    exact (size_foldl_enter ps _).trans (by simp)
  case defined =>
    intro i
    constructor
    · rintro ⟨j, hj⟩
      obtain hm | hm := (hentry i j).mp hj
      · obtain ⟨o, e, ho, -, hkind, -⟩ := hp.ends hm
        exact ⟨o, ho, by simp [isBracket, hkind]⟩
      · obtain ⟨o, e, -, he, -, hclose⟩ := hp.ends hm
        exact ⟨e, he, by simp [isBracket, hclose]⟩
    · rintro ⟨t, ht, hbracket⟩
      obtain hopen | hclose := Bool.or_eq_true_iff.mp hbracket
      · obtain ⟨j, hj⟩ := hp.openers i t (.inr ⟨Nat.zero_le _, ht⟩) hopen
        exact ⟨j, (hentry i j).mpr (.inl hj)⟩
      · obtain ⟨j, hj⟩ := hp.closers i t ht hclose
        rw [Nat.zero_add] at hj
        exact ⟨j, (hentry i j).mpr (.inr hj)⟩
  case involution => exact fun i j hij => (hentry j i).mpr ((hentry i j).mp hij).symm
  case opener =>
    intro i o ho hopen
    obtain ⟨j, hj⟩ := hp.openers i o (.inr ⟨Nat.zero_le _, ho⟩) hopen
    obtain ⟨o', e, ho', he, hkind, hclose⟩ := hp.ends hj
    cases Option.some.inj (ho.symm.trans ho')
    exact ⟨j, e, (hentry i j).mpr (.inl hj), hp.ordered _ hj, he, hclose, hkind⟩
  case closer =>
    intro j e he hclose
    obtain ⟨i, hi⟩ := hp.closers j e he hclose
    rw [Nat.zero_add] at hi
    obtain ⟨o, e', ho, he', hkind, -⟩ := hp.ends hi
    cases Option.some.inj (he.symm.trans he')
    exact ⟨i, o, (hentry j i).mpr (.inr hi), hp.ordered _ hi, ho, hkind⟩
  case nested =>
    intro i j k l hij hkl hlt hlt' hik
    obtain heq | hf | hf := hp.related _ (hpair hij hlt) _ (hpair hkl hlt')
    · cases heq
      omega
    · simp only [Follows] at hf
      omega
    · simp only [Follows] at hf
      omega
  case between =>
    intro i j hij hlt
    obtain ⟨o, e, ho, -, hkind, -⟩ := hp.ends (hpair hij hlt)
    obtain ⟨hi, hget⟩ := List.getElem?_eq_some_iff.mp ho
    have hsplit : tokens = tokens.take i ++ o :: tokens.drop (i + 1) := by
      rw [← hget, List.getElem_cons_drop, List.take_append_drop]
    have hlength : (tokens.take i).length = i := List.length_take_of_le (Nat.le_of_lt hi)
    rw [hsplit] at hps
    obtain ⟨inner, x, behind, hrest, hinner, hm⟩ := balanced_between hps (by simp [hkind])
    rw [hlength] at hm
    -- the pair that is found there is the one in the table
    have hj : i + 1 + inner.length = j := by
      have hentry' := (hentry i (i + 1 + inner.length)).mpr (.inl hm)
      rw [hij] at hentry'
      exact (Option.some.inj (Option.some.inj hentry')).symm
    have hslice : (tokens.take j).drop (i + 1) = inner := by
      rw [List.drop_take, hrest, ← hj, Nat.add_sub_cancel_left, List.take_left]
    rw [hslice]
    exact balanced_iff_dyck.mp hinner

/-- The fault is at the first closing bracket that does not fit, or, if all fit, at the innermost
bracket that stays open. -/
inductive Blames (tokens : List Token) : Fault → Prop where
  | closer {w t rest} (htokens : tokens = w ++ t :: rest) (ht : isCloser t = true)
      (hbefore : AllFit w) (hfit : ¬ Fits w t) : Blames tokens ⟨.unbalanced t.text, t.line⟩
  | opener {u o v} (htokens : tokens = u ++ o :: v) (ho : (closer? o).isSome) (hall : AllFit tokens)
      (hv : Dyck (word v)) : Blames tokens ⟨.unclosed o.text, o.line⟩

theorem blames_of_pairs {i : Nat} {waiting : List (Nat × Token)} {w : List Token} {f : Fault}
    (h : pairs i waiting ts = .error f) (hleaves : Leaves w (waiting.map Prod.snd))
    (hfit : AllFit w) : Blames (w ++ ts) f := by
  induction ts generalizing i waiting w with
  | nil =>
    cases waiting with
    | nil => cases h
    | cons x outer =>
      cases h
      obtain ⟨u, v, rfl, ho, hv, -⟩ := hleaves
      exact .opener (List.append_nil _) ho (by simpa using hfit) (balanced_iff_dyck.mp hv)
  | cons t ts ih =>
    obtain ⟨waiting', new, hpass, hstep⟩ | ⟨ht, hkind, hstep⟩ := pairs_step i waiting t ts
    · rw [List.append_cons]
      exact ih (error_of_map (hstep.symm.trans h)) (hleaves.passes hpass)
        (hfit.concat (hleaves.fits hpass))
    · rw [hstep] at h
      cases h
      exact .closer rfl ht hfit (hleaves.not_fits hkind)

/-- For every list of tokens a table is made just if the brackets among them are a balanced word. A
table that is made leads from each bracket to its partner; a fault is reported at the first closing
bracket that does not fit, or else at the innermost bracket that stays open. -/
theorem table_of_tokens (tokens : List Token) :
    ((∃ a, table tokens = .ok a) ↔ Dyck (word tokens)) ∧
      (∀ a, table tokens = .ok a → PartnersIn tokens a) ∧
      ∀ f, table tokens = .error f → Blames tokens f := by
  refine ⟨?_, fun a h => partnersIn_of_table h, fun f h => ?_⟩
  · rw [← balanced_iff_dyck, balanced_iff]
    constructor
    · rintro ⟨a, h⟩
      obtain ⟨ps, hps, -⟩ := pairing_of_table h
      exact ⟨ps, hps⟩
    · rintro ⟨ps, hps⟩
      exact ⟨_, by rw [table, hps]; rfl⟩
  · have hnone : AllFit [] := fun u t v hsplit => by simp at hsplit
    simpa using blames_of_pairs (w := []) (error_of_map h) .nil hnone

def punctuators (texts : List String) : List Token :=
  texts.mapIdx fun i text => ⟨.punct, text, ⟨1, 2 * i + 1⟩⟩

theorem table_of_tokens_crossed :
    PartnersIn (punctuators ["(", "[", "]", ";", ")"]) #[some 4, some 2, some 1, none, some 0] ∧
      Blames (punctuators ["(", "[", ")", "]"]) ⟨.unbalanced ")", 1⟩ :=
  ⟨(table_of_tokens (punctuators ["(", "[", "]", ";", ")"])).2.1 _ (by rfl),
    (table_of_tokens (punctuators ["(", "[", ")", "]"])).2.2 _ (by rfl)⟩

end JniContracts.Brackets
