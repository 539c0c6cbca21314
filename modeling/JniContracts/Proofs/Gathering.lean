import Mathlib.Data.List.Forall2

/-!
Lists and searches that may fail. What is found at each member of a list is gathered in order, and
two searches through lists that belong together member by member come to results that do, or to one
error.
-/

namespace JniContracts

variable {α β : Type} {R : α → β → Prop}

theorem exists_of_any {ε α : Type} {x : Except ε α} {p : α → Bool} (h : x.toOption.any p = true) :
    ∃ a, x = .ok a ∧ p a = true := by
  cases x with
  | ok a => exact ⟨a, rfl, h⟩
  | error e => cases h

theorem any_congr_of_mem {α : Type} {l : List α} {p q : α → Bool} (h : ∀ a ∈ l, p a = q a) :
    l.any p = l.any q := by
  rw [Bool.eq_iff_iff, List.any_eq_true, List.any_eq_true]
  exact exists_congr fun a => and_congr_right fun ha => by rw [h a ha]

theorem isEmpty_eraseDups {α : Type} [BEq α] (l : List α) : l.eraseDups.isEmpty = l.isEmpty := by
  cases l with
  | nil => rfl
  | cons a l => rw [List.eraseDups_cons]; rfl

theorem nodup_eraseDups {α : Type} [BEq α] [LawfulBEq α] (l : List α) : l.eraseDups.Nodup := by
  induction hn : l.length using Nat.strongRecOn generalizing l with
  | _ n ih =>
    cases l with
    | nil => simp
    | cons a l =>
      rw [List.eraseDups_cons, List.nodup_cons]
      have hlt := List.length_filter_le (fun b => !b == a) l
      rw [List.length_cons] at hn
      exact ⟨by simp [List.mem_eraseDups], ih _ (by omega) _ rfl⟩

theorem map_congr_of_zip {u : α → β} {l l' : List α} (hlen : l.length = l'.length)
    (h : ∀ a ∈ l.zip l', u a.1 = u a.2) : l.map u = l'.map u := by
  induction l generalizing l' with
  | nil => rw [List.eq_nil_of_length_eq_zero hlen.symm]
  | cons a l ih =>
    cases l' with
    | nil => cases hlen
    | cons a' l' =>
      have ha : u a = u a' := h (a, a') List.mem_cons_self
      have hl : l.map u = l'.map u :=
        ih (Nat.succ.inj hlen) fun x hx => h x (List.mem_cons_of_mem _ hx)
      rw [List.map_cons, List.map_cons, ha, hl]

theorem map_congr_of_forall₂ {α β γ : Type} {R : α → β → Prop} {u : α → γ} {v : β → γ} {l : List α}
    {l' : List β} (h : List.Forall₂ R l l') (hu : ∀ a b, R a b → u a = v b) :
    l.map u = l'.map v := by
  induction h with
  | nil => rfl
  | cons ha _ ih => rw [List.map_cons, List.map_cons, hu _ _ ha, ih]

theorem exists_of_forall₂ {l : List α} {l' : List β} (h : List.Forall₂ R l l') {b : β}
    (hb : b ∈ l') : ∃ a ∈ l, R a b := by
  induction h with
  | nil => cases hb
  | @cons a b' l l' hab _ ih =>
    rcases List.mem_cons.mp hb with rfl | hb
    · exact ⟨a, List.mem_cons_self, hab⟩
    · obtain ⟨x, hx, hxb⟩ := ih hb
      exact ⟨x, List.mem_cons_of_mem _ hx, hxb⟩

theorem forall₂_of_append_cons {l : List α} {pre post : List β} {b : β}
    (h : List.Forall₂ R l (pre ++ b :: post)) :
    ∃ pre' a post', l = pre' ++ a :: post' ∧ List.Forall₂ R pre' pre ∧ R a b ∧
    List.Forall₂ R post' post := by
  induction pre generalizing l with
  | nil =>
    cases h with
    | cons hab hpost => exact ⟨[], _, _, rfl, .nil, hab, hpost⟩
  | cons x pre ih =>
    cases h with
    | @cons y _ _ _ hyx hrest =>
      obtain ⟨pre', a, post', rfl, hpre, hab, hpost⟩ := ih hrest
      exact ⟨y :: pre', a, post', rfl, .cons hyx hpre, hab, hpost⟩

theorem getLast?_of_forall₂ {l : List α} {l' : List β} (h : List.Forall₂ R l l') :
    (l.getLast? = none ∧ l'.getLast? = none) ∨
    ∃ a b, l.getLast? = some a ∧ l'.getLast? = some b ∧ R a b := by
  induction h with
  | nil => exact .inl ⟨rfl, rfl⟩
  | @cons a b l l' hab _ ih =>
    rw [List.getLast?_cons, List.getLast?_cons]
    rcases ih with ⟨hl, hl'⟩ | ⟨x, y, hl, hl', hxy⟩
    · rw [hl, hl']
      exact .inr ⟨a, b, rfl, rfl, hab⟩
    · rw [hl, hl']
      exact .inr ⟨x, y, rfl, rfl, hxy⟩

theorem forall₂_dropLast {l : List α} {l' : List β} (h : List.Forall₂ R l l') :
    List.Forall₂ R l.dropLast l'.dropLast := by
  rw [List.dropLast_eq_take, List.dropLast_eq_take, h.length_eq]
  exact List.forall₂_take _ h

theorem map_congr_of_rel {R : α → α → Prop} {u : α → β} {o o' : Option α}
    (h : Option.Rel R o o') (hu : ∀ a a', R a a' → u a = u a') : o.map u = o'.map u := by
  cases h with
  | none => rfl
  | some ha => rw [Option.map_some, Option.map_some, hu _ _ ha]

/-- Both fail for the same reason, or both give lists whose members belong together one by one. -/
inductive Paired {α β ε : Type} (R : α → β → Prop) : Except ε (List α) →
  Except ε (List β) → Prop where
  | ok {l l'} (h : List.Forall₂ R l l') : Paired R (.ok l) (.ok l')
  | error (e : ε) : Paired R (.error e) (.error e)

section Gathering

variable {α β γ δ ε : Type} {R : α → β → Prop} {x : Except ε (List α)} {y : Except ε (List β)}
  {f : α → Except ε (List β)}

def gather (f : α → Except ε (List β)) (l : List α) : Except ε (List β) := do
  let groups ← l.mapM f
  pure groups.flatten

theorem gather_cons (f : α → Except ε (List β)) (a : α) (l : List α) :
    gather f (a :: l) = (f a).bind fun found => (gather f l).map (found ++ ·) := by
  rw [gather, gather, List.mapM_cons]
  cases f a with
  | error e => rfl
  | ok found => cases l.mapM f <;> rfl

theorem exists_of_gather {l : List α} {found : List β} (h : gather f l = .ok found) {b : β}
    (hb : b ∈ found) : ∃ a ∈ l, ∃ part, f a = .ok part ∧ b ∈ part := by
  induction l generalizing found with
  | nil =>
    cases h
    cases hb
  | cons a l ih =>
    rw [gather_cons] at h
    cases ha : f a with
    | error e =>
      rw [ha] at h
      cases h
    | ok part =>
      cases hl : gather f l with
      | error e =>
        rw [ha, hl] at h
        cases h
      | ok rest =>
        rw [ha, hl] at h
        cases h
        rcases List.mem_append.mp hb with hb | hb
        · exact ⟨a, List.mem_cons_self, part, ha, hb⟩
        · obtain ⟨a', ha', found⟩ := ih hl hb
          exact ⟨a', List.mem_cons_of_mem _ ha', found⟩

theorem subset_of_gather {l : List α} {found : List β} (h : gather f l = .ok found) {a : α}
    (ha : a ∈ l) : ∃ part, f a = .ok part ∧ part ⊆ found := by
  induction l generalizing found with
  | nil => cases ha
  | cons b l ih =>
    rw [gather_cons] at h
    cases hfirst : f b with
    | error e =>
      rw [hfirst] at h
      cases h
    | ok first =>
      cases hrest : gather f l with
      | error e =>
        rw [hfirst, hrest] at h
        cases h
      | ok rest =>
        rw [hfirst, hrest] at h
        cases h
        rcases List.mem_cons.mp ha with rfl | ha
        · exact ⟨first, hfirst, List.subset_append_left first rest⟩
        · obtain ⟨part, hpart, hsubset⟩ := ih hrest ha
          exact ⟨part, hpart, List.Subset.trans hsubset (List.subset_append_right first rest)⟩

theorem gather_append (f : α → Except ε (List β)) (l l' : List α) :
    gather f (l ++ l') = (gather f l).bind fun found => (gather f l').map (found ++ ·) := by
  induction l with
  | nil =>
    show gather f l' = (gather f l').map ([] ++ ·)
    cases gather f l' <;> rfl
  | cons a l ih =>
    rw [List.cons_append, gather_cons, gather_cons, ih]
    cases f a with
    | error e => rfl
    | ok found =>
      cases gather f l with
      | error e => rfl
      | ok rest =>
        cases gather f l' with
        | error e => rfl
        | ok more => exact congrArg Except.ok (List.append_assoc found rest more).symm

theorem gather_map (f : α → Except ε (List β)) (u : γ → α) (l : List γ) :
    gather f (l.map u) = gather (fun x => f (u x)) l := by
  induction l with
  | nil => rfl
  | cons x l ih => rw [List.map_cons, gather_cons, gather_cons, ih]

theorem gather_flatMap (f : α → Except ε (List β)) (u : γ → List α) (l : List γ) :
    gather f (l.flatMap u) = gather (fun x => gather f (u x)) l := by
  induction l with
  | nil => rfl
  | cons x l ih => rw [List.flatMap_cons, gather_append, gather_cons, ih]

theorem gather_filter {p : α → Bool} {l : List α}
    (h : ∀ a ∈ l, p a = false → f a = .ok []) : gather f (l.filter p) = gather f l := by
  induction l with
  | nil => rfl
  | cons a l ih =>
    have hl := ih fun x hx => h x (List.mem_cons_of_mem _ hx)
    rw [gather_cons, ← hl]
    cases hp : p a with
    | true => rw [List.filter_cons_of_pos hp, gather_cons]
    | false =>
      rw [List.filter_cons_of_neg (by simp [hp]), h a List.mem_cons_self hp]
      cases gather f (l.filter p) <;> rfl

theorem Paired.bind {S : γ → δ → Prop} {k : List α → Except ε (List γ)}
    {k' : List β → Except ε (List δ)} (h : Paired R x y)
    (hk : ∀ l l', List.Forall₂ R l l' → Paired S (k l) (k' l')) :
    Paired S (x.bind k) (y.bind k') := by
  cases h with
  | error e => exact .error e
  | ok hl => exact hk _ _ hl

theorem Paired.map {S : γ → δ → Prop} {k : List α → List γ} {k' : List β → List δ}
    (h : Paired R x y) (hk : ∀ l l', List.Forall₂ R l l' → List.Forall₂ S (k l) (k' l')) :
    Paired S (x.map k) (y.map k') := by
  cases h with
  | error e => exact .error e
  | ok hl => exact .ok (hk _ _ hl)

theorem Paired.and_left {P : α → Prop} (h : Paired R x y) (hP : ∀ l, x = .ok l → ∀ a ∈ l, P a) :
    Paired (fun a b => P a ∧ R a b) x y := by
  cases h with
  | error e => exact .error e
  | ok hl => exact .ok ((List.forall₂_and_left _ _).mpr ⟨hP _ rfl, hl⟩)

theorem Paired.map_eq {u : α → γ} {v : β → γ} (h : Paired R x y) (hu : ∀ a b, R a b → u a = v b) :
    x.map (List.map u) = y.map (List.map v) := by
  cases h with
  | error e => rfl
  | ok hl => exact congrArg Except.ok (map_congr_of_forall₂ hl hu)

theorem Paired.gather {S : γ → δ → Prop} {R : α → β → Prop} {f : γ → Except ε (List α)}
    {f' : δ → Except ε (List β)} {l : List γ} {l' : List δ} (hl : List.Forall₂ S l l')
    (h : ∀ x x', S x x' → Paired R (f x) (f' x')) : Paired R (gather f l) (gather f' l') := by
  induction hl with
  | nil => exact .ok .nil
  | @cons x x' l l' hx _ ih =>
    rw [gather_cons, gather_cons]
    exact (h x x' hx).bind fun _ _ hfound => ih.map fun _ _ hrest => List.rel_append hfound hrest

theorem filterAuxM_eq (f : α → Except ε Bool) (l acc : List α) :
    List.filterAuxM f l acc = (List.filterAuxM f l []).map (· ++ acc) := by
  induction l generalizing acc with
  | nil => rfl
  | cons a l ih =>
    simp only [List.filterAuxM]
    cases f a with
    | error e => rfl
    | ok keep =>
      cases keep with
      | false => exact ih acc
      | true =>
        show List.filterAuxM f l (a :: acc) = (List.filterAuxM f l [a]).map (· ++ acc)
        rw [ih (a :: acc), ih [a]]
        cases List.filterAuxM f l [] with
        | error e => rfl
        | ok kept => simp [Except.map]

theorem filterM_cons (f : α → Except ε Bool) (a : α) (l : List α) :
    (a :: l).filterM f = (f a).bind fun keep => (l.filterM f).map fun rest => if keep then a :: rest
    else rest := by
  simp only [List.filterM, List.filterAuxM]
  cases f a with
  | error e => rfl
  | ok keep =>
    cases keep with
    | false =>
      cases h : List.filterAuxM f l [] <;>
        simp [h, bind, Except.bind, Except.map, pure, Except.pure]
    | true =>
      cases h : List.filterAuxM f l [] <;>
        simp [filterAuxM_eq f l [a], h, bind, Except.bind, Except.map, pure, Except.pure]

theorem Paired.filterM {f : α → Except ε Bool} {f' : β → Except ε Bool} {l : List α} {l' : List β}
    (hl : List.Forall₂ R l l') (h : ∀ a b, R a b → f' b = f a) :
    Paired R (l.filterM f) (l'.filterM f') := by
  induction hl with
  | nil => exact .ok .nil
  | @cons a b l l' hab _ ih =>
    rw [filterM_cons, filterM_cons, h a b hab]
    cases f a with
    | error e => exact .error e
    | ok keep =>
      refine ih.map fun rest rest' hrest => ?_
      cases keep with
      | false => exact hrest
      | true => exact .cons hab hrest

end Gathering

end JniContracts
