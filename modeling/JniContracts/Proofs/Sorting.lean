import JniContracts.Finding

/-!
Sorting by an order of keys. What comes out holds the same items, in ascending order, and keeps
items with equal keys in their order. These facts tell it: two lists are sorted into the same one
when for each key they hold the same items in the same order. So the sorted form of a part is a part
of the sorted form.
-/

namespace JniContracts

section Sorting

variable {α : Type} {order : α → α → Ordering} {l l' : List α}

def alike (order : α → α → Ordering) (a : α) (l : List α) : List α :=
  l.filter fun b => order a b == .eq

def Ascending (order : α → α → Ordering) (l : List α) : Prop :=
  l.Pairwise fun a b => (order a b).isLE = true

theorem mem_alike {a b : α} : b ∈ alike order a l ↔ b ∈ l ∧ order a b = .eq := by
  simp [alike, List.mem_filter]

theorem alike_cons_of_eq {a b : α} (h : order a b = .eq) (l : List α) :
    alike order a (b :: l) = b :: alike order a l := List.filter_cons_of_pos (by simp [h])

theorem alike_cons_of_ne {a b : α} (h : order a b ≠ .eq) (l : List α) :
    alike order a (b :: l) = alike order a l := List.filter_cons_of_neg (by simp [h])

theorem alike_filter (p : α → Bool) (a : α) (l : List α) :
    alike order a (l.filter p) = (alike order a l).filter p := by
  simp only [alike, List.filter_filter, Bool.and_comm]

theorem sortBy_perm (order : α → α → Ordering) (l : List α) : (sortBy order l).Perm l :=
  List.mergeSort_perm l _

variable [Std.TransCmp order]

theorem isLE_trans (a b c : α) (h : (order a b).isLE = true) (h' : (order b c).isLE = true) :
    (order a c).isLE = true := Std.TransCmp.isLE_trans h h'

theorem isLE_total (a b : α) : ((order a b).isLE || (order b a).isLE) = true := by
  cases h : order a b with
  | lt | eq => rfl
  | gt => rw [Std.OrientedCmp.lt_of_gt h]; rfl

theorem ascending_sortBy (l : List α) : Ascending order (sortBy order l) :=
  List.pairwise_mergeSort isLE_trans isLE_total l

theorem ascending_alike (a : α) (l : List α) : Ascending order (alike order a l) := by
  refine List.pairwise_of_forall_mem_list fun b hb c hc => ?_
  have hab := (mem_alike.mp hb).2
  have hac := (mem_alike.mp hc).2
  rw [Std.TransCmp.eq_trans (Std.OrientedCmp.eq_symm hab) hac]
  rfl

theorem alike_sortBy (a : α) (l : List α) : alike order a (sortBy order l) = alike order a l := by
  -- the items of one key are an ascending part of the list, so they stay a part of it when it is
  -- sorted
  have hpart : (alike order a l).Sublist (sortBy order l) :=
    List.sublist_mergeSort isLE_trans isLE_total (ascending_alike a l) List.filter_sublist
  have hkept : (alike order a l).Sublist (alike order a (sortBy order l)) := by
    have h := hpart.filter fun b => order a b == .eq
    rwa [List.filter_eq_self.mpr fun b hb => by simpa using (mem_alike.mp hb).2] at h
  exact (hkept.eq_of_length ((sortBy_perm order l).filter _).length_eq.symm).symm

/-- Of two ascending lists with the same items for each key, neither starts before the other. -/
theorem isLE_head {x y : α} (hl : Ascending order (x :: l)) (hy : y ∈ alike order y (x :: l)) :
    (order x y).isLE = true := by
  rcases List.mem_cons.mp (mem_alike.mp hy).1 with rfl | hmem
  · exact Std.ReflCmp.isLE_rfl
  · exact List.rel_of_pairwise_cons hl hmem

theorem eq_of_alike (hl : Ascending order l) (hl' : Ascending order l')
    (h : ∀ a, alike order a l = alike order a l') : l = l' := by
  have hself : ∀ a, order a a = .eq := fun a => Std.ReflCmp.compare_self
  induction l generalizing l' with
  | nil =>
    cases l' with
    | nil => rfl
    | cons y ys =>
      have hy := h y
      rw [alike_cons_of_eq (hself y)] at hy
      cases hy
  | cons x xs ih =>
    cases l' with
    | nil =>
      have hx := h x
      rw [alike_cons_of_eq (hself x)] at hx
      cases hx
    | cons y ys =>
      have hxy : (order x y).isLE = true :=
        isLE_head hl (h y ▸ mem_alike.mpr ⟨List.mem_cons_self, hself y⟩)
      have hyx : (order y x).isLE = true :=
        isLE_head hl' (h x ▸ mem_alike.mpr ⟨List.mem_cons_self, hself x⟩)
      have heq : order x y = .eq := Std.OrientedCmp.isLE_antisymm hxy hyx
      have hhead := h x
      rw [alike_cons_of_eq (hself x), alike_cons_of_eq heq] at hhead
      obtain rfl := (List.cons.inj hhead).1
      rw [ih hl.of_cons hl'.of_cons fun a => ?_]
      by_cases ha : order a x = .eq
      · have hrest := h a
        rw [alike_cons_of_eq ha, alike_cons_of_eq ha] at hrest
        exact (List.cons.inj hrest).2
      · rw [← alike_cons_of_ne ha xs, ← alike_cons_of_ne ha ys]
        exact h a

theorem sortBy_congr (h : ∀ a, alike order a l = alike order a l') :
    sortBy order l = sortBy order l' :=
  eq_of_alike (ascending_sortBy l) (ascending_sortBy l') fun a => by
    rw [alike_sortBy, alike_sortBy, h a]

theorem filter_sortBy (p : α → Bool) (l : List α) :
    (sortBy order l).filter p = sortBy order (l.filter p) := by
  refine eq_of_alike ((ascending_sortBy l).filter p) (ascending_sortBy _) fun a => ?_
  rw [alike_filter, alike_sortBy, alike_sortBy, alike_filter]

end Sorting

section Owners

variable {α β κ : Type} [DecidableEq κ] {owner : α → κ} {key : β → κ} {f : α → List β}
  {l l' : List α}

variable {order : β → β → Ordering}

theorem filter_flatMap_of_key (owner : α → κ) (hf : ∀ a ∈ l, ∀ b ∈ f a, key b = owner a) (k : κ) :
    (l.flatMap f).filter (fun b => key b == k) = (l.filter fun a => owner a == k).flatMap f := by
  induction l with
  | nil => rfl
  | cons a l ih =>
    have hrest := ih fun a' ha' => hf a' (List.mem_cons_of_mem _ ha')
    have hown := hf a List.mem_cons_self
    rw [List.flatMap_cons, List.filter_append, hrest]
    by_cases hk : owner a = k
    · rw [List.filter_eq_self.mpr fun b hb => by simp [hown b hb, hk],
        List.filter_cons_of_pos (by simp [hk]), List.flatMap_cons]
    · rw [List.filter_eq_nil_iff.mpr fun b hb => by simp [hown b hb, hk],
        List.filter_cons_of_neg (by simp [hk]), List.nil_append]

theorem filter_owner_of_mem (hnodup : (l.map owner).Nodup) {a : α} (ha : a ∈ l) :
    l.filter (fun b => owner b == owner a) = [a] := by
  induction l with
  | nil => cases ha
  | cons b l ih =>
    rw [List.map_cons, List.nodup_cons] at hnodup
    have hfresh : ∀ c ∈ l, owner c ≠ owner b := fun c hc h => hnodup.1 (h ▸ List.mem_map_of_mem hc)
    rcases List.mem_cons.mp ha with rfl | ha
    · rw [List.filter_cons_of_pos (by simp),
        List.filter_eq_nil_iff.mpr fun c hc => by simpa using hfresh c hc]
    · rw [List.filter_cons_of_neg (by simpa using (hfresh a ha).symm), ih hnodup.2 ha]

theorem filter_owner_of_perm (hnodup : (l.map owner).Nodup) (h : l'.Perm l) (k : κ) :
    l'.filter (fun a => owner a == k) = l.filter fun a => owner a == k := by
  have hperm := h.filter fun a => owner a == k
  by_cases hk : ∃ a ∈ l, owner a = k
  · obtain ⟨a, ha, rfl⟩ := hk
    rw [filter_owner_of_mem hnodup ha] at hperm ⊢
    exact List.perm_singleton.mp hperm
  · have hnone : l.filter (fun a => owner a == k) = [] :=
      List.filter_eq_nil_iff.mpr fun a ha => by simpa using fun hka => hk ⟨a, ha, hka⟩
    rw [hnone] at hperm ⊢
    exact hperm.eq_nil

theorem alike_eq_filter (horder : ∀ a b, order a b = .eq → key a = key b) (items : List β)
    (b : β) : alike order b items = alike order b (items.filter fun c => key c == key b) := by
  rw [alike_filter, List.filter_eq_self.mpr]
  exact fun c hc => by simpa using (horder b c (mem_alike.mp hc).2).symm

theorem alike_flatMap_of_mem (owner : α → κ) (key : β → κ)
    (horder : ∀ a b, order a b = .eq → key a = key b) (hnodup : (l.map owner).Nodup)
    (hf : ∀ a ∈ l, ∀ b ∈ f a, key b = owner a) {a : α} (ha : a ∈ l) {b : β} (hb : key b = owner a) :
    alike order b (l.flatMap f) = alike order b (f a) := by
  rw [alike_eq_filter horder, filter_flatMap_of_key owner hf, hb, filter_owner_of_mem hnodup ha,
    List.flatMap_singleton]

/-- Items that an order does not tell apart have one owner, so the order of the owners does not
matter. -/
theorem alike_flatMap_of_perm (owner : α → κ) (key : β → κ)
    (horder : ∀ a b, order a b = .eq → key a = key b) (hnodup : (l.map owner).Nodup) (h : l'.Perm l)
    (hf : ∀ a ∈ l, ∀ b ∈ f a, key b = owner a) (b : β) :
    alike order b (l'.flatMap f) = alike order b (l.flatMap f) := by
  rw [alike_eq_filter horder, alike_eq_filter horder (l.flatMap f), filter_flatMap_of_key owner hf,
    filter_flatMap_of_key owner fun a ha => hf a (h.mem_iff.mp ha),
    filter_owner_of_perm hnodup h]

theorem alike_append (b : β) (items items' : List β) :
    alike order b (items ++ items') = alike order b items ++ alike order b items' :=
  List.filter_append ..

theorem alike_flatMap_congr {g : α → List β} {b : β}
    (h : ∀ a, alike order b (f a) = alike order b (g a)) (l : List α) :
    alike order b (l.flatMap f) = alike order b (l.flatMap g) := by
  induction l with
  | nil => rfl
  | cons a l ih => rw [List.flatMap_cons, List.flatMap_cons, alike_append, alike_append, h a, ih]

end Owners

namespace Finding

instance : Std.TransCmp order :=
  inferInstanceAs (Std.TransCmp (compareLex (compareOn file) (compareLex (compareOn line)
    (compareLex (compareOn ruleId) (compareLex (compareOn column) (compareOn message))))))

theorem order_eq {a b : Finding} (h : order a b = .eq) : a.file = b.file ∧ a.ruleId = b.ruleId := by
  simp only [order, Ordering.then_eq_eq, Std.LawfulEqOrd.compare_eq_iff_eq] at h
  exact ⟨h.1, h.2.2.1⟩

end Finding

namespace Diagnostic

instance : Std.TransCmp order :=
  inferInstanceAs (Std.TransCmp (compareLex (compareOn file) (compareLex (compareOn line)
    (compareLex (compareOn fun d => d.kind.text)
    (compareLex (compareOn fun d => d.ruleId.getD "") (compareOn message))))))

theorem order_eq {a b : Diagnostic} (h : order a b = .eq) :
    a.file = b.file ∧ a.kind = b.kind ∧ a.ruleId.getD "" = b.ruleId.getD "" := by
  simp only [order, Ordering.then_eq_eq, Std.LawfulEqOrd.compare_eq_iff_eq] at h
  refine ⟨h.1, ?_, h.2.2.2.1⟩
  have htext := h.2.2.1
  revert htext
  cases a.kind <;> cases b.kind <;> decide

end Diagnostic

end JniContracts
