import JniContracts.Pattern.Metavariable
import Mathlib.Data.List.Basic

/-!
Names with a metavariable in them. What a name has to be in place of the metavariable is determined
by the lengths, so the first solution that is found is the only one.
-/

namespace JniContracts

variable {p v t : String} {b b' s : Bindings} {segs : List Segment} {cs : List Char}

namespace Bindings

theorem lookup_cons_ite {β : Type} (v : String) (t : β) (l : List (String × β)) (u : String) :
    ((v, t) :: l).lookup u = if u = v then some t else l.lookup u := by
  rw [List.lookup_cons]
  by_cases hu : u = v
  · simp [hu]
  · simp [hu, beq_eq_false_iff_ne.mpr hu]

theorem lookup_insertInto (var text : String) (l : List (String × String)) (u : String) :
    (insertInto var text l).lookup u = if u = var then some text else l.lookup u := by
  induction l with
  | nil => rw [insertInto, lookup_cons_ite]
  | cons e rest ih =>
    obtain ⟨v, t⟩ := e
    rw [insertInto]
    split
    · rw [lookup_cons_ite]
    · split
      · rename_i hv
        rw [lookup_cons_ite, lookup_cons_ite, beq_iff_eq.mp hv]
        split <;> rfl
      · rename_i hv
        have hne : var ≠ v := fun h => hv (beq_iff_eq.mpr h)
        rw [lookup_cons_ite, lookup_cons_ite, ih]
        by_cases hu : u = v
        · simp [hu, hne.symm]
        · simp [hu]

@[simp] theorem get?_insert (b : Bindings) (var text u : String) :
    (b.insert var text).get? u = if u = var then some text else b.get? u :=
  lookup_insertInto var text b.entries u

theorem lookup_eq_none_of_lt {β : Type} {u : String} {l : List (String × β)}
    (h : ∀ e ∈ l, u < e.1) : l.lookup u = none := by
  rw [List.lookup_eq_none_iff]
  intro e he
  exact bne_iff_ne.mpr (String.ne_of_lt (h e he))

theorem eq_of_lookup_eq {β : Type} {l l' : List (String × β)}
    (hl : l.Pairwise fun a b => a.1 < b.1) (hl' : l'.Pairwise fun a b => a.1 < b.1)
    (h : ∀ u, l.lookup u = l'.lookup u) : l = l' := by
  induction l generalizing l' with
  | nil =>
    cases l' with
    | nil => rfl
    | cons e' l' =>
      obtain ⟨v', t'⟩ := e'
      simpa [lookup_cons_ite] using h v'
  | cons e l ih =>
    obtain ⟨v, t⟩ := e
    cases l' with
    | nil => simpa [lookup_cons_ite] using h v
    | cons e' l' =>
      obtain ⟨v', t'⟩ := e'
      obtain ⟨hfirst, hrest⟩ := List.pairwise_cons.mp hl
      obtain ⟨hfirst', hrest'⟩ := List.pairwise_cons.mp hl'
      simp only [lookup_cons_ite] at h
      -- the first variables are the same, as each is found in the other list
      have hv : v = v' := by
        rcases Std.lt_trichotomy v v' with hlt | heq | hlt
        · have hnone := lookup_eq_none_of_lt fun e he => String.lt_trans hlt (hfirst' e he)
          have hfound := h v
          rw [if_pos rfl, if_neg (String.ne_of_lt hlt), hnone] at hfound
          cases hfound
        · exact heq
        · have hnone := lookup_eq_none_of_lt fun e he => String.lt_trans hlt (hfirst e he)
          have hfound := h v'
          rw [if_pos rfl, if_neg (String.ne_of_lt hlt), hnone] at hfound
          cases hfound
      subst hv
      have ht : t = t' := by simpa using h v
      have htail : ∀ u, l.lookup u = l'.lookup u := by
        intro u
        by_cases hu : u = v
        · rw [hu, lookup_eq_none_of_lt hfirst, lookup_eq_none_of_lt hfirst']
        · simpa [hu] using h u
      rw [ht, ih hrest hrest' htail]

theorem ext_get? (h : ∀ v, b.get? v = s.get? v) : b = s := by
  obtain ⟨l, hl⟩ := b
  obtain ⟨l', hl'⟩ := s
  cases eq_of_lookup_eq hl hl' h
  rfl

instance : LE Bindings := ⟨fun b s => ∀ v t, b.get? v = some t → s.get? v = some t⟩

theorem le_refl (b : Bindings) : b ≤ b := fun _ _ h => h

theorem le_trans {r : Bindings} (h : b ≤ s) (h' : s ≤ r) : b ≤ r := fun v t hv => h' v t (h v t hv)

def Binds (b : Bindings) (v : String) : Prop := (b.get? v).isSome

instance (b : Bindings) (v : String) : Decidable (b.Binds v) :=
  inferInstanceAs (Decidable (_ = true))

theorem binds_of_get? (h : b.get? v = some t) : b.Binds v := by
  simp [Binds, h]

/-- Bindings are extended by values for these variables, as far as they have none. -/
structure Adds (b : Bindings) (vs : List String) (b' : Bindings) : Prop where
  le : b ≤ b'
  binds : ∀ v, b'.Binds v ↔ b.Binds v ∨ v ∈ vs

theorem Adds.refl (b : Bindings) : b.Adds [] b := ⟨le_refl b, by simp⟩

theorem Adds.trans {b'' : Bindings} {vs ws : List String} (h : b.Adds vs b') (h' : b'.Adds ws b'') :
    b.Adds (vs ++ ws) b'' := by
  refine ⟨le_trans h.le h'.le, fun v => ?_⟩
  rw [h'.binds, h.binds, List.mem_append, or_assoc]

/-- Between two bindings there is only one that has values for just these variables. -/
theorem Adds.get?_eq {vs : List String} (h : b.Adds vs b') (hle : b' ≤ s) (v : String) :
    b'.get? v = if b.Binds v ∨ v ∈ vs then s.get? v else none := by
  have hb := h.binds v
  cases hv : b'.get? v with
  | none =>
    have hno : ¬ b'.Binds v := by simp [Binds, hv]
    rw [if_neg fun hor => hno (hb.mpr hor)]
  | some t => rw [if_pos (hb.mp (binds_of_get? hv)), hle v t hv]

theorem adds_of_bind (h : b.bind v t = some b') : b.Adds [v] b' ∧ b'.get? v = some t := by
  unfold bind at h
  split at h
  · rename_i hv
    cases h
    refine ⟨⟨fun u s hu => ?_, fun u => ?_⟩, by simp⟩
    · have hne : u ≠ v := by
        rintro rfl
        rw [hv] at hu
        cases hu
      simpa [hne] using hu
    · by_cases hu : u = v <;> simp [Binds, hu]
  · rename_i s hv
    split at h
    · rename_i hs
      cases h
      rw [beq_iff_eq.mp hs] at hv
      refine ⟨⟨le_refl b, fun u => ?_⟩, hv⟩
      rw [List.mem_singleton]
      exact ⟨.inl, fun hu => hu.elim id fun huv => huv ▸ binds_of_get? hv⟩
    · cases h

theorem exists_bind (hle : b ≤ s) (h : s.get? v = some t) :
    ∃ b', b.bind v t = some b' ∧ b' ≤ s := by
  unfold bind
  split
  · refine ⟨_, rfl, fun u r hu => ?_⟩
    rw [get?_insert] at hu
    split at hu
    · rename_i huv
      rw [huv, h, hu]
    · exact hle u r hu
  · rename_i r hv
    have hr := hle v r hv
    rw [h] at hr
    cases hr
    exact ⟨b, by simp, hle⟩

end Bindings

namespace Segment

def names (segs : List Segment) : List String := segs.filterMap name?

@[simp] theorem names_char (c : Char) (segs : List Segment) : names (char c :: segs) = names segs :=
  rfl

@[simp] theorem names_var (v : String) (segs : List Segment) :
    names (var v :: segs) = v :: names segs := rfl

def expand (value : String → List Char) : Segment → List Char
  | char c => [c]
  | var v => value v

theorem nameRest_append (cs : List Char) : (nameRest cs).1 ++ (nameRest cs).2 = cs := by
  induction cs with
  | nil => rfl
  | cons c cs ih =>
    rw [nameRest]
    split
    · rfl
    · simp [ih]

theorem splitFor_expand {fuel : Nat} (hf : cs.length ≤ fuel) :
    (splitFor fuel cs).flatMap (expand fun v => '$' :: v.toList) = cs := by
  fun_induction splitFor fuel cs with
  | case1 cs =>
    rw [List.length_eq_zero_iff.mp (Nat.le_zero.mp hf)]
    rfl
  | case2 => rfl
  | case3 fuel c rest hc name after hsplit ih =>
    have happend : name ++ after = rest := by
      have h := nameRest_append rest
      rw [hsplit] at h
      exact h
    have hlen : after.length ≤ rest.length := by
      rw [← happend, List.length_append]
      omega
    simp only [List.length_cons] at hf
    rw [List.flatMap_cons, ih (by omega), expand, String.toList_ofList, ← happend]
    simp
  | case4 fuel c rest hc ih =>
    rw [List.flatMap_cons, ih (Nat.le_of_succ_le_succ hf)]
    rfl
  | case5 fuel c rest hc ih =>
    rw [List.flatMap_cons, ih (Nat.le_of_succ_le_succ hf)]
    rfl

theorem mem_metavariables : v ∈ metavariables p ↔ v ∈ names (split p) := List.mem_eraseDups

theorem expand_congr {value value' : String → List Char}
    (h : ∀ v ∈ names segs, value v = value' v) :
    segs.flatMap (expand value) = segs.flatMap (expand value') := by
  refine List.flatMap_congr fun seg hseg => ?_
  cases seg with
  | char c => rfl
  | var v => exact h v (List.mem_filterMap.mpr ⟨.var v, hseg, rfl⟩)

def value (b : Bindings) (v : String) : List Char := ((b.get? v).getD ("$" ++ v)).toList

theorem toList_fillIn (p : String) (b : Bindings) :
    (fillIn p b).toList = (split p).flatMap (expand (value b)) := by
  rw [fillIn, String.toList_join, List.flatMap_map]
  refine List.flatMap_congr fun seg _ => ?_
  cases seg <;> simp [fill, expand, value]

theorem fillIn_of_metavariables_nil (h : metavariables p = []) (b : Bindings) : fillIn p b = p := by
  have hnone : ∀ v ∈ names (split p), value b v = '$' :: v.toList := by
    intro v hv
    rw [← mem_metavariables, h] at hv
    simp at hv
  rw [← String.toList_inj, toList_fillIn, expand_congr hnone]
  exact splitFor_expand (Nat.le_refl _)

end Segment

namespace NamePattern

open Segment

theorem mem_cuts {a b : List Char} : (a, b) ∈ cuts cs ↔ a ≠ [] ∧ cs = a ++ b := by
  induction cs generalizing a with
  | nil =>
    rw [cuts]
    refine ⟨fun h => absurd h (by simp),
      fun ⟨ha, h⟩ => absurd (List.append_eq_nil_iff.mp h.symm).1 ha⟩
  | cons c rest ih =>
    simp only [cuts, List.mem_cons, List.mem_map, Prod.mk.injEq, Prod.exists]
    constructor
    · rintro (⟨rfl, rfl⟩ | ⟨a', b', hmem, rfl, rfl⟩)
      · simp
      · simp [(ih.mp hmem).2]
    · rintro ⟨ha, h⟩
      cases a with
      | nil => exact absurd rfl ha
      | cons d a' =>
        rw [List.cons_append, List.cons.injEq] at h
        obtain ⟨rfl, rfl⟩ := h
        cases a' with
        | nil => exact .inl ⟨rfl, rfl⟩
        | cons e a' => exact .inr ⟨e :: a', b, ih.mpr ⟨by simp, rfl⟩, rfl, rfl⟩

theorem dropStart?_eq_some {a rest : List Char} : dropStart? a cs = some rest ↔ cs = a ++ rest := by
  induction a generalizing cs with
  | nil => simp [dropStart?]
  | cons c a ih =>
    cases cs with
    | nil => simp [dropStart?]
    | cons d cs =>
      by_cases hcd : c = d
      · simp [dropStart?, hcd, ih]
      · simp [dropStart?, hcd, Ne.symm hcd]

/-- When all variables have values, nothing is left to choose. -/
theorem solve_of_bound {value : String → List Char} {found : List (String × List Char)}
    (h : ∀ v ∈ names segs, found.lookup v = some (value v)) (cs : List Char)
    (found' : List (String × List Char)) :
    solve segs cs found = some found' ↔ found' = found ∧ cs = segs.flatMap (expand value) := by
  induction segs generalizing cs with
  | nil => cases cs <;> simp [solve, eq_comm]
  | cons seg segs ih =>
    cases seg with
    | char c =>
      cases cs with
      | nil => simp [solve, expand]
      | cons d cs =>
        by_cases hcd : c = d
        · simp [solve, hcd, ih h, expand]
        · simp [solve, hcd, expand, Ne.symm hcd]
    | var v =>
      have hv : found.lookup v = some (value v) := h v (List.mem_cons_self ..)
      have hrest : ∀ u ∈ names segs, found.lookup u = some (value u) :=
        fun u hu => h u (List.mem_cons_of_mem _ hu)
      simp only [solve, hv, List.flatMap_cons, expand]
      cases hd : dropStart? (value v) cs with
      | none =>
        have hno : ∀ rest, cs ≠ value v ++ rest := fun rest hr => by
          rw [dropStart?_eq_some.mpr hr] at hd
          cases hd
        simp [hno]
      | some rest =>
        rw [dropStart?_eq_some.mp hd]
        simp [ih hrest]

theorem length_expand_le {x y : List Char} (h : x.length ≤ y.length) (segs : List Segment) :
    (segs.flatMap (expand fun _ => x)).length ≤ (segs.flatMap (expand fun _ => y)).length := by
  induction segs with
  | nil => exact Nat.le_refl _
  | cons seg segs ih =>
    simp only [List.flatMap_cons, List.length_append]
    cases seg with
    | char c => exact Nat.add_le_add_left ih 1
    | var v => exact Nat.add_le_add h ih

/-- A text determines what stands in it for a variable. -/
theorem value_unique {x y : List Char}
    (h : x ++ segs.flatMap (expand fun _ => x) = y ++ segs.flatMap (expand fun _ => y)) :
    x = y := by
  have hlen := congrArg List.length h
  simp only [List.length_append] at hlen
  have hxy : x.length = y.length := by
    rcases Nat.le_total x.length y.length with hle | hle
    · have := length_expand_le hle segs
      omega
    · have := length_expand_le hle segs
      omega
  exact (List.append_inj h hxy).1

/-- With one variable at most, the solution is the only one there is. -/
theorem solve_single (hv : ∀ u ∈ names segs, u = v) (cs : List Char)
    (found : List (String × List Char)) :
    solve segs cs [] = some found ↔
    (names segs = [] ∧ found = [] ∧ cs = segs.flatMap (expand fun _ => [])) ∨
    (names segs ≠ [] ∧ ∃ x, x ≠ [] ∧ x.all isInner = true ∧ found = [(v, x)] ∧
      cs = segs.flatMap (expand fun _ => x)) := by
  induction segs generalizing cs with
  | nil =>
    cases cs with
    | nil => simp [solve, names]
    | cons d cs => simp [solve, names]
  | cons seg segs ih =>
    cases seg with
    | char c =>
      cases cs with
      | nil => simp [solve, expand]
      | cons d cs =>
        by_cases hcd : c = d
        · simp [solve, hcd, ih hv, expand]
        · simp [solve, hcd, expand, Ne.symm hcd]
    | var u =>
      have hu : u = v := hv u (List.mem_cons_self ..)
      subst hu
      have hbound : ∀ x : List Char, ∀ w ∈ names segs, [(u, x)].lookup w = some x := by
        intro x w hw
        simp [hv w (List.mem_cons_of_mem _ hw)]
      have hfind : ∀ found', solve (.var u :: segs) cs [] = some found' →
          ∃ x, x ≠ [] ∧ x.all isInner = true ∧ found' = [(u, x)] ∧
            cs = x ++ segs.flatMap (expand fun _ => x) := by
        intro found' h
        obtain ⟨⟨x, rest⟩, hcut, hx⟩ := List.exists_of_findSome?_eq_some h
        obtain ⟨hne, rfl⟩ := mem_cuts.mp hcut
        by_cases hin : x.all isInner = true
        · simp only [hin, if_true, List.nil_append] at hx
          obtain ⟨rfl, rfl⟩ := (solve_of_bound (hbound x) _ _).mp hx
          exact ⟨x, hne, hin, rfl, rfl⟩
        · simp [hin] at hx
      constructor
      · exact fun h => .inr ⟨by simp, hfind found h⟩
      · rintro (⟨hnil, -⟩ | ⟨-, x, hne, hin, rfl, htext⟩)
        · simp at hnil
        · have hsome : (solve (.var u :: segs) cs []).isSome := by
            refine List.findSome?_isSome_iff.mpr ⟨(x, segs.flatMap (expand fun _ => x)), ?_, ?_⟩
            · exact mem_cuts.mpr ⟨hne, htext⟩
            · simp [hin, (solve_of_bound (hbound x) _ _).mpr ⟨rfl, rfl⟩]
          obtain ⟨found', hfound⟩ := Option.isSome_iff_exists.mp hsome
          obtain ⟨y, -, -, rfl, hy⟩ := hfind found' hfound
          have hxy : x = y := value_unique (htext.symm.trans hy)
          rw [hfound, hxy]

theorem split_of_sole (h : soleVariable? p = some v) : split p = [.var v] := by
  unfold soleVariable? at h
  split at h
  · rename_i u hu
    cases h
    exact hu
  · cases h

theorem match?_sole (h : soleVariable? p = some v) (t : String) (b : Bindings) :
    match? p t b = if t == "" || t.toList.contains '\n' then none else b.bind v t := by
  rw [match?, split_of_sole h]

theorem match?_solve (h : soleVariable? p = none) (t : String) (b : Bindings) :
    match? p t b = (solve (split p) t.toList []).bind (bindAll · b) := by
  unfold match?
  split
  · rename_i v hv
    simp [ soleVariable?, hv] at h
  · cases solve (split p) t.toList [] <;> rfl

inductive Instance (s : Bindings) (p t : String) : Prop where
  | plain (hp : metavariables p = []) (ht : t = p)
  | whole {v : String} (hp : soleVariable? p = some v) (hv : s.get? v = some t) (hne : t ≠ "")
      (hline : '\n' ∉ t.toList)
  | embedded (hp : soleVariable? p = none) (hvars : metavariables p ≠ [])
      (hv : ∀ v ∈ metavariables p, ∃ x, s.get? v = some x ∧ x ≠ "" ∧ x.toList.all isInner = true)
      (ht : t = fillIn p s)

theorem Instance.mono {s' : Bindings} (hle : s ≤ s') (h : Instance s p t) : Instance s' p t := by
  cases h with
  | plain hp ht => exact .plain hp ht
  | whole hp hv hne hline => exact .whole hp (hle _ _ hv) hne hline
  | embedded hp hvars hv ht =>
    refine .embedded hp hvars (fun v hm => ?_) ?_
    · obtain ⟨x, hx, hne, hin⟩ := hv v hm
      exact ⟨x, hle v x hx, hne, hin⟩
    · rw [ht, ← String.toList_inj, toList_fillIn, toList_fillIn]
      refine expand_congr fun v hm => ?_
      obtain ⟨x, hx, -⟩ := hv v (mem_metavariables.mpr hm)
      simp [value, hx, hle v x hx]

theorem metavariables_of_sole (h : soleVariable? p = some v) : metavariables p = [v] := by
  rw [metavariables, split_of_sole h]
  rfl

theorem fillIn_single {x : String} (hv : metavariables p = [v]) (hx : s.get? v = some x) :
    (fillIn p s).toList = (split p).flatMap (expand fun _ => x.toList) := by
  rw [toList_fillIn]
  refine expand_congr fun u hu => ?_
  rw [← mem_metavariables, hv, List.mem_singleton] at hu
  simp [value, hu, hx]

theorem match?_plain (h : metavariables p = []) : match? p t b = some b' ↔ b' = b ∧ t = p := by
  have hsole : soleVariable? p = none := by
    rw [Option.eq_none_iff_forall_ne_some]
    intro v hv
    rw [metavariables_of_sole hv] at h
    cases h
  have hnames : names (split p) = [] := by
    refine List.eq_nil_iff_forall_not_mem.mpr fun v hv => ?_
    rw [← mem_metavariables, h] at hv
    cases hv
  have htext : (split p).flatMap (expand fun _ => []) = p.toList := by
    rw [← fillIn_of_metavariables_nil h .empty, toList_fillIn, fillIn_of_metavariables_nil h]
    exact expand_congr (by simp [hnames])
  have honly : ∀ u ∈ names (split p), u = "" := by simp [hnames]
  rw [match?_solve hsole, Option.bind_eq_some_iff]
  simp only [solve_single honly, hnames, htext, String.toList_inj]
  constructor
  · rintro ⟨found, (⟨-, rfl, rfl⟩ | ⟨hne, -⟩), hb⟩
    · exact ⟨(Option.some.inj hb).symm, rfl⟩
    · exact absurd rfl hne
  · rintro ⟨rfl, rfl⟩
    exact ⟨[], .inl ⟨trivial, rfl, rfl⟩, rfl⟩

theorem match?_embedded (hs : soleVariable? p = none) (hv : metavariables p = [v]) :
    match? p t b = some b' ↔ ∃ x : String, x ≠ "" ∧ x.toList.all isInner = true ∧
    b.bind v x = some b' ∧ t.toList = (split p).flatMap (expand fun _ => x.toList) := by
  have honly : ∀ u ∈ names (split p), u = v := by
    intro u hu
    rw [← mem_metavariables, hv] at hu
    exact List.mem_singleton.mp hu
  have hne : names (split p) ≠ [] := by
    have hm : v ∈ names (split p) := by
      rw [← mem_metavariables, hv]
      exact List.mem_singleton.mpr rfl
    exact List.ne_nil_of_mem hm
  rw [match?_solve hs, Option.bind_eq_some_iff]
  simp only [solve_single honly]
  constructor
  · rintro ⟨found, (⟨hnil, -⟩ | ⟨-, x, hx, hin, rfl, ht⟩), hb⟩
    · exact absurd hnil hne
    · refine ⟨String.ofList x, ?_, ?_, ?_, ?_⟩
      · intro hempty
        have := congrArg String.toList hempty
        rw [String.toList_ofList] at this
        exact hx this
      · rwa [String.toList_ofList]
      · cases hbind : b.bind v (String.ofList x) <;> simp_all [bindAll]
      · rwa [String.toList_ofList]
  · rintro ⟨x, hx, hin, hb, ht⟩
    refine ⟨[(v, x.toList)], .inr ⟨hne, x.toList, ?_, hin, rfl, ht⟩, ?_⟩
    · intro hnil
      exact hx (String.toList_inj.mp hnil)
    · simp [bindAll, hb]

/-- A match extends the bindings by values for the variables of the name, and makes an instance. -/
theorem match?_sound (hp : (metavariables p).length ≤ 1)
    (h : match? p t b = some b') : b.Adds (metavariables p) b' ∧ Instance b' p t := by
  cases hsole : soleVariable? p with
  | some v =>
    rw [match?_sole hsole] at h
    split at h
    · cases h
    · rename_i hc
      obtain ⟨hadds, hget⟩ := Bindings.adds_of_bind h
      rw [metavariables_of_sole hsole]
      simp only [Bool.or_eq_true, beq_iff_eq, List.contains_iff_mem, not_or] at hc
      exact ⟨hadds, .whole hsole hget hc.1 hc.2⟩
  | none =>
    match hvars : metavariables p, hp with
    | [], _ =>
      obtain ⟨rfl, rfl⟩ := (match?_plain hvars).mp h
      exact ⟨.refl _, .plain hvars rfl⟩
    | [v], _ =>
      obtain ⟨x, hne, hin, hb, ht⟩ := (match?_embedded hsole hvars).mp h
      obtain ⟨hadds, hget⟩ := Bindings.adds_of_bind hb
      refine ⟨hadds, .embedded hsole (by simp [hvars]) (fun u hu => ?_) ?_⟩
      · rw [hvars, List.mem_singleton] at hu
        exact ⟨x, hu ▸ hget, hne, hin⟩
      · rw [← String.toList_inj, fillIn_single hvars hget, ht]

theorem match?_complete (hp : (metavariables p).length ≤ 1) (hle : b ≤ s)
    (h : Instance s p t) : ∃ b', match? p t b = some b' ∧ b' ≤ s := by
  cases h with
  | plain hvars ht => exact ⟨b, (match?_plain hvars).mpr ⟨rfl, ht⟩, hle⟩
  | whole hsole hv hne hline =>
    obtain ⟨b', hb, hle'⟩ := Bindings.exists_bind hle hv
    exact ⟨b', by simp [match?_sole hsole, hne, hline, hb], hle'⟩
  | embedded hsole hvars hv ht =>
    match hvars' : metavariables p, hp with
    | [], _ => exact absurd hvars' hvars
    | [v], _ =>
      obtain ⟨x, hx, hne, hin⟩ := hv v (by simp [hvars'])
      obtain ⟨b', hb, hle'⟩ := Bindings.exists_bind hle hx
      refine ⟨b', (match?_embedded hsole hvars').mpr ⟨x, hne, hin, hb, ?_⟩, hle'⟩
      rw [ht, fillIn_single hvars' hx]

end NamePattern

end JniContracts
