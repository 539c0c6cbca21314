import JniContracts.Proofs.Spelling.Parts

/-!
Places in an expression and in its uniform form. A place outside what spells the calls has a place
in the uniform form, with the uniform form of its part, and under the same calls; different places
go to different ones.
-/

namespace JniContracts

namespace Expr

inductive Moved : Expr → Address → Address → Prop where
  | here {e} : Moved e [] []
  | part {e c j path path'} (hc : (e.children.drop e.spelling)[j]? = some c)
      (h : Moved c path path') :
      Moved e ((e.spelling + j) :: path) ((e.uniform.spelling + j) :: path')

theorem Moved.inj {e : Expr} {a a' b b' : Address} (ha : e.Moved a a') (hb : e.Moved b b') :
    a = b ↔ a' = b' := by
  induction ha generalizing b b' with
  | here =>
    cases hb with
    | here => simp
    | part => simp
  | @part e c i path path' hc _ ih =>
    cases hb with
    | here => simp
    | @part _ c' j rest rest' hc' h' =>
      -- Both sides shift all parts of an expression by one number each, so that equal heads are
      -- equal parts.
      have heads :
          e.spelling + i = e.spelling + j ↔ e.uniform.spelling + i = e.uniform.spelling + j := by
        omega
      rw [List.cons.injEq, List.cons.injEq, heads]
      refine and_congr_right fun hij => ?_
      obtain rfl : i = j := by omega
      rw [hc] at hc'
      cases hc'
      exact ih h'

theorem children_part {e c : Expr} {j : Nat} (hc : (e.children.drop e.spelling)[j]? = some c) :
    e.children[e.spelling + j]? = some c ∧
    e.uniform.children[e.uniform.spelling + j]? = some c.uniform := by
  refine ⟨List.getElem?_drop ▸ hc, ?_⟩
  rw [← List.getElem?_drop, parts_uniform, List.getElem?_map, hc, Option.map_some]

theorem Moved.callsAround {e : Expr} {a a' : Address} (h : e.Moved a a') :
    e.uniform.callsAround a' = (e.callsAround a).map Call.uniform := by
  induction h with
  | here => rfl
  | @part e c j path path' hc _ ih =>
    obtain ⟨hchild, huniform⟩ := children_part hc
    simp only [Expr.callsAround, call?_uniform, hchild, huniform, List.map_append, ih]
    cases e.call? <;> rfl

section Spots

theorem bare_of_spelling {e c x : Expr} (hc : c ∈ e.children.take e.spelling) (hx : x ∈ c.walk) :
    x.isBare = true := by
  have hany : (e.children.take e.spelling).any (·.walk.any (!·.isBare)) = false := by
    have hbare : ∀ y : Expr, y.isBare = true → (!y.isBare) = y.name?.any fun _ => false := by
      intro y hy
      rw [hy]
      cases y.name? <;> rfl
    cases e with
    | call f args via p =>
      rcases spelled_or_plain f args via with ⟨r, n, rfl, h⟩ | h
      · rw [spelling_spelled h]
        exact any_spelling hbare h
      · rw [spelling_plain h]
        rfl
    | _ => rfl
  rw [List.any_eq_false] at hany
  have hwalk := hany c hc
  rw [Bool.not_eq_true, List.any_eq_false] at hwalk
  simpa using hwalk x hx

theorem spelling_le (e : Expr) : e.spelling ≤ e.children.length := by
  cases e with
  | call f args via p =>
    rcases spelled_or_plain f args via with ⟨r, n, rfl, h⟩ | h
    · rw [spelling_spelled h, children, List.length_cons]
      have hs := spells_of_spelled? h
      generalize args.drop f.repeated = own at hs
      cases hs with
      | table hobj ha => simp [repeated, tablePointer?, hobj]
      | pointer hobj => simp [repeated, tablePointer?, hobj]
    · rw [spelling_plain h]
      exact Nat.zero_le _
  | _ => exact Nat.zero_le _

def handed (holder : Option String) (e : Expr) (i : Nat) : Option String :=
  match e, i with
  | assign op target _ _, 1 => if op == .set then target.strip.name? else none
  | cast .., _ => holder
  | _, _ => none

theorem spotsOfAll_eq (addr : Address) (n : Nat) (es : List Expr) :
    spotsOfAll addr n es = (es.zipIdx n).flatMap fun c => c.1.spotsIn none (addr ++ [c.2]) := by
  induction es generalizing n with
  | nil => rfl
  | cons e es ih => rw [spotsOfAll, ih, List.zipIdx_cons, List.flatMap_cons]

theorem spotsIn_eq (holder : Option String) (addr : Address) (e : Expr) :
    e.spotsIn holder addr = e.spot holder addr ::
      e.children.zipIdx.flatMap fun c => c.1.spotsIn (e.handed holder c.2) (addr ++ [c.2]) := by
  cases e <;> simp [spotsIn, children, handed, spotsOfAll_eq]

theorem expr_spot (holder : Option String) (addr : Address) (e : Expr) :
    (e.spot holder addr).expr = e := by
  cases e <;> rfl

theorem expr_mem_walk {e : Expr} {holder : Option String} {addr : Address} {s : Spot}
    (h : s ∈ e.spotsIn holder addr) : s.expr ∈ e.walk := by
  induction e using child_induction generalizing holder addr with
  | step e ih =>
    rw [spotsIn_eq] at h
    rw [walk_eq]
    rcases List.mem_cons.mp h with rfl | h
    · rw [expr_spot]
      exact List.mem_cons_self
    · obtain ⟨⟨c, i⟩, hc, hs⟩ := List.mem_flatMap.mp h
      have hmem := List.fst_mem_of_mem_zipIdx hc
      exact List.mem_cons_of_mem _ (List.mem_flatMap.mpr ⟨c, hmem, ih c hmem hs⟩)

/-- The places that are more than names, members and pointers are those of the parts that do not
spell. -/
theorem filter_spotsIn (holder : Option String) (addr : Address) (e : Expr) :
    (e.spotsIn holder addr).filter (!·.expr.isBare) =
      [e.spot holder addr].filter (!·.expr.isBare) ++
        ((e.children.drop e.spelling).zipIdx e.spelling).flatMap fun c =>
          (c.1.spotsIn (e.handed holder c.2) (addr ++ [c.2])).filter (!·.expr.isBare) := by
  have hsplit : e.children.zipIdx =
      (e.children.take e.spelling).zipIdx ++ (e.children.drop e.spelling).zipIdx e.spelling := by
    conv_lhs => rw [← List.take_append_drop e.spelling e.children]
    rw [List.zipIdx_append, List.length_take, Nat.min_eq_left e.spelling_le, Nat.zero_add]
  have hspells : ((e.children.take e.spelling).zipIdx.flatMap fun c =>
      (c.1.spotsIn (e.handed holder c.2) (addr ++ [c.2])).filter (!·.expr.isBare)) = [] := by
    refine List.flatMap_eq_nil_iff.mpr fun c hc => List.filter_eq_nil_iff.mpr fun s hs => ?_
    rw [bare_of_spelling (List.fst_mem_of_mem_zipIdx hc) (expr_mem_walk hs)]
    exact Bool.false_ne_true
  rw [spotsIn_eq, ← List.singleton_append, List.filter_append, List.filter_flatMap, hsplit,
    List.flatMap_append, hspells, List.nil_append]

theorem handed_uniform (holder : Option String) (e : Expr) (j : Nat) :
    e.uniform.handed holder (e.uniform.spelling + j) = e.handed holder (e.spelling + j) := by
  cases e with
  | call f args via p =>
    obtain ⟨f', args', h⟩ := exists_uniform_call f args via p
    rw [h]
    rfl
  | assign op t v p =>
    rcases j with _ | _ | j
    · rfl
    · simp only [uniform, spelling, Nat.zero_add, handed, strip_uniform, name?_uniform]
    · rfl
  | _ => rfl

end Spots

end Expr

/-- A place of an expression at `addr`, and where it is found in the uniform form at `addr'`. -/
structure Spot.Goes (e : Expr) (addr addr' : Address) (s s' : Spot) : Prop where
  moved : ∃ path path', e.Moved path path' ∧ s.address = addr ++ path ∧ s'.address = addr' ++ path'
  expr : s'.expr = s.expr.uniform
  assignedTo : s'.assignedTo = s.assignedTo

namespace Expr

theorem spot_goes (holder : Option String) (addr addr' : Address) (e : Expr) :
    Spot.Goes e addr addr' (e.spot holder addr) (e.uniform.spot holder addr') := by
  have haddr : ∀ (x : Expr) (a : Address), (x.spot holder a).address = a :=
    fun x a => by cases x <;> rfl
  refine ⟨⟨[], [], .here, ?_, ?_⟩, ?_, ?_⟩
  · rw [haddr, List.append_nil]
  · rw [haddr, List.append_nil]
  · rw [expr_spot, expr_spot]
  · cases e with
    | call f args via p =>
      obtain ⟨f', args', h⟩ := exists_uniform_call f args via p
      rw [h]
      rfl
    | assign op t v p => simp only [uniform, spot, assigned?, strip_uniform, name?_uniform]
    | _ => rfl

theorem forall₂_parts {R : Spot → Spot → Prop} {F F' : Expr × Nat → List Spot} {cs : List Expr}
    {k k' : Nat}
    (h : ∀ j c, cs[j]? = some c → List.Forall₂ R (F (c, k + j)) (F' (c.uniform, k' + j))) :
    List.Forall₂ R ((cs.zipIdx k).flatMap F) (((cs.map uniform).zipIdx k').flatMap F') := by
  induction cs generalizing k k' with
  | nil => exact .nil
  | cons c cs ih =>
    rw [List.map_cons, List.zipIdx_cons, List.zipIdx_cons, List.flatMap_cons, List.flatMap_cons]
    refine List.rel_append (h 0 c rfl) (ih fun j c' hj => ?_)
    have hnext := h (j + 1) c' hj
    rwa [← Nat.add_assoc, ← Nat.add_assoc, Nat.add_right_comm, Nat.add_right_comm k'] at hnext

/-- Each place that matters goes to one of the uniform form, in the same order. -/
theorem spots_go (e : Expr) (holder : Option String) (addr addr' : Address) :
    List.Forall₂ (Spot.Goes e addr addr') ((e.spotsIn holder addr).filter (!·.expr.isBare))
      ((e.uniform.spotsIn holder addr').filter (!·.expr.isBare)) := by
  induction e using child_induction generalizing holder addr addr' with
  | step e ih =>
    rw [filter_spotsIn, filter_spotsIn, parts_uniform]
    refine List.rel_append ?_ (forall₂_parts fun j c hj => ?_)
    · simp only [List.filter_singleton, expr_spot, isBare_uniform]
      cases e.isBare with
      | true => exact .nil
      | false => exact .cons (spot_goes holder addr addr' e) .nil
    · -- The addresses differ only in what was skipped in front of the parts.
      have hmem : c ∈ e.children := List.mem_of_mem_drop (List.mem_of_getElem? hj)
      simp only [handed_uniform]
      refine (ih c hmem _ (addr ++ [e.spelling + j]) (addr' ++ [e.uniform.spelling + j])).imp
        fun s s' hs => ?_
      obtain ⟨⟨path, path', hm, ha, ha'⟩, hexpr, hto⟩ := hs
      refine ⟨⟨_, _, .part hj hm, ?_, ?_⟩, hexpr, hto⟩
      · rw [ha, List.append_assoc, List.singleton_append]
      · rw [ha', List.append_assoc, List.singleton_append]

section Conditions

def Fixed (e : Expr) (addr : Address) (x : Expr) : Prop :=
  ∀ a a', x.Moved a a' → e.Moved (addr ++ a) (addr ++ a')

theorem Fixed.child {e x c : Expr} {addr : Address} {n : Nat} (h : e.Fixed addr x)
    (hs : x.spelling = 0) (hu : x.uniform.spelling = 0) (hc : x.children[n]? = some c) :
    e.Fixed (addr ++ [n]) c := by
  intro a a' hm
  have hpart : x.Moved ((x.spelling + n) :: a) ((x.uniform.spelling + n) :: a') :=
    .part (by rw [hs, List.drop_zero]; exact hc) hm
  rw [hs, hu, Nat.zero_add] at hpart
  rw [List.append_assoc, List.append_assoc]
  exact h _ _ hpart

theorem Fixed.strip {e : Expr} : {x : Expr} → {addr : Address} → e.Fixed addr x →
    e.Fixed (x.stripAt addr).1 (x.stripAt addr).2
  | cast _ x _, _, h => (h.child (n := 0) (c := x) rfl rfl rfl).strip
  | name .., _, h | literal .., _, h | ellipsis .., _, h | call .., _, h | member .., _, h
  | index .., _, h | unary .., _, h | binary .., _, h | conditional .., _, h | assign .., _, h
  | initList .., _, h | verbatim .., _, h => h

theorem stripAt_uniform : (e : Expr) → (addr : Address) →
    e.uniform.stripAt addr = ((e.stripAt addr).1, (e.stripAt addr).2.uniform)
  | cast t e p, addr => stripAt_uniform e (addr ++ [0])
  | call f args via p, addr => by
    obtain ⟨f', args', h⟩ := exists_uniform_call f args via p
    simp only [stripAt, h]
  | name .., _ | literal .., _ | ellipsis .., _ | member .., _ | index .., _ | unary .., _
  | binary .., _ | conditional .., _ | assign .., _ | initList .., _ | verbatim .., _ => rfl

/-- Whether a condition shows a failure is asked about parts that stay where they are. -/
theorem failureBranch_uniform (s : Settings) (cond : Expr)
    {subject subject' : Address → Expr → Bool}
    (h : ∀ addr x, cond.Fixed addr x → subject' addr x.uniform = subject addr x) :
    s.failureBranch cond.uniform subject' = s.failureBranch cond subject := by
  have hfix : cond.Fixed (cond.stripAt []).1 (cond.stripAt []).2 := Fixed.strip fun _ _ hm => hm
  simp only [Settings.failureBranch, stripAt_uniform]
  generalize cond.stripAt [] = place at hfix ⊢
  obtain ⟨addr, c⟩ := place
  have hself : subject' addr c.uniform = subject addr c := h addr c hfix
  cases c with
  | call f args via p =>
    obtain ⟨f', args', hcall⟩ := exists_uniform_call f args via p
    rw [hcall] at hself
    simp only [hcall, hself]
  | binary op l r p =>
    have hl := h _ _ (hfix.child (n := 0) rfl rfl rfl)
    have hr := h _ _ (hfix.child (n := 1) rfl rfl rfl)
    rw [uniform] at hself
    simp only [uniform, hself, hl, hr, isStatusOk_uniform]
  | unary op x side p =>
    have hx := h _ _ (hfix.child (n := 0) rfl rfl rfl)
    rw [uniform] at hself
    cases op <;> simp only [uniform, hself, hx]
  | _ =>
    rw [uniform] at hself
    simp only [uniform, hself]

end Conditions

end Expr

end JniContracts
