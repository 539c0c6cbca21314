import JniContracts.Proofs.Spelling.Patterns
import JniContracts.Rule.Scene

/-!
The parts of an expression and the parts of its uniform form. A spelled interface call has parts
that only spell it: its function and the pointer that is repeated in front of its own arguments.
What a walk looks for is not in them, apart from the name of the pointer.
-/

namespace JniContracts

namespace Expr

def spelling : Expr → Nat
  | call f args true _ => if (f.spelled? args).isSome then f.repeated + 1 else 0
  | _ => 0

def isBare (e : Expr) : Bool :=
  match e.strip with
  | name .. | member .. | unary .deref .. => true
  | _ => false

theorem isBare_uniform (e : Expr) : e.uniform.isBare = e.isBare := by
  rw [isBare, isBare, strip_uniform]
  cases e.strip with
  | unary op e side p => cases op <;> rfl
  | call f args via p =>
    obtain ⟨f', args', h⟩ := exists_uniform_call f args via p
    rw [h]
  | _ => rfl

theorem spelling_spelled {f : Expr} {args : List Expr} {r n : String}
    (h : f.spelled? args = some (r, n)) (p : Pos) :
    (call f args true p).spelling = f.repeated + 1 := by
  simp only [spelling, h, Option.isSome_some, if_true]

theorem spelling_plain {f : Expr} {args : List Expr} {via : Bool}
    (h : via = true → f.spelled? args = none) (p : Pos) : (call f args via p).spelling = 0 := by
  cases via with
  | false => rfl
  | true => simp [spelling, h]

theorem spelled?_pointer (r n : String) (p q : Pos) (args : List Expr) :
    (member (name r p) n true q).spelled? args = some (r, n) := rfl

theorem parts_uniform (e : Expr) :
    e.uniform.children.drop e.uniform.spelling = (e.children.drop e.spelling).map uniform := by
  cases e with
  | call f args via p =>
    rcases spelled_or_plain f args via with ⟨r, n, rfl, h⟩ | h
    · rw [uniform_spelled h, spelling_spelled h, spelling_spelled (spelled?_pointer ..)]
      rfl
    · have hu : via = true → f.uniform.spelled? (args.map uniform) = none := fun hvia => by
        rw [spelled?_uniform, h hvia]
      rw [uniform_plain h, spelling_plain h, spelling_plain hu]
      rfl
  | initList es p =>
    simp only [uniform, uniformAll_eq]
    rfl
  | _ => rfl

section Walks

variable {P : Expr → Bool} {Q : String → Bool}

theorem any_walk_strip (hbare : ∀ e, e.isBare = true → P e = e.name?.any Q) :
    (e : Expr) → e.isBare = true → e.walk.any P = e.strip.walk.any P
  | cast t e p, h => by
    have hcast : P (cast t e p) = false := hbare _ h
    rw [walk, List.any_cons, hcast, Bool.false_or, strip]
    exact any_walk_strip hbare e h
  | name .., _ | literal .., _ | ellipsis .., _ | call .., _ | member .., _ | index .., _
  | unary .., _ | binary .., _ | conditional .., _ | assign .., _ | initList .., _
  | verbatim .., _ => rfl

theorem any_walk_name (hbare : ∀ e, e.isBare = true → P e = e.name?.any Q) {a : Expr} {r : String}
    {q : Pos} (ha : a.strip = name r q) : a.walk.any P = Q r := by
  have hP : P (name r q) = Q r := hbare (name r q) rfl
  rw [any_walk_strip hbare a (by rw [isBare, ha]), ha, walk, List.any_cons, hP, List.any_nil,
    Bool.or_false]

/-- Nothing but the name of the pointer is found in what spells a call. -/
theorem any_spelling (hbare : ∀ e, e.isBare = true → P e = e.name?.any Q) {f : Expr}
    {args : List Expr} {r n : String} (h : f.spelled? args = some (r, n)) :
    ((f :: args).take (f.repeated + 1)).any (·.walk.any P) = Q r := by
  have hs := spells_of_spelled? h
  generalize args.drop f.repeated = own at hs
  cases hs with
  | @table obj _ p _ q side q' a own hobj ha =>
    -- The pointer is named twice, in the function and as the first argument.
    have hrep : (member obj n true p).repeated = 1 := by simp [repeated, tablePointer?, hobj]
    have hmember : P (member obj n true p) = false := hbare _ rfl
    have hderef : P (unary .deref (name r q) side q') = false := hbare _ rfl
    have hpointer : obj.walk.any P = Q r := by
      rw [any_walk_strip hbare obj (by rw [isBare, hobj]), hobj, walk, List.any_cons, hderef,
        Bool.false_or]
      exact any_walk_name hbare rfl
    have harg : a.walk.any P = Q r := by
      cases hstrip : a.strip with
      | name r' q' =>
        rw [hstrip] at ha
        cases ha
        exact any_walk_name hbare hstrip
      | _ =>
        rw [hstrip] at ha
        cases ha
    simp only [hrep, List.take_succ_cons, List.take_zero, List.any_cons, List.any_nil, walk,
      hmember, hpointer, harg, Bool.false_or, Bool.or_false, Bool.or_self]
  | @pointer obj _ p _ q _ hobj =>
    have hrep : (member obj n true p).repeated = 0 := by simp [repeated, tablePointer?, hobj]
    have hmember : P (member obj n true p) = false := hbare _ rfl
    simp only [hrep, List.take_succ_cons, List.take_zero, List.any_cons, List.any_nil, walk,
      hmember, any_walk_name hbare hobj, Bool.false_or, Bool.or_false]

theorem any_spelling_uniform (hbare : ∀ e, e.isBare = true → P e = e.name?.any Q) (e : Expr) :
    (e.uniform.children.take e.uniform.spelling).any (·.walk.any P) =
      (e.children.take e.spelling).any (·.walk.any P) := by
  cases e with
  | call f args via p =>
    rcases spelled_or_plain f args via with ⟨r, n, rfl, h⟩ | h
    · have hu :
          (member (name r p.flat) n true p.flat).spelled? ((args.drop f.repeated).map uniform) =
          some (r, n) := rfl
      rw [uniform_spelled h, spelling_spelled h, spelling_spelled hu]
      exact (any_spelling hbare hu).trans (any_spelling hbare h).symm
    · have hu : via = true → f.uniform.spelled? (args.map uniform) = none := fun hvia => by
        rw [spelled?_uniform, h hvia]
      rw [uniform_plain h, spelling_plain h, spelling_plain hu]
      rfl
  | _ => rfl

/-- A walk finds in the uniform form what it finds in the expression. -/
theorem any_walk_uniform (hP : ∀ e, P e.uniform = P e)
    (hbare : ∀ e, e.isBare = true → P e = e.name?.any Q) (e : Expr) :
    e.uniform.walk.any P = e.walk.any P := by
  induction e using child_induction with
  | step e ih =>
    have hparts : ((e.children.drop e.spelling).map uniform).any (·.walk.any P) =
        (e.children.drop e.spelling).any (·.walk.any P) := by
      rw [List.any_map]
      exact any_congr_of_mem fun c hc => ih c (List.mem_of_mem_drop hc)
    rw [walk_eq, walk_eq e, List.any_cons, List.any_cons, hP, List.any_flatMap, List.any_flatMap,
      ← List.take_append_drop e.uniform.spelling e.uniform.children,
      ← List.take_append_drop e.spelling e.children,
      List.any_append, List.any_append, parts_uniform, hparts, any_spelling_uniform hbare]

/-- What is found neither at names nor at members, and not at what is pointed to, is not in what
spells a call. -/
theorem any_walk_uniform_of_absent (hP : ∀ e, P e.uniform = P e)
    (hname : ∀ n p, P (name n p) = false)
    (hmember : ∀ o attr arrow p, P (member o attr arrow p) = false)
    (hderef : ∀ e side p, P (unary .deref e side p) = false)
    (hcast : ∀ t e p, P (cast t e p) = false) (e : Expr) : e.uniform.walk.any P = e.walk.any P := by
  refine any_walk_uniform (Q := fun _ => false) hP (fun e he => ?_) e
  cases e with
  | name n p => exact hname n p
  | member o attr arrow p => exact hmember o attr arrow p
  | cast t e p => exact hcast t e p
  | unary op e side p =>
    cases op with
    | deref => exact hderef e side p
    | _ => cases he
  | _ => cases he

end Walks

section Reading

theorem reads_strip (var : String) : (e : Expr) → e.strip.reads var = e.reads var
  | cast t e p => by
    rw [strip, reads]
    exact reads_strip var e
  | name .. | literal .. | ellipsis .. | call .. | member .. | index .. | unary .. | binary ..
  | conditional .. | assign .. | initList .. | verbatim .. => rfl

theorem readsAny_eq (var : String) (es : List Expr) : readsAny var es = es.any (reads var) := by
  induction es with
  | nil => rfl
  | cons e es ih => rw [readsAny, ih, List.any_cons]

theorem Spells.reads (var : String) {f : Expr} {args own : List Expr} {r n : String}
    (h : Spells f args r n own) :
    (f.reads var || args.any (Expr.reads var)) = (r == var || own.any (Expr.reads var)) := by
  cases h with
  | @table obj _ p _ q side q' a own hobj ha =>
    have hpointer : obj.reads var = (r == var) := by
      rw [← reads_strip, hobj, Expr.reads, Expr.reads]
    have harg : a.reads var = (r == var) := by
      rw [← reads_strip]
      cases hstrip : a.strip with
      | name r' q' =>
        rw [hstrip] at ha
        cases ha
        rfl
      | _ =>
        rw [hstrip] at ha
        cases ha
    rw [Expr.reads, List.any_cons, hpointer, harg, ← Bool.or_assoc, Bool.or_self]
  | @pointer obj _ p _ q _ hobj => rw [Expr.reads, ← reads_strip, hobj, Expr.reads]

theorem reads_uniform (var : String) (e : Expr) : e.uniform.reads var = e.reads var := by
  induction e using child_induction with
  | step e ih =>
    cases e with
    | call f args via p =>
      have hargs : ∀ own, own ⊆ args → (own.map uniform).any (reads var) = own.any (reads var) :=
        fun own hown => by
        rw [List.any_map]
        exact any_congr_of_mem fun a ha => ih a (List.mem_cons_of_mem _ (hown ha))
      rcases spelled_or_plain f args via with ⟨r, n, rfl, h⟩ | h
      · rw [uniform_spelled h]
        simp only [reads, readsAny_eq]
        rw [(spells_of_spelled? h).reads var, hargs _ (List.drop_subset _ _)]
      · rw [uniform_plain h]
        simp only [reads, readsAny_eq, ih f List.mem_cons_self, hargs _ (List.Subset.refl _)]
    | assign op t v p =>
      have ht := ih t (by simp [children])
      have hv := ih v (by simp [children])
      simp only [uniform, reads, strip_uniform, hv]
      cases t.strip with
      | call f args via q =>
        obtain ⟨f', args', h⟩ := exists_uniform_call f args via q
        simp only [h, ht]
      | _ => simp only [uniform, ht]
    | initList es p =>
      simp only [uniform, reads, uniformAll_eq, readsAny_eq, List.any_map]
      exact any_congr_of_mem ih
    | _ => simp_all [uniform, reads, children]

theorem readsAny_uniform (var : String) (es : List Expr) :
    readsAny var (es.map uniform) = readsAny var es := by
  rw [readsAny_eq, readsAny_eq, List.any_map]
  exact any_congr_of_mem fun e _ => reads_uniform var e

end Reading

section Tests

theorem isVar_uniform (var : String) (e : Expr) : e.uniform.isVar var = e.isVar var := by
  simp only [isVar, strip_uniform]
  cases e.strip with
  | call f args via p =>
    obtain ⟨f', args', h⟩ := exists_uniform_call f args via p
    rw [h]
  | assign op t v p => cases op <;> simp only [uniform, strip_uniform, name?_uniform]
  | _ => rfl

theorem isOneOf_uniform (names : List String) (e : Expr) :
    Settings.isOneOf names e.uniform = Settings.isOneOf names e := by
  simp only [Settings.isOneOf, strip_uniform]
  cases e.strip with
  | call f args via p =>
    obtain ⟨f', args', h⟩ := exists_uniform_call f args via p
    rw [h]
  | _ => rfl

theorem isNull_uniform (s : Settings) (e : Expr) : s.isNull e.uniform = s.isNull e :=
  isOneOf_uniform ..

theorem isStatusOk_uniform (s : Settings) (e : Expr) : s.isStatusOk e.uniform = s.isStatusOk e :=
  isOneOf_uniform ..

theorem rootName?_uniform : (e : Expr) → e.uniform.rootName? = e.rootName?
  | cast t e p => by simp only [uniform, rootName?, rootName?_uniform e]
  | member e a b p => by simp only [uniform, rootName?, rootName?_uniform e]
  | index e i p => by simp only [uniform, rootName?, rootName?_uniform e]
  | unary op e side p => by
    cases op with
    | deref => simp only [uniform, rootName?, rootName?_uniform e]
    | _ => rfl
  | call f args via p => apply_uniform_call rootName? fun _ _ => rfl
  | name .. | literal .. | ellipsis .. | binary .. | conditional .. | assign .. | initList ..
  | verbatim .. => rfl

theorem testsNull_uniform (s : Settings) (var : String) (e : Expr) :
    s.testsNull var e.uniform = s.testsNull var e := by
  cases e with
  | call f args via p => exact apply_uniform_call (s.testsNull var) fun _ _ => rfl
  | unary op e side p => cases op <;> simp only [uniform, Settings.testsNull, isVar_uniform]
  | _ => simp only [uniform, Settings.testsNull, isVar_uniform, isNull_uniform]

theorem nullBranch_uniform (s : Settings) (cond : Expr) (var : String) :
    s.nullBranch cond.uniform var = s.nullBranch cond var := by
  have hvar : cond.strip.uniform.isVar var = cond.strip.isVar var := isVar_uniform var cond.strip
  simp only [Settings.nullBranch, strip_uniform]
  cases hc : cond.strip with
  | call f args via p =>
    obtain ⟨f', args', h⟩ := exists_uniform_call f args via p
    rw [hc, h] at hvar
    simp only [h, hvar]
  | unary op e side p =>
    rw [hc, uniform] at hvar
    cases op <;> simp only [uniform, isVar_uniform, hvar]
  | binary op l r p =>
    rw [hc, uniform] at hvar
    cases op <;> simp only [uniform, isVar_uniform, isNull_uniform, hvar]
  | _ =>
    rw [hc, uniform] at hvar
    simp only [uniform, hvar]

def givesTo (var : String) : Expr → Bool
  | assign .set target _ _ => target.strip.name? == some var
  | _ => false

theorem givesTo_uniform (var : String) (e : Expr) : e.uniform.givesTo var = e.givesTo var := by
  cases e with
  | call f args via p => exact apply_uniform_call (givesTo var) fun _ _ => rfl
  | assign op t v p => cases op <;> simp only [uniform, givesTo, strip_uniform, name?_uniform]
  | _ => rfl

theorem assigns_uniform (var : String) (e : Expr) : e.uniform.assigns var = e.assigns var :=
  any_walk_uniform_of_absent (givesTo_uniform var) (fun _ _ => rfl) (fun _ _ _ _ => rfl)
    (fun _ _ _ => rfl) (fun _ _ _ => rfl) e

theorem nullTested_uniform (s : Settings) (es : List Expr) (var : String) (asCondition : Bool) :
    s.nullTested (es.map uniform) var asCondition = s.nullTested es var asCondition := by
  rw [Settings.nullTested, Settings.nullTested, List.any_map]
  refine any_congr_of_mem fun e _ => ?_
  have hwalk : e.uniform.walk.any (s.testsNull var) = e.walk.any (s.testsNull var) :=
    any_walk_uniform_of_absent (testsNull_uniform s var) (fun _ _ => rfl) (fun _ _ _ _ => rfl)
      (fun _ _ _ => rfl) (fun _ _ _ => rfl) e
  simp only [Function.comp_apply, isVar_uniform, hwalk]

/-- The variable that an expression changes at its root, or whose address it takes. -/
def changed? : Expr → Option String
  | assign _ target _ _ => target.rootName?
  | unary op operand _ _ => if op.isStep || op == .addr then operand.rootName? else none
  | _ => none

theorem modified_eq (e : Expr) : e.modified = e.walk.filterMap changed? := rfl

theorem changed?_uniform (e : Expr) : e.uniform.changed? = e.changed? := by
  cases e with
  | call f args via p => exact apply_uniform_call changed? fun _ _ => rfl
  | assign op t v p => exact rootName?_uniform t
  | unary op x side p => simp only [uniform, changed?, rootName?_uniform]
  | _ => rfl

theorem contains_modified (e : Expr) (var : String) :
    e.modified.contains var = e.walk.any fun x => x.changed? == some var := by
  rw [Bool.eq_iff_iff, List.contains_iff_mem, modified_eq, List.mem_filterMap, List.any_eq_true]
  simp only [beq_iff_eq]

theorem contains_modified_uniform (e : Expr) (var : String) :
    e.uniform.modified.contains var = e.modified.contains var := by
  rw [contains_modified, contains_modified]
  exact any_walk_uniform_of_absent (fun e => by rw [changed?_uniform]) (fun _ _ => rfl)
    (fun _ _ _ _ => rfl) (fun _ _ _ => rfl) (fun _ _ _ => rfl) e

theorem any_calls (q : Call → Bool) (e : Expr) :
    e.calls.any q = e.walk.any fun x => x.call?.any q := by
  rw [calls, Bool.eq_iff_iff, List.any_eq_true, List.any_eq_true]
  simp only [List.mem_filterMap, Option.any_eq_true]
  grind

theorem any_calls_uniform {q : Call → Bool} (hq : ∀ c : Call, q c.uniform = q c) (e : Expr) :
    e.uniform.calls.any q = e.calls.any q := by
  rw [any_calls, any_calls]
  refine any_walk_uniform_of_absent (fun e => ?_) (fun _ _ => rfl) (fun _ _ _ _ => rfl)
    (fun _ _ _ => rfl) (fun _ _ _ => rfl) e
  rw [call?_uniform, Option.any_map]
  exact congrArg e.call?.any (funext hq)

end Tests

end Expr

end JniContracts
