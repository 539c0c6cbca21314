import Mathlib.Data.List.Find
import JniContracts.Proofs.Release
import JniContracts.Proofs.Spelling.Parts
import JniContracts.Proofs.Splitting.Search

/-!
What rules look for in the declarations behind a site. The initialisers of a declaration show signs
that settle or break a rule. Where they are evaluated at one point the first sign in the order of
the rule counts, and where they stand in consecutive declarations the first initialiser that shows a
sign. A rule is indifferent to a declaration if the two come to the same.
-/

namespace JniContracts

open Flow

structure Sign where
  shown : Expr → Bool
  settles : Bool

namespace Sign

def verdict (a : Sign) : Verdict := if a.settles then .satisfied else .violated

/-- The verdict on expressions that are evaluated at one point: that of the first sign shown by one
of them. -/
def judge (signs : List Sign) (es : List Expr) : Verdict :=
  ((signs.find? fun a => es.any a.shown).map verdict).getD .pending

variable {signs : List Sign} {es es' : List Expr}

theorem verdict_ne_pending (a : Sign) : a.verdict ≠ .pending := by
  rw [verdict]
  split <;> simp

theorem judge_nil : judge signs [] = .pending := by
  rw [judge, List.find?_eq_none.mpr fun a _ => by simp]
  rfl

theorem judge_cons (a : Sign) :
    judge (a :: signs) es = if es.any a.shown then a.verdict else judge signs es := by
  rw [judge, List.find?_cons]
  split <;> simp_all [judge]

theorem judge_of_find? {a : Sign} (h : signs.find? (fun a => es.any a.shown) = some a) :
    judge signs es = a.verdict := by
  rw [judge, h]
  rfl

theorem judge_eq_pending_iff : judge signs es = .pending ↔ ∀ a ∈ signs, es.any a.shown = false := by
  cases hfind : signs.find? fun a => es.any a.shown with
  | none =>
    simp only [judge, hfind, Option.map_none, Option.getD_none, true_iff]
    exact fun a ha => Bool.eq_false_iff.mpr (List.find?_eq_none.mp hfind a ha)
  | some a =>
    have hshown := List.find?_some (p := fun a : Sign => es.any a.shown) hfind
    rw [judge_of_find? hfind]
    refine ⟨fun h => absurd h a.verdict_ne_pending, fun h => ?_⟩
    rw [h a (List.mem_of_find?_eq_some hfind)] at hshown
    cases hshown

theorem judge_append_of_pending (h : judge signs es = .pending) :
    judge signs (es ++ es') = judge signs es' := by
  have hfind :
      signs.find? (fun a => (es ++ es').any a.shown) = signs.find? fun a => es'.any a.shown :=
    List.find?_congr fun a ha => by
      rw [List.any_append, judge_eq_pending_iff.mp h a ha, Bool.false_or]
  rw [judge, hfind, judge]

/-- If none of several groups of expressions outweighs what the first one shows, all of them
together do not. -/
theorem judge_append_flatten {groups : List (List Expr)} (h : judge signs es ≠ .pending)
    (hgroups : ∀ es' ∈ groups, judge signs (es ++ es') = judge signs es) :
    judge signs (es ++ groups.flatten) = judge signs es := by
  cases hfind : signs.find? fun a => (es ++ groups.flatten).any a.shown with
  | none =>
    refine absurd (judge_eq_pending_iff.mpr fun a ha => ?_) h
    have hnone := List.find?_eq_none.mp hfind a ha
    rw [List.any_append, Bool.or_eq_true, not_or] at hnone
    exact Bool.eq_false_iff.mpr hnone.1
  | some a =>
    rw [judge_of_find? hfind]
    obtain ⟨hshown, pre, post, hsigns, hpre⟩ := List.find?_eq_some_iff_append.mp hfind
    -- The sign is the first one also for fewer expressions, if they show it.
    have hfirst :
        ∀ fewer : List Expr, (∀ e ∈ fewer, e ∈ es ++ groups.flatten) → fewer.any a.shown = true →
        judge signs fewer = a.verdict := by
      intro fewer hsub hfewer
      refine judge_of_find?
        (List.find?_eq_some_iff_append.mpr ⟨hfewer, pre, post, hsigns, fun b hb => ?_⟩)
      have hb := hpre b hb
      rw [Bool.not_eq_true', List.any_eq_false] at hb ⊢
      exact fun e he => hb e (hsub e he)
    rw [List.any_append, Bool.or_eq_true] at hshown
    rcases hshown with hes | hgroup
    · exact (hfirst es (fun e he => List.mem_append_left _ he) hes).symm
    · obtain ⟨e, he, hea⟩ := List.any_eq_true.mp hgroup
      obtain ⟨group, hmem, he⟩ := List.mem_flatten.mp he
      rw [← hgroups group hmem]
      refine (hfirst (es ++ group) (fun x hx => ?_) ?_).symm
      · exact (List.mem_append.mp hx).elim (List.mem_append_left _) fun hx =>
          List.mem_append_right _ (List.mem_flatten_of_mem hmem hx)
      · exact List.any_eq_true.mpr ⟨e, List.mem_append_right _ he, hea⟩

/-- What the earlier of two groups of expressions shows is not outweighed by the later one. -/
def Decides (signs : List Sign) (es es' : List Expr) : Prop :=
  judge signs es = .pending ∨ judge signs (es ++ es') = judge signs es

instance : Decidable (Decides signs es es') := inferInstanceAs (Decidable (_ ∨ _))

/-- Evaluating groups of expressions one after the other comes to the same as evaluating them at one
point. -/
theorem firstVerdict_judge {groups : List (List Expr)} (h : groups.Pairwise (Decides signs)) :
    firstVerdict (judge signs) groups = judge signs groups.flatten := by
  induction groups with
  | nil => exact judge_nil.symm
  | cons es groups ih =>
    obtain ⟨hes, hrest⟩ := List.pairwise_cons.mp h
    rw [firstVerdict, List.flatten_cons]
    split
    · rename_i hpending
      rw [judge_append_of_pending hpending]
      exact ih hrest
    · rename_i hshown
      exact (judge_append_flatten hshown fun es' hes' => (hes es' hes').resolve_left hshown).symm

end Sign

namespace Scene

def exceptionVerdict (scene : Scene) (rule : Rule) (site : Site) (el : Element) : Verdict :=
  let s := scene.settings
  if scene.handles rule.handler el then .satisfied
  else if el.calls.any s.isHazard then .violated
  else
    match site.assignedTo with
    | some var =>
      if Expr.readsAny var el.exprs then
        if el.role == .cond && s.nullTested el.exprs var true then
          if rule.handler == .handled then .satisfied else .pending
        else .violated
      else .pending
    | none => .pending

def nullVerdict (s : Settings) (var : String) (el : Element) : Verdict :=
  if s.nullTested el.exprs var (el.role == .cond) then .satisfied
  else if Expr.readsAny var el.exprs then .violated
  else if el.exprs.any (Expr.assigns var) then .satisfied
  else .pending

def signs (scene : Scene) (c : CompiledRule) (site : Site) : List Sign :=
  let s := scene.settings
  let var := site.bindings.get? "VAR"
  match c.rule.kind with
  | .exceptionCheck =>
    [⟨fun e => c.rule.handler == .handled && e.calls.any (·.calls s.exceptionChecks), true⟩,
      ⟨fun e => c.rule.handler == .handled && e.calls.any (·.calls s.exceptionClear), true⟩,
      ⟨fun e => e.calls.any s.isHazard, false⟩,
      ⟨fun e => site.assignedTo.any e.reads, false⟩]
  | .nullCheck =>
    [⟨fun e => var.any fun v => e.walk.any (s.testsNull v), true⟩,
      ⟨fun e => var.any e.reads, false⟩,
      ⟨fun e => var.any e.assigns, true⟩]
  | .release =>
    [⟨fun e => c.requires.any fun p => !(Patterns.inExprs [p] [e] site.bindings).isEmpty, true⟩,
      ⟨fun e => var.any fun v => c.rule.escapeOnReturn && e.walk.any (stores scene.function v),
      true⟩,
      ⟨fun e => var.any e.assigns, false⟩]
  | .loopException | .loopInvariant => []

section Declared

variable {scene : Scene} {c : CompiledRule} {site : Site} {el : Element}

theorem any_any_comm {α : Type} (o : Option α) (es : List Expr) (p : α → Expr → Bool) :
    (es.any fun e => o.any fun a => p a e) = o.any fun a => es.any (p a) := by
  cases o <;> simp

theorem any_reads (o : Option String) (es : List Expr) :
    (es.any fun e => o.any e.reads) = o.any fun v => Expr.readsAny v es := by
  simp only [Expr.readsAny_eq]
  exact any_any_comm o es fun v e => e.reads v

/-- A statement that only evaluates deals with an exception by asking for it or clearing it. -/
theorem handles_stmt (handler : Handler) (h : el.role = .stmt) :
    scene.handles handler el =
    (handler == .handled && (callsOne scene.settings.exceptionChecks el.exprs ||
      callsOne scene.settings.exceptionClear el.exprs)) := by
  rw [handles, h]
  cases callsOne scene.settings.exceptionChecks el.exprs <;> simp

theorem exceptionVerdict_stmt (hkind : c.rule.kind = .exceptionCheck) (h : el.role = .stmt) :
    scene.exceptionVerdict c.rule site el = Sign.judge (scene.signs c site) el.exprs := by
  have hcalls :
      ∀ names, (el.exprs.any fun e => c.rule.handler == .handled && e.calls.any (·.calls names)) =
      (c.rule.handler == .handled && callsOne names el.exprs) :=
    fun _ => List.and_any_distrib_left.symm
  have hhazard :
      (el.exprs.any fun e => e.calls.any scene.settings.isHazard) =
      el.calls.any scene.settings.isHazard := List.any_flatMap.symm
  simp only [exceptionVerdict, signs, hkind, Sign.judge_cons, handles_stmt c.rule.handler h, hcalls,
    hhazard, any_reads]
  rw [h]
  cases c.rule.handler == .handled <;> cases callsOne scene.settings.exceptionChecks el.exprs <;>
    cases callsOne scene.settings.exceptionClear el.exprs <;>
      cases el.calls.any scene.settings.isHazard <;>
    cases site.assignedTo <;> simp [Sign.verdict, Sign.judge]

theorem nullVerdict_stmt {var : String} (hkind : c.rule.kind = .nullCheck)
    (hvar : site.bindings.get? "VAR" = some var) (h : el.role = .stmt) :
    nullVerdict scene.settings var el = Sign.judge (scene.signs c site) el.exprs := by
  have htested : scene.settings.nullTested el.exprs var (el.role == .cond) =
      el.exprs.any fun e => e.walk.any (scene.settings.testsNull var) := by
    rw [h, show (Role.stmt == Role.cond) = false from rfl]
    simp [Settings.nullTested]
  simp only [nullVerdict, signs, hkind, Sign.judge_cons, htested, hvar, Option.any_some,
    Expr.readsAny_eq]
  rfl

theorem releaseVerdict_stmt (hkind : c.rule.kind = .release) (h : el.role = .stmt) :
    scene.releaseVerdict c site el = Sign.judge (scene.signs c site) el.exprs := by
  have hreleases :
      (el.exprs.any fun e => c.requires.any fun p =>
        !(Patterns.inExprs [p] [e] site.bindings).isEmpty) =
      releases c.requires site.bindings el := by
    rw [releases, Bool.eq_iff_iff]
    simp only [List.any_eq_true]
    constructor
    · rintro ⟨e, he, p, hp, hin⟩
      exact ⟨p, hp, e, he, hin⟩
    · rintro ⟨p, hp, e, he, hin⟩
      exact ⟨e, he, p, hp, hin⟩
  have hescapes : (el.exprs.any fun e => (site.bindings.get? "VAR").any fun v =>
      c.rule.escapeOnReturn && e.walk.any (stores scene.function v)) =
      (site.bindings.get? "VAR").any fun v => scene.escapes c.rule v el := by
    rw [any_any_comm (site.bindings.get? "VAR") el.exprs fun v e =>
      c.rule.escapeOnReturn && e.walk.any (stores scene.function v)]
    simp only [escapes, h, ← List.and_any_distrib_left]
    rfl
  have hassigns : (el.exprs.any fun e => (site.bindings.get? "VAR").any e.assigns) =
      (site.bindings.get? "VAR").any fun v => el.exprs.any (Expr.assigns v) := any_any_comm ..
  simp only [releaseVerdict, signs, hkind, Sign.judge_cons, hreleases, hescapes, hassigns]
  cases releases c.requires site.bindings el <;> simp [Sign.verdict, Sign.judge]

end Declared

end Scene

def Stmt.declarators : Stmt → List Declarator
  | simple (.decl _ ds _) => ds
  | _ => []

/-- The number of the name to which the expression with number `n` of a declaration gives a
value. -/
def Declarator.owner : Nat → List Declarator → Nat
  | _, [] => 0
  | n, d :: ds => if n < d.assignments.length then 0 else owner (n - d.assignments.length) ds + 1

theorem Declarator.owner_append {n : Nat} {d : Declarator} (h : n < d.assignments.length)
    (pre post : List Declarator) :
    owner ((pre.flatMap assignments).length + n) (pre ++ d :: post) = pre.length := by
  induction pre with
  | nil => simp [owner, h]
  | cons x pre ih =>
    have hsub :
        (x.assignments.length + (pre.flatMap assignments).length) + n - x.assignments.length =
        (pre.flatMap assignments).length + n := by omega
    rw [List.cons_append, owner, List.flatMap_cons, List.length_append, if_neg (by omega), hsub, ih,
      List.length_cons]

namespace Site

def namesAhead (site : Site) (s : Stmt) : List Declarator :=
  s.declarators.take (Declarator.owner site.root s.declarators)

def namesBehind (site : Site) (s : Stmt) : List Declarator :=
  s.declarators.drop (Declarator.owner site.root s.declarators + 1)

end Site

namespace Scene

def verdictOn (scene : Scene) (c : CompiledRule) (site : Site) (d : Declarator) : Verdict :=
  Sign.judge (scene.signs c site) d.assignments

/-- A rule comes to the same behind a site whether the names of a declaration are declared together
or one after the other. Around a site in the declaration the other initialisers show nothing; in
front of it they may break the rule, as the site itself does when it runs again. For a site
elsewhere no initialiser shows what would have outweighed an earlier one. -/
def Indifferent (scene : Scene) (c : CompiledRule) (site : Site) (el : Element) : Prop :=
  if el.key = site.element.key then
    (∀ d ∈ site.namesAhead el.stmt, scene.verdictOn c site d = .pending ∨
      c.rule.kind ≠ .nullCheck ∧ scene.verdictOn c site d = .violated) ∧
    ∀ d ∈ site.namesBehind el.stmt, scene.verdictOn c site d = .pending
  else (el.stmt.declarators.map Declarator.assignments).Pairwise (Sign.Decides (scene.signs c site))

instance (scene : Scene) (c : CompiledRule) (site : Site) (el : Element) :
    Decidable (scene.Indifferent c site el) := by
  delta Indifferent
  infer_instance

def Tolerates (scene : Scene) (c : CompiledRule) (chosen : Address → Bool) (site : Site) : Prop :=
  ∀ el ∈ scene.function.body.elements, el.role = .stmt → chosen el.address = true →
    scene.Indifferent c site el

instance (scene : Scene) (c : CompiledRule) (chosen : Address → Bool) (site : Site) :
    Decidable (scene.Tolerates c chosen site) := by
  delta Tolerates
  infer_instance

end Scene

end JniContracts
