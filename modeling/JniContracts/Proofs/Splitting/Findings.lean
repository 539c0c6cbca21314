import JniContracts.Analysis
import JniContracts.Catalog.Builtin
import JniContracts.Proofs.Spelling.Findings
import JniContracts.Proofs.Splitting.Watches

/-!
The findings of a rule before and after declarations are split. A rule about loops has the same
findings. So has a rule that follows paths, if it is indifferent to the declarations that are split.
-/

namespace JniContracts

open Flow

namespace Scene

section Kept

variable {scene : Scene} {chosen : Address → Bool} {s s' : Site} {e e' : Element}

theorem handles_kept (he : e.Resembles e') (handler : Handler) :
    (scene.split chosen).handles handler e' = scene.handles handler e := by
  obtain ⟨chosen', hstmt⟩ := he.stmt
  simp only [handles, settings_split, he.exprs, he.role, hstmt, he.behind]
  cases e.role with
  | cond =>
    cases e.stmt with
    | ifElse c yes no p =>
      cases no with
      | none =>
        simp only [Stmt.split, Stmt.splitElse, Option.toList_none, List.any_cons, List.any_nil,
          Stmt.clears_split, Stmt.terminates_split]
      | some no =>
        simp only [Stmt.split, Stmt.splitElse, Option.toList_some, List.any_cons, List.any_nil,
          Stmt.clears_split, Stmt.terminates_split]
    | _ => rfl
  | _ => rfl

theorem exceptionVerdict_kept (hto : s'.assignedTo = s.assignedTo) (he : e.Resembles e')
    (rule : Rule) :
    (scene.split chosen).exceptionVerdict rule s' e' = scene.exceptionVerdict rule s e := by
  rw [exceptionVerdict, exceptionVerdict, handles_kept he, hto, Element.calls, Element.calls,
    he.exprs, he.role, settings_split]

theorem nullVerdict_kept (he : e.Resembles e') (settings : Settings) (var : String) :
    nullVerdict settings var e' = nullVerdict settings var e := by
  rw [nullVerdict, nullVerdict, he.exprs, he.role]

theorem stores_split (var : String) :
    stores (scene.split chosen).function var = stores scene.function var := by
  funext e
  cases e <;> rfl

theorem releaseVerdict_kept (hb : s'.bindings = s.bindings) (he : e.Resembles e')
    (c : CompiledRule) :
    (scene.split chosen).releaseVerdict c s' e' = scene.releaseVerdict c s e := by
  have hreleases : ∀ b, releases c.requires b e' = releases c.requires b e := fun b => by
    rw [releases, releases, he.exprs]
  have hescapes : ∀ var, (scene.split chosen).escapes c.rule var e' = scene.escapes c.rule var e :=
    fun var => by
    rw [escapes, escapes, stores_split, he.exprs, he.role]
  simp only [releaseVerdict, hreleases, hescapes, hb, he.exprs]

theorem exempts_kept (h : s.Persists (scene.function.body.rows chosen) s')
    (hr : ⟨e, [e']⟩ ∈ scene.function.body.rows chosen) (he : e.Resembles e') (rule : Rule)
    (k : Edge) : (scene.split chosen).exempts rule s' e' k = scene.exempts rule s e k := by
  have hsubject : ∀ status, isSubject s' status e' = isSubject s status e := by
    intro status
    funext place x
    have hplace :
        (e'.key == s'.element.key && s'.root == 0) = (e.key == s.element.key && s.root == 0) := by
      rw [Bool.eq_iff_iff]
      simp only [Bool.and_eq_true, beq_iff_eq]
      rw [h.key_iff_of_kept hr]
      exact and_congr_right fun hkey => by rw [(h.kept hr hkey).2]
    simp only [isSubject, hplace, h.spot]
  obtain ⟨chosen', hstmt⟩ := he.stmt
  simp only [exempts, settings_split, hsubject, h.bindings, h.assignedTo, hstmt, he.exprs]
  cases e.stmt <;> cases e.exprs <;> rfl

end Kept

section Breaking

variable {scene : Scene} {c : CompiledRule} {chosen : Address → Bool} {s s' : Site} {var : String}

theorem signs_split (h : s.Persists (scene.function.body.rows chosen) s') :
    (scene.split chosen).signs c s' = scene.signs c s := by
  simp only [signs, stores_split, h.bindings, h.assignedTo, settings_split]

def exceptionWatch (scene : Scene) (rule : Rule) (site : Site) : Watch :=
  ⟨scene.exceptionVerdict rule site, .violated, fun _ _ => false⟩

def nullWatch (s : Settings) (var : String) : Watch :=
  ⟨nullVerdict s var, .satisfied, fun _ _ => false⟩

def releaseWatch (scene : Scene) (c : CompiledRule) (site : Site) : Watch :=
  ⟨scene.releaseVerdict c site, .violated, scene.exempts c.rule site⟩

theorem exceptionWatch_agrees (h : s.Persists (scene.function.body.rows chosen) s')
    (hkind : c.rule.kind = .exceptionCheck) :
    Watch.Agrees scene c chosen s (scene.exceptionWatch c.rule s)
      ((scene.split chosen).exceptionWatch c.rule s') where
  again := rfl
  closes := by simp [exceptionWatch]
  breaks _ := rfl
  stmt _ hrole := exceptionVerdict_stmt hkind hrole
  stmt' el hrole := by
    rw [← signs_split h]
    exact exceptionVerdict_stmt hkind hrole
  kept _ _ _ he := ⟨exceptionVerdict_kept h.assignedTo he c.rule, fun _ => rfl⟩

theorem nullWatch_agrees (hkind : c.rule.kind = .nullCheck)
    (hvar : s.bindings.get? "VAR" = some var) :
    Watch.Agrees scene c chosen s (nullWatch scene.settings var)
      (nullWatch scene.settings var) where
  again := rfl
  closes := by simp [nullWatch]
  breaks hne := absurd hkind hne
  stmt _ hrole := nullVerdict_stmt hkind hvar hrole
  stmt' _ hrole := nullVerdict_stmt hkind hvar hrole
  kept _ _ _ he := ⟨nullVerdict_kept he scene.settings var, fun _ => rfl⟩

theorem releaseWatch_agrees (h : s.Persists (scene.function.body.rows chosen) s')
    (hkind : c.rule.kind = .release) :
    Watch.Agrees scene c chosen s (scene.releaseWatch c s)
      ((scene.split chosen).releaseWatch c s') where
  again := rfl
  closes := by simp [releaseWatch]
  breaks _ := rfl
  stmt _ hrole := releaseVerdict_stmt hkind hrole
  stmt' el hrole := by
    rw [← signs_split h]
    exact releaseVerdict_stmt hkind hrole
  kept _ _ hr he := ⟨releaseVerdict_kept h.bindings he c, exempts_kept h hr he c.rule⟩

def excused (scene : Scene) (rule : Rule) (site : Site) : Bool :=
  rule.handler == .handled && site.element.role == .cond &&
    site.assignedTo.any fun var => scene.settings.nullTested site.element.exprs var true

theorem breaksExceptionCheck_eq (rule : Rule) (site : Site) : scene.breaksExceptionCheck rule site =
    ((scene.start? site).isSome && (site.enclosingCalls.any scene.settings.isHazard ||
      (!scene.excused rule site && scene.fails site (scene.exceptionWatch rule site)))) := by
  have hbool :
      ∀ a b x : Bool, (if a then true else if b then false else x) =
      (true && (a || (!b && x))) := by decide
  rw [breaksExceptionCheck, fails, excused]
  cases scene.start? site with
  | none => rfl
  | some start => exact hbool ..

theorem breaksNullCheck_eq (rule : Rule) {site : Site}
    (hvar : site.bindings.get? "VAR" = some var) :
    scene.breaksNullCheck rule site =
    .ok (isIdentifier var && !scene.settings.nullTested site.element.exprs var (site.element.role ==
      .cond) && scene.fails site (nullWatch scene.settings var)) := by
  have hbool :
      ∀ a b x : Bool,
      (if !a then .ok false else if b then .ok false else .ok x : Except RuleError Bool) =
      .ok (a && !b && x) := by
    intro a b x
    cases a <;> cases b <;> rfl
  rw [breaksNullCheck, fails, hvar]
  cases scene.start? site with
  | none => simp
  | some start => exact hbool ..

theorem breaksRelease_eq (site : Site) :
    scene.breaksRelease c site = if c.rule.localOnly &&
      (site.bindings.get? "VAR").any (fun v => !isIdentifier v || !scene.function.locals.contains v)
    then false else scene.fails site (scene.releaseWatch c site) := by
  rw [breaksRelease, fails]
  cases scene.start? site <;> rfl

theorem excused_split (h : s.Persists (scene.function.body.rows chosen) s') (rule : Rule) :
    (scene.split chosen).excused rule s' = scene.excused rule s := by
  rw [excused, excused, h.assignedTo, h.reflects.role, settings_split]
  by_cases hrole : s.element.role = .cond
  · rw [h.exprs_of_role (by simp [hrole])]
  · rw [beq_eq_false_iff_ne.mpr hrole, Bool.and_false, Bool.false_and, Bool.false_and]

theorem any_testsNull_eq_false (hkind : c.rule.kind = .nullCheck)
    (hvar : s.bindings.get? "VAR" = some var) {up : List Stmt} {t : String} {q : Pos}
    {ds : List Declarator} {parts : List Element}
    (hparts : List.Forall₂ (Element.Declares up t q) ds parts)
    (h : ∀ d ∈ ds, scene.verdictOn c s d = .pending) :
    ((parts.flatMap Element.exprs).any fun e => e.walk.any (scene.settings.testsNull var)) =
    false := by
  rw [List.any_flatMap, List.any_eq_false]
  intro x hx
  obtain ⟨d, hd, hdx⟩ := exists_of_forall₂ hparts hx
  have hshown := Sign.judge_eq_pending_iff.mp (h d hd)
  simp only [signs, hkind, hvar, Option.any_some] at hshown
  rw [hdx.exprs]
  exact Bool.eq_false_iff.mp (hshown _ List.mem_cons_self)

theorem nullTested_split (h : s.Persists (scene.function.body.rows chosen) s')
    (hkind : c.rule.kind = .nullCheck) (hvar : s.bindings.get? "VAR" = some var)
    (hind : scene.Tolerates c chosen s) :
    scene.settings.nullTested s'.element.exprs var (s'.element.role == .cond) =
    scene.settings.nullTested s.element.exprs var (s.element.role == .cond) := by
  obtain ⟨r, hr, pre, post, hel, hparts, hroot⟩ := h.row
  have hcovers := scene.function.body.covers_rows chosen
  have hfits := hcovers.fits r hr
  have hexprs := hfits.exprs
  rw [h.reflects.role, hel]
  cases hfits with
  | kept he => rw [(h.kept hr (by rw [hel])).1, he.exprs]
  | @split addr t ds q up parts haddr hds hdeclares =>
    subst hparts
    have hnames := hind _ (hcovers.wholes ▸ List.mem_map_of_mem hr) rfl haddr
    rw [Indifferent, if_pos (by rw [hel])] at hnames
    obtain ⟨hahead, hbehind⟩ := names_around hdeclares hroot h.root
    have hpre := any_testsNull_eq_false hkind hvar hahead fun d hd =>
      (hnames.1 d hd).resolve_right fun hviolated => hviolated.1 hkind
    have hpost := any_testsNull_eq_false hkind hvar hbehind hnames.2
    rw [hexprs]
    show scene.settings.nullTested _ var false = scene.settings.nullTested _ var false
    simp only [Settings.nullTested, Bool.false_and, Bool.false_or, List.flatMap_append,
      List.flatMap_cons, List.any_append, hpre, hpost, Bool.or_false]

section Kinds

variable (hgraph : scene.graph = Flow.build scene.settings.exitFunctions scene.function)
  (h : s.Persists (scene.function.body.rows chosen) s')
include hgraph h

theorem breaksExceptionCheck_split (hkind : c.rule.kind = .exceptionCheck)
    (hind : scene.Tolerates c chosen s) :
    (scene.split chosen).breaksExceptionCheck c.rule s' = scene.breaksExceptionCheck c.rule s := by
  rw [breaksExceptionCheck_eq, breaksExceptionCheck_eq, isSome_start?_split hgraph h,
    h.enclosingCalls, settings_split, excused_split h,
    fails_split hgraph h (exceptionWatch_agrees h hkind) hind]

theorem breaksNullCheck_split (hkind : c.rule.kind = .nullCheck)
    (hind : scene.Tolerates c chosen s) :
    (scene.split chosen).breaksNullCheck c.rule s' = scene.breaksNullCheck c.rule s := by
  cases hvar : s.bindings.get? "VAR" with
  | none => rw [breaksNullCheck, breaksNullCheck, h.bindings, hvar]
  | some var =>
    rw [breaksNullCheck_eq c.rule (h.bindings ▸ hvar), breaksNullCheck_eq c.rule hvar,
      settings_split, nullTested_split h hkind hvar hind,
      fails_split hgraph h (nullWatch_agrees hkind hvar) hind]

theorem breaksRelease_split (hkind : c.rule.kind = .release) (hind : scene.Tolerates c chosen s) :
    (scene.split chosen).breaksRelease c s' = scene.breaksRelease c s := by
  have hlocals : (scene.split chosen).function.locals = scene.function.locals := rfl
  rw [breaksRelease_eq, breaksRelease_eq, h.bindings, hlocals,
    fails_split hgraph h (releaseWatch_agrees h hkind) hind]

end Kinds

end Breaking

variable {cond : Patterns}

section Loops

variable {scene : Scene} {chosen : Address → Bool} {s s' : Site}

theorem riskyLoop?_split (h : s.Persists (scene.function.body.rows chosen) s') :
    (scene.riskyLoop? s = none ∧ (scene.split chosen).riskyLoop? s' = none) ∨
    ∃ call loop loop', scene.riskyLoop? s = some (call, loop) ∧
    (scene.split chosen).riskyLoop? s' = some (call, loop') ∧ loop.Resembles loop' := by
  rw [riskyLoop?, riskyLoop?, h.expr, settings_split]
  cases s.expr.call? with
  | none => exact .inl ⟨rfl, rfl⟩
  | some call =>
    rcases getLast?_of_forall₂ h.loopsAround with ⟨hl, hl'⟩ | ⟨loop, loop', hl, hl', hloop⟩
    · rw [hl, hl']
      exact .inl ⟨rfl, rfl⟩
    · simp only [hl, hl']
      split
      · exact .inl ⟨rfl, rfl⟩
      · exact .inr ⟨call, loop, loop', rfl, rfl, hloop⟩

theorem matchesAny_split {up up' : List Stmt} (h : List.Forall₂ Stmt.Resembles up up')
    (cond : Patterns) (b : Bindings) :
    BlockPattern.matchesAny ⟨.branch, some cond, none, none⟩ up' b =
    BlockPattern.matchesAny ⟨.branch, some cond, none, none⟩ up b := by
  rw [BlockPattern.matchesAny, BlockPattern.matchesAny]
  induction h with
  | nil => rfl
  | @cons x x' up up' hx _ ih =>
    obtain ⟨chosen, rfl⟩ := hx
    have hinstances : BlockPattern.instances ⟨.branch, some cond, none, none⟩ (x.split chosen) b =
        BlockPattern.instances ⟨.branch, some cond, none, none⟩ x b := by
      cases x <;> rfl
    rw [List.any_cons, List.any_cons, ih, hinstances]

theorem breaksLoopException_split (h : s.Persists (scene.function.body.rows chosen) s')
    (hguard : scene.guard = ⟨.branch, some cond, none, none⟩) :
    (scene.split chosen).breaksLoopException s' = scene.breaksLoopException s := by
  have hguard' : (scene.split chosen).guard = ⟨.branch, some cond, none, none⟩ := hguard
  rw [breaksLoopException, breaksLoopException]
  rcases riskyLoop?_split h with ⟨hs, hs'⟩ | ⟨call, loop, _, hs, hs', chosen', rfl⟩
  · rw [hs, hs']
  · simp only [hs, hs', settings_split, hguard, hguard', Stmt.evaluated_split,
      matchesAny_split h.reflects.ancestors]

theorem breaksLoopInvariant_split (h : s.Persists (scene.function.body.rows chosen) s') :
    (scene.split chosen).breaksLoopInvariant s' = scene.breaksLoopInvariant s := by
  rw [breaksLoopInvariant, breaksLoopInvariant]
  rcases riskyLoop?_split h with ⟨hs, hs'⟩ | ⟨call, loop, _, hs, hs', chosen', rfl⟩
  · rw [hs, hs']
  · simp only [hs, hs', Stmt.modified_split]

end Loops

variable {scene : Scene} {c : CompiledRule} {chosen : Address → Bool}

theorem breaks_split (hgraph : scene.graph = Flow.build scene.settings.exitFunctions scene.function)
    (hguard : scene.guard = ⟨.branch, some cond, none, none⟩) {s s' : Site}
    (h : s.Persists (scene.function.body.rows chosen) s')
    (hind : c.rule.kind.isPathSensitive = true → scene.Tolerates c chosen s) :
    (scene.split chosen).breaks c s' = scene.breaks c s := by
  rw [breaks, breaks]
  cases hkind : c.rule.kind with
  | exceptionCheck =>
    exact congrArg Except.ok (breaksExceptionCheck_split hgraph h hkind (hind (by rw [hkind]; rfl)))
  | nullCheck => exact breaksNullCheck_split hgraph h hkind (hind (by rw [hkind]; rfl))
  | release =>
    exact congrArg Except.ok (breaksRelease_split hgraph h hkind (hind (by rw [hkind]; rfl)))
  | loopException => exact congrArg Except.ok (breaksLoopException_split h hguard)
  | loopInvariant => exact congrArg Except.ok (breaksLoopInvariant_split h)

/-- Splitting declarations to which a rule is indifferent keeps its findings. -/
theorem evaluate_split
    (hgraph : scene.graph = Flow.build scene.settings.exitFunctions scene.function)
    (hguard : scene.guard = ⟨.branch, some cond, none, none⟩) (hquery : c.query.Local)
    (hind : ∀ sites, c.query.sites scene.function = .ok sites →
      ∀ s ∈ sites, c.rule.kind.isPathSensitive = true → scene.Tolerates c chosen s) :
    (scene.split chosen).evaluate c = scene.evaluate c := by
  let R : Site → Site → Prop := fun s s' =>
    (c.rule.kind.isPathSensitive = true → scene.Tolerates c chosen s) ∧
      s.Persists (scene.function.body.rows chosen) s'
  have hsites :
      Paired R (c.query.sites scene.function) (c.query.sites (scene.split chosen).function) :=
    (hquery.sites chosen scene.function).and_left hind
  have hbroken : Paired R
      ((c.query.sites scene.function).bind fun sites => (oncePerPlace sites).filterM
        (scene.breaks c))
      ((c.query.sites (scene.split chosen).function).bind fun sites =>
        (oncePerPlace sites).filterM ((scene.split chosen).breaks c)) :=
    hsites.bind fun _ _ hl => .filterM (Site.rel_oncePerPlace (fun hs ht => hs.2.place_iff ht.2) hl)
      fun _ _ h =>
      breaks_split hgraph hguard h.2 h.1
  have hfinding :
      ∀ s s', R s s' → scene.finding c.rule s = (scene.split chosen).finding c.rule s' := by
    rintro s s' ⟨-, h⟩
    simp only [finding, h.line, h.bindings, Site.col, h.expr]
    rfl
  rw [evaluate_eq, evaluate_eq]
  exact (hbroken.map_eq hfinding).symm

theorem isOk_graph_split
    (hgraph : scene.graph = Flow.build scene.settings.exitFunctions scene.function) :
    (scene.split chosen).graph.isOk = scene.graph.isOk := by
  rw [split, hgraph]
  rcases build_split scene.settings.exitFunctions chosen scene.function with
    ⟨e, hg, hg'⟩ | ⟨g, g', hg, hg', -⟩
  · rw [hg, hg']
  · rw [hg, hg']
    rfl

/-- Splitting declarations in blocks into consecutive declarations of one name each keeps what a
rule about loops finds in a function, and what a rule that follows paths finds if it is indifferent
to these declarations. -/
theorem splitting_keeps_findings {file : String} {settings : Settings} {f : Function} {r : Rule}
    (hscene : Scene.make file settings f = .ok scene) (hc : r.compile = .ok c)
    (hind : r.kind.isPathSensitive = true →
      ∀ sites, c.query.sites f = .ok sites → ∀ s ∈ sites, scene.Tolerates c chosen s) :
    ∃ scene', Scene.make file settings (f.split chosen) = .ok scene' ∧
      Analysis.ofRule scene' c = Analysis.ofRule scene c := by
  obtain ⟨rfl, -, hinside, hnotInside⟩ := query_of_compile hc
  obtain ⟨cond, hmake⟩ := make_of_make hscene
  rw [hmake f] at hscene
  cases hscene
  let scene : Scene :=
    ⟨file, f, settings, ⟨.branch, some cond, none, none⟩, Flow.build settings.exitFunctions f⟩
  have hevaluate : (scene.split chosen).evaluate c = scene.evaluate c :=
    evaluate_split rfl rfl ⟨hinside, hnotInside⟩
      fun sites hsites s hs hkind => hind hkind sites hsites s hs
  refine ⟨scene.split chosen, hmake (f.split chosen), ?_⟩
  rw [Analysis.ofRule, Analysis.ofRule, isOk_graph_split rfl, hevaluate]
  rfl

section Samples

def first (addr : Address) : Bool := addr == [0]

def named (n : String) (value : Expr) : Declarator := ⟨n, here, [value]⟩

def declaring (names : List (List Declarator)) (rest : List Stmt) : Function where
  name := "f"
  params := []
  locals := ["env", "a", "b"]
  pos := here
  body := .block ((names.map fun ds => .simple (.decl "jclass" ds here)) ++ rest) here

def classA : Declarator := named "a" (tableCall "FindClass" [.literal "\"A\"" .string here])

def classB : Declarator := named "b" (tableCall "FindClass" [.literal "\"B\"" .string here])

/-- `jclass a = FindClass(env, "A"), b = FindClass(env, "B"); if (b == NULL) return; GetFieldID(env,
a);` -/
def readUntested (names : List (List Declarator)) : Function :=
  declaring names
    [.ifElse (.binary .eq (.name "b" here) (.name "NULL" here) here) (.ret none here) none here,
    .simple (.expr (tableCall "GetFieldID" [.name "a" here]) here)]

theorem splitting_keeps_findings_untested :
    ∃ c scene scene', Catalog.nullCheck ∈ Catalog.builtinRules ∧ Catalog.nullCheck.compile = .ok c ∧
    Scene.make "t.c" Catalog.builtinSettings (readUntested [[classA, classB]]) = .ok scene ∧
    (∀ sites, c.query.sites (readUntested [[classA, classB]]) = .ok sites →
      ∀ s ∈ sites, scene.Tolerates c first s) ∧
    Scene.make "t.c" Catalog.builtinSettings (readUntested [[classA], [classB]]) = .ok scene' ∧
    (Analysis.ofRule scene c).findings.length = 1 ∧
    Analysis.ofRule scene' c = Analysis.ofRule scene c := by
  have hrun : (Catalog.nullCheck.compile.toOption.any fun c =>
      (Scene.make "t.c" Catalog.builtinSettings (readUntested [[classA, classB]])).toOption.any
      fun scene =>
        (c.query.sites (readUntested [[classA, classB]])).toOption.all
          (fun sites => decide (∀ s ∈ sites, scene.Tolerates c first s)) &&
          (Analysis.ofRule scene c).findings.length == 1) = true := by
    decide +kernel
  obtain ⟨c, hc, hrun⟩ := exists_of_any hrun
  obtain ⟨scene, hscene, hrun⟩ := exists_of_any hrun
  obtain ⟨htolerates, hlength⟩ := Bool.and_eq_true_iff.mp hrun
  have hind : ∀ sites, c.query.sites (readUntested [[classA, classB]]) = .ok sites →
      ∀ s ∈ sites, scene.Tolerates c first s := by
    intro sites hsites
    rw [hsites] at htolerates
    exact of_decide_eq_true htolerates
  obtain ⟨scene', hscene', heq⟩ := splitting_keeps_findings hscene hc fun _ => hind
  exact ⟨c, scene, scene', .tail _ (.head _), hc, hscene, hind, hscene', beq_iff_eq.mp hlength, heq⟩

def ChangedBySplitting (r : Rule) : Prop :=
  r ∈ Catalog.builtinRules ∧ ∃ f c scene scene', r.compile = .ok c ∧
    Scene.make "t.c" Catalog.builtinSettings f = .ok scene ∧
    Scene.make "t.c" Catalog.builtinSettings (f.split first) = .ok scene' ∧
    (Analysis.ofRule scene' c).findings ≠ (Analysis.ofRule scene c).findings

theorem changedBySplitting_of_count {r : Rule} (hr : r ∈ Catalog.builtinRules) {f : Function}
    (h : (r.compile.toOption.any fun c =>
      (Scene.make "t.c" Catalog.builtinSettings f).toOption.any fun scene =>
        (Scene.make "t.c" Catalog.builtinSettings (f.split first)).toOption.any fun scene' =>
          (Analysis.ofRule scene' c).findings.length !=
            (Analysis.ofRule scene c).findings.length) = true) :
    ChangedBySplitting r := by
  obtain ⟨c, hc, h⟩ := exists_of_any h
  obtain ⟨scene, hscene, h⟩ := exists_of_any h
  obtain ⟨scene', hscene', h⟩ := exists_of_any h
  exact ⟨hr, f, c, scene, scene', hc, hscene, hscene',
    fun heq => bne_iff_ne.mp h (congrArg List.length heq)⟩

/-- `jclass a = FindClass(env, "A"), b = FindClass(env, "B"); if (ExceptionCheck(env)) return;` -/
def checkedLate : Function :=
  declaring [[classA, classB]] [.ifElse (tableCall "ExceptionCheck" []) (.ret none here) none here]

/-- `jclass a = FindClass(env, "A"), b = GetFieldID(env, a);` -/
def readAlong : Function :=
  declaring [[classA, named "b" (tableCall "GetFieldID" [.name "a" here])]] []

/-- `jclass a = FindClass(env, "A"), b = DeleteLocalRef(env, a);` -/
def releasedAlong : Function :=
  declaring [[classA, named "b" (tableCall "DeleteLocalRef" [.name "a" here])]] []

/-- Of each kind of rules that follow paths a built-in one has other findings when a declaration is
split: only then does what the later names are initialised with stand behind the site. -/
theorem splitting_changes_findings :
    ChangedBySplitting Catalog.exceptionCheck ∧ ChangedBySplitting Catalog.nullCheck ∧
    ChangedBySplitting Catalog.deleteLocalRef := by
  refine ⟨?_, ?_, ?_⟩
  · exact changedBySplitting_of_count (f := checkedLate) (.head _) (by decide +kernel)
  · exact changedBySplitting_of_count (f := readAlong) (.tail _ (.head _)) (by decide +kernel)
  · exact changedBySplitting_of_count (f := releasedAlong) (.tail _ (.tail _ (.head _)))
      (by decide +kernel)

end Samples

end Scene

end JniContracts
