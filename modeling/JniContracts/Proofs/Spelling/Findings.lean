import JniContracts.Proofs.ControlFlow
import JniContracts.Proofs.Release
import JniContracts.Proofs.Spelling.Sites

/-!
The two spellings of interface calls are interchangeable for rules. A rule is broken at a site of a
function just if it is broken at that site of the uniform form, so that functions which differ only
in spelling have the same findings apart from their columns.
-/

namespace JniContracts

namespace Scene

def uniform (scene : Scene) : Scene :=
  { scene with function := scene.function.uniform, graph := scene.graph.map Flow.Graph.uniform }

variable {scene : Scene} {body : Stmt} {s s' : Site}

@[simp] theorem settings_uniform : scene.uniform.settings = scene.settings := rfl

@[simp] theorem guard_uniform : scene.uniform.guard = scene.guard := rfl

theorem start?_uniform (h : s.Follows body s') :
    scene.uniform.start? s' = (scene.start? s).map fun x => (x.1.uniform, x.2) := by
  rw [start?, start?, uniform, h.element]
  cases scene.graph with
  | error e => rfl
  | ok g =>
    simp only [Except.map, Flow.position?_uniform, Element.key_uniform]
    cases g.position? s.element.key <;> rfl

theorem handles_uniform (handler : Handler) (el : Element) :
    scene.uniform.handles handler el.uniform = scene.handles handler el := by
  have hcalls : ∀ names, callsOne names (el.exprs.map Expr.uniform) = callsOne names el.exprs :=
    fun names =>
    Expr.callsOne_uniform names el.exprs
  have hnext : el.uniform.nextSibling?.any scene.settings.isTerminator =
      el.nextSibling?.any scene.settings.isTerminator := by
    rw [el.nextSibling?_uniform]
    cases el.nextSibling? with
    | none => rfl
    | some x => exact Stmt.isTerminator_uniform scene.settings x
  simp only [handles, settings_uniform, Element.exprs_uniform, Element.role_uniform,
    Element.stmt_uniform, hcalls, hnext]
  cases el.role with
  | cond =>
    cases el.stmt with
    | ifElse c yes no p =>
      cases no with
      | none =>
        simp only [Stmt.uniform, Stmt.uniformElse, Option.toList_none, List.any_cons, List.any_nil,
          Stmt.clears_uniform, Stmt.terminates_uniform]
      | some no =>
        simp only [Stmt.uniform, Stmt.uniformElse, Option.toList_some, List.any_cons, List.any_nil,
          Stmt.clears_uniform, Stmt.terminates_uniform]
    | _ => rfl
  | _ => rfl

theorem breaksExceptionCheck_uniform (h : s.Follows body s') (rule : Rule) :
    scene.uniform.breaksExceptionCheck rule s' = scene.breaksExceptionCheck rule s := by
  have hcalls :
      s'.enclosingCalls.any scene.settings.isHazard =
      s.enclosingCalls.any scene.settings.isHazard := by
    rw [h.enclosingCalls, List.any_map]
    exact any_congr_of_mem fun c _ => scene.settings.isHazard_uniform c
  have hto : s'.assignedTo = s.assignedTo := h.assignedTo
  rw [breaksExceptionCheck, breaksExceptionCheck, start?_uniform h]
  cases scene.start? s with
  | none => rfl
  | some start =>
    obtain ⟨g, p⟩ := start
    simp only [Option.map_some, settings_uniform, hcalls, hto, h.element, Element.role_uniform,
      Element.exprs_uniform, Expr.nullTested_uniform]
    refine ite_congr rfl (fun _ => rfl) fun _ => ite_congr rfl (fun _ => rfl) fun _ => ?_
    refine congrArg (!Flow.Coverage.isSatisfied ·) (Flow.Obligation.Agrees.coverage ?_)
    refine ⟨rfl, rfl, rfl, fun b _ el _ => ?_, fun _ _ _ _ _ => rfl⟩
    simp only [handles_uniform, el.any_calls_uniform scene.settings.isHazard_uniform,
      Element.exprs_uniform, Element.role_uniform, Expr.readsAny_uniform, Expr.nullTested_uniform]

theorem any_assigns_uniform (var : String) (es : List Expr) :
    (es.map Expr.uniform).any (Expr.assigns var) = es.any (Expr.assigns var) := by
  rw [List.any_map]
  exact any_congr_of_mem fun e _ => e.assigns_uniform var

theorem breaksNullCheck_uniform (h : s.Follows body s') (rule : Rule) :
    scene.uniform.breaksNullCheck rule s' = scene.breaksNullCheck rule s := by
  rw [breaksNullCheck, breaksNullCheck, start?_uniform h, h.bindings]
  cases s.bindings.get? "VAR" with
  | none => rfl
  | some var =>
    cases scene.start? s with
    | none => rfl
    | some start =>
      obtain ⟨g, p⟩ := start
      simp only [Option.map_some, settings_uniform, h.element, Element.exprs_uniform,
        Element.role_uniform, Expr.nullTested_uniform]
      refine ite_congr rfl (fun _ => rfl) fun _ => ite_congr rfl (fun _ => rfl) fun _ => ?_
      refine congrArg (fun c : Flow.Coverage => Except.ok !c.isSatisfied)
        (Flow.Obligation.Agrees.coverage ?_)
      refine ⟨rfl, rfl, rfl, fun b _ el _ => ?_, fun _ _ _ _ _ => rfl⟩
      simp only [Element.exprs_uniform, Element.role_uniform, Expr.nullTested_uniform,
        Expr.readsAny_uniform, any_assigns_uniform]

section Release

theorem releases_uniform {requires : Patterns} (h : requires.Portable) (b : Bindings)
    (el : Element) : releases requires b el.uniform = releases requires b el := by
  rw [releases, releases]
  refine any_congr_of_mem fun p hp => ?_
  rw [Element.uniform, List.any_map]
  exact any_congr_of_mem fun e _ => congrArg (!·) ((h.single hp).inExprs e b)

theorem stores_uniform (f : Function) (var : String) (e : Expr) :
    stores f.uniform var e.uniform = stores f var e := by
  cases e with
  | call g args via p => exact Expr.apply_uniform_call (stores f var) fun _ _ => rfl
  | assign op t v p =>
    cases op with
    | set =>
      simp only [Expr.uniform, stores, Expr.isVar_uniform, Expr.strip_uniform, Expr.name?_uniform]
      rfl
    | _ => rfl
  | _ => rfl

theorem escapes_uniform (rule : Rule) (var : String) (el : Element) :
    scene.uniform.escapes rule var el.uniform = scene.escapes rule var el := by
  have hvar : el.uniform.exprs.any (Expr.isVar var) = el.exprs.any (Expr.isVar var) := by
    rw [Element.uniform, List.any_map]
    exact any_congr_of_mem fun e _ => e.isVar_uniform var
  have hstores : (el.uniform.exprs.any fun e => e.walk.any (stores scene.uniform.function var)) =
      el.exprs.any fun e => e.walk.any (stores scene.function var) := by
    rw [Element.uniform, List.any_map]
    refine any_congr_of_mem fun e _ => ?_
    have hfunction : stores scene.uniform.function var = stores scene.function var := by
      funext e
      cases e <;> rfl
    rw [Function.comp_apply, hfunction]
    exact Expr.any_walk_uniform_of_absent (stores_uniform scene.function var) (fun _ _ => rfl)
      (fun _ _ _ _ => rfl) (fun _ _ _ => rfl) (fun _ _ _ => rfl) e
  rw [escapes, escapes, hvar, hstores]
  rfl

/-- The place of the site in a condition is found in the uniform form of the condition. -/
theorem isSubject_uniform (h : s.Follows body s') (status : Option String) {el : Element}
    (hel : el ∈ body.elements) {cond : Expr} {rest : List Expr} (hcond : el.exprs = cond :: rest)
    {addr : Address} {x : Expr} (hx : cond.Fixed addr x) :
    isSubject s' status el.uniform addr x.uniform = isSubject s status el addr x := by
  have hfix := hx.strip
  have hplace : (el.key == s.element.key && s.root == 0 && (x.stripAt addr).1 == s'.spot.address) =
      (el.key == s.element.key && s.root == 0 && (x.stripAt addr).1 == s.spot.address) := by
    rw [Bool.eq_iff_iff]
    simp only [Bool.and_eq_true, beq_iff_eq]
    refine and_congr_right fun hsame => ?_
    -- Only in the element of the site are the two places compared, and there the condition is its
    -- first expression.
    have heq : el = s.element :=
      List.inj_on_of_nodup_map (Stmt.keyed_elementsIn [] [] body).nodup hel h.mem hsame.1
    obtain ⟨e, he, hm⟩ := h.moved
    rw [← heq, hsame.2, hcond] at he
    cases he
    have hhere := hfix [] [] .here
    rw [List.append_nil] at hhere
    exact (hhere.inj hm).symm
  simp only [isSubject, Expr.stripAt_uniform, h.element, Element.key_uniform, h.root, hplace,
    Expr.isVar_uniform]

theorem exempts_uniform (h : s.Follows body s') (rule : Rule) {el : Element}
    (hel : el ∈ body.elements) (k : Flow.Edge) :
    scene.uniform.exempts rule s' el.uniform k = scene.exempts rule s el k := by
  have hto : s'.assignedTo = s.assignedTo := h.assignedTo
  simp only [exempts, h.bindings, hto, settings_uniform, Element.stmt_uniform,
    Element.exprs_uniform]
  cases hcond : el.exprs with
  | nil => cases el.stmt <;> rfl
  | cons cond rest =>
    have hfailure := fun status => Expr.failureBranch_uniform scene.settings cond fun addr x hx =>
      isSubject_uniform h status hel hcond hx
    cases el.stmt with
    | ifElse | whileDo | forDo =>
      simp only [Stmt.uniform, List.map_cons, Expr.nullBranch_uniform, hfailure]
    | _ => rfl

theorem mem_body_of_build {exits : List String} {f : Function} {g : Flow.Graph}
    (h : Flow.build exits f = .ok g) {b : Flow.Block} (hb : b ∈ g.blocks) {el : Element}
    (hel : el ∈ b.elements) : el ∈ f.body.elements := by
  obtain ⟨d, hd, -, -, hsub⟩ := Flow.build_ok h
  have hmem : el ∈ d.elements := hsub.subset (List.mem_flatMap.mpr ⟨b, hb, hel⟩)
  exact List.mem_of_mem_filter (hd.elements.mem_iff.mp hmem)

theorem breaksRelease_uniform
    (hgraph : scene.graph = Flow.build scene.settings.exitFunctions scene.function)
    (h : s.Follows scene.function.body s') {c : CompiledRule} (hc : c.requires.Portable) :
    scene.uniform.breaksRelease c s' = scene.breaksRelease c s := by
  have hlocals : scene.uniform.function.locals = scene.function.locals := rfl
  rw [breaksRelease, breaksRelease, start?_uniform h, h.bindings, hlocals]
  refine ite_congr rfl (fun _ => rfl) fun _ => ?_
  cases hg : scene.graph with
  | error e =>
    have hstart : scene.start? s = none := by rw [start?, hg]
    rw [hstart]
    rfl
  | ok g =>
    have hbuild := hgraph.symm.trans hg
    have hstart : scene.start? s = (g.position? s.element.key).map fun p => (g, p) := by
      rw [start?, hg]
    rw [hstart]
    cases g.position? s.element.key with
    | none => rfl
    | some p =>
      refine congrArg (!Flow.Coverage.isSatisfied ·) (Flow.Obligation.Agrees.coverage ?_)
      refine ⟨rfl, rfl, rfl, fun b _ el _ => ?_, fun b hb el hel k => ?_⟩
      · simp only [releases_uniform hc, escapes_uniform, Element.exprs_uniform, any_assigns_uniform]
      · exact exempts_uniform h c.rule (mem_body_of_build hbuild hb hel) k

end Release

section Loops

theorem riskyLoop?_uniform (h : s.Follows body s') :
    scene.uniform.riskyLoop? s' = (scene.riskyLoop? s).map fun x => (x.1.uniform, x.2.uniform) := by
  have hcall : s'.expr.call? = s.expr.call?.map Call.uniform := by
    rw [Site.expr, Site.expr, h.expr, Expr.call?_uniform]
  simp only [riskyLoop?, hcall, h.loopsAround, List.getLast?_map, settings_uniform]
  cases s.expr.call? with
  | none => rfl
  | some c =>
    cases s.loopsAround.getLast? with
    | none => rfl
    | some loop =>
      simp only [Option.map_some, Call.callee?_uniform]
      split <;> rfl

theorem matchesAny_uniform {cond : Patterns} (hcond : cond.Portable) (up : List Stmt)
    (b : Bindings) :
    BlockPattern.matchesAny ⟨.branch, some cond, none, none⟩ (up.map Stmt.uniform) b =
    BlockPattern.matchesAny ⟨.branch, some cond, none, none⟩ up b := by
  rw [BlockPattern.matchesAny, BlockPattern.matchesAny, List.any_map]
  refine any_congr_of_mem fun x _ => ?_
  cases x with
  | ifElse c yes no p =>
    have hin := hcond.inExprs c b
    rw [← isEmpty_eraseDups, ← isEmpty_eraseDups (cond.inExprs [c] b)] at hin
    exact congrArg (!·) hin
  | _ => rfl

theorem breaksLoopException_uniform (h : s.Follows body s') {cond : Patterns}
    (hcond : cond.Portable) (hguard : scene.guard = ⟨.branch, some cond, none, none⟩) :
    scene.uniform.breaksLoopException s' = scene.breaksLoopException s := by
  rw [breaksLoopException, breaksLoopException, riskyLoop?_uniform h]
  cases scene.riskyLoop? s with
  | none => rfl
  | some risky =>
    obtain ⟨c, loop⟩ := risky
    have hcalls : callsOne scene.settings.exceptionChecks loop.uniform.evaluated =
        callsOne scene.settings.exceptionChecks loop.evaluated := by
      rw [loop.evaluated_uniform]
      exact Expr.callsOne_uniform ..
    simp only [Option.map_some, guard_uniform, hguard, settings_uniform, h.element,
      Element.ancestors_uniform, matchesAny_uniform hcond, hcalls]

theorem all_uncalled_uniform (es : List Expr) :
    ((es.map Expr.uniform).flatMap Expr.walk).all (·.call?.isNone) =
    (es.flatMap Expr.walk).all (·.call?.isNone) := by
  rw [List.all_eq_not_any_not, List.all_eq_not_any_not, List.any_flatMap, List.any_flatMap,
    List.any_map]
  refine congrArg (!·) (any_congr_of_mem fun e _ => ?_)
  refine Expr.any_walk_uniform_of_absent (fun x => ?_) (fun _ _ => rfl) (fun _ _ _ _ => rfl)
    (fun _ _ _ => rfl) (fun _ _ _ => rfl) e
  rw [Expr.call?_uniform, Option.isNone_map]

theorem breaksLoopInvariant_uniform (h : s.Follows body s') :
    scene.uniform.breaksLoopInvariant s' = scene.breaksLoopInvariant s := by
  rw [breaksLoopInvariant, breaksLoopInvariant, riskyLoop?_uniform h]
  cases scene.riskyLoop? s with
  | none => rfl
  | some risky =>
    obtain ⟨c, loop⟩ := risky
    simp only [Option.map_some, c.ownArgs_uniform, all_uncalled_uniform,
      funext loop.contains_modified_uniform, Expr.any_names_uniform]

end Loops

/-- What has to be known of a scene for a rule: its graph is that of its function, and where the
rule asks for a guard the guard is a branch on portable patterns. -/
structure Suits (scene : Scene) (c : CompiledRule) : Prop where
  graph : scene.graph = Flow.build scene.settings.exitFunctions scene.function
  query : c.query.Plain
  requires : c.requires.Portable
  guard : c.rule.kind = .loopException → ∃ cond : Patterns, cond.Portable ∧
    scene.guard = ⟨.branch, some cond, none, none⟩

variable {c : CompiledRule}

theorem Suits.breaks (hc : scene.Suits c) (h : s.Follows scene.function.body s') :
    scene.uniform.breaks c s' = scene.breaks c s := by
  rw [Scene.breaks, Scene.breaks]
  cases hkind : c.rule.kind with
  | exceptionCheck => exact congrArg Except.ok (breaksExceptionCheck_uniform h c.rule)
  | nullCheck => exact breaksNullCheck_uniform h c.rule
  | release => exact congrArg Except.ok (breaksRelease_uniform hc.graph h hc.requires)
  | loopException =>
    obtain ⟨cond, hcond, hguard⟩ := hc.guard hkind
    exact congrArg Except.ok (breaksLoopException_uniform h hcond hguard)
  | loopInvariant => exact congrArg Except.ok (breaksLoopInvariant_uniform h)

end Scene

def Finding.withoutColumn (f : Finding) : Finding := { f with column := 0 }

namespace Scene

variable {scene : Scene} {c : CompiledRule}

theorem evaluate_eq (scene : Scene) (c : CompiledRule) :
    scene.evaluate c = ((c.query.sites scene.function).bind fun sites =>
      (oncePerPlace sites).filterM (scene.breaks c)).map (List.map (scene.finding c.rule)) := by
  rw [Scene.evaluate]
  cases c.query.sites scene.function with
  | error e => rfl
  | ok sites =>
    cases h : (oncePerPlace sites).filterM (scene.breaks c) with
    | error e => simp [h, bind, Except.bind, Except.map]
    | ok broken => simp [h, bind, Except.bind, Except.map, pure, Except.pure]

/-- The findings of a rule in the uniform form are those in the function, apart from their
columns. -/
theorem Suits.evaluate (hc : scene.Suits c) :
    (scene.evaluate c).map (List.map Finding.withoutColumn) =
    (scene.uniform.evaluate c).map (List.map Finding.withoutColumn) := by
  have hbroken : Paired (Site.Follows scene.function.body)
      ((c.query.sites scene.function).bind fun sites => (oncePerPlace sites).filterM
        (scene.breaks c))
      ((c.query.sites scene.function.uniform).bind fun sites => (oncePerPlace sites).filterM
        (scene.uniform.breaks c)) :=
    (hc.query.sites scene.function).bind fun _ _ hsites =>
      .filterM (Site.forall₂_oncePerPlace hsites) fun _ _ h => hc.breaks h
  have hfinding : ∀ s s', Site.Follows scene.function.body s s' →
      (scene.finding c.rule s).withoutColumn = (scene.uniform.finding c.rule s').withoutColumn := by
    intro s s' h
    simp only [finding, Finding.withoutColumn, h.line, h.bindings]
    rfl
  have heq : ∀ scene : Scene, (scene.evaluate c).map (List.map Finding.withoutColumn) =
      ((c.query.sites scene.function).bind fun sites => (oncePerPlace sites).filterM
      (scene.breaks c)).map (List.map fun s => (scene.finding c.rule s).withoutColumn) := by
    intro scene
    rw [evaluate_eq]
    generalize (c.query.sites scene.function).bind _ = broken
    cases broken with
    | error e => rfl
    | ok broken => exact congrArg Except.ok List.map_map
  rw [heq, heq]
  exact hbroken.map_eq hfinding

section Making

variable {file : String} {settings : Settings} {f : Function}

theorem query_of_compile {r : Rule} (h : r.compile = .ok c) :
    c.rule = r ∧ c.query.exclude = [] ∧ c.query.inside = [] ∧ c.query.notInside = [] := by
  rw [Rule.compile] at h
  cases htriggers : Patterns.compile r.triggers with
  | error e =>
    rw [htriggers] at h
    cases h
  | ok triggers =>
    cases hrequires : Patterns.compile r.requires with
    | error e =>
      rw [htriggers, hrequires] at h
      cases h
    | ok requires =>
      rw [htriggers, hrequires] at h
      cases h
      exact ⟨rfl, rfl, rfl, rfl⟩

theorem make_of_make (h : Scene.make file settings f = .ok scene) : ∃ cond : Patterns, ∀ f',
    Scene.make file settings f' = .ok ⟨file, f', settings, ⟨.branch, some cond, none, none⟩,
      Flow.build settings.exitFunctions f'⟩ := by
  cases hcond : Patterns.compile
    (settings.exceptionChecks.map fun name => s!"(*$GUARD_ENV)->{name}($GUARD_ENV)") with
  | error e =>
    rw [Scene.make, guardOf, hcond] at h
    cases h
  | ok cond =>
    refine ⟨cond, fun f' => ?_⟩
    rw [Scene.make, guardOf, hcond]
    rfl

end Making

/-- The two spellings of interface calls are interchangeable. Expressions that differ only in them
have the same text and the same instances of every portable pattern. Functions that differ only in
them have the same findings of every rule with portable patterns, apart from columns; for a rule
about exceptions in loops the guards that the settings make are patterns of the rule too. -/
theorem spellings_interchangeable :
    (∀ n n' : Expr, n.Alike n' → n.render = n'.render ∧
      ∀ ps : Patterns, (∀ p ∈ ps, p.expr.Portable) →
        ∀ b, ps.instancesAt n b = ps.instancesAt n' b) ∧
    ∀ (r : Rule) (c : CompiledRule), r.compile = .ok c →
      c.query.pattern.Portable → c.requires.Portable →
      ∀ (file : String) (settings : Settings) (f f' : Function) (scene : Scene),
        f.Alike f' → Scene.make file settings f = .ok scene →
        (r.kind = .loopException → ∀ cond, scene.guard.cond = some cond → cond.Portable) →
        ∃ scene', Scene.make file settings f' = .ok scene' ∧
          (scene.evaluate c).map (List.map Finding.withoutColumn) =
            (scene'.evaluate c).map (List.map Finding.withoutColumn) := by
  constructor
  · intro n n' h
    refine ⟨by rw [← n.render_uniform, h.uniform_eq, n'.render_uniform], fun ps hps b => ?_⟩
    rw [← Patterns.instancesAt_uniform hps, h.uniform_eq, Patterns.instancesAt_uniform hps]
  · intro r c hc hpattern hrequires file settings f f' scene hf hscene hguard
    obtain ⟨rfl, hexclude, hinside, hnotInside⟩ := query_of_compile hc
    obtain ⟨cond, hmake⟩ := make_of_make hscene
    rw [hmake f] at hscene
    cases hscene
    have hsuits : ∀ f, Suits ⟨file, f, settings, ⟨.branch, some cond, none, none⟩,
        Flow.build settings.exitFunctions f⟩ c := fun f =>
      ⟨rfl, ⟨hpattern, hexclude, hinside, hnotInside⟩, hrequires,
        fun hkind => ⟨cond, hguard hkind cond rfl, rfl⟩⟩
    -- Both scenes have one uniform form.
    have huniform :
        ∀ f guard, uniform ⟨file, f, settings, guard, Flow.build settings.exitFunctions f⟩ =
        ⟨file, f.uniform, settings, guard, Flow.build settings.exitFunctions f.uniform⟩ :=
      fun f guard => by
      rw [uniform, Flow.build_uniform]
    refine ⟨_, hmake f', ?_⟩
    rw [(hsuits f).evaluate, (hsuits f').evaluate, huniform, huniform, hf.uniform_eq]

section Samples

def here : Pos := ⟨1, 1⟩

def tableCall (n : String) (own : List Expr) : Expr :=
  .call (.member (.unary .deref (.name "env" here) .before here) n true here)
    (.name "env" here :: own) true here

def pointerCall (n : String) (own : List Expr) : Expr :=
  .call (.member (.name "env" here) n true here) own true here

/-- `if (check) while (x) e;` -/
def guardedLoop (check e : Expr) : Function where
  name := "f"
  params := []
  locals := ["env"]
  pos := here
  body :=
    .block [.ifElse check (.whileDo (.name "x" here) (.simple (.expr e here)) here) none here] here

def unchecked (call : String → List Expr → Expr) : Function :=
  guardedLoop (call "H" []) (call "F" [call "G" []])

def checked (call : String → List Expr → Expr) : Function :=
  guardedLoop (call "ExceptionCheck" []) (call "F" [])

def loopRule : Rule :=
  { id := "r", kind := .loopException, message := "m", pattern := some "$ENV->F(...)" }

/-- The guard that these settings make ends at the comment: it is the function of a check, without a
call. -/
def cutShort : Settings := { Settings.standard with exceptionChecks := ["ExceptionCheck //"] }

theorem calls_alike {n : String} {own own' : List Expr} (hlen : own.length = own'.length)
    (hown : ∀ a ∈ own.zip own', a.1.Alike a.2) : (tableCall n own).Alike (pointerCall n own') :=
  .interfaceCall rfl (.table rfl rfl) (.pointer rfl) hlen hown

theorem guardedLoop_alike {check check' e e' : Expr} (hc : check.Alike check') (he : e.Alike e') :
    (guardedLoop check e).Alike (guardedLoop check' e') := by
  refine ⟨rfl, rfl, rfl, rfl, .block rfl rfl fun s hs => ?_⟩
  obtain rfl := List.mem_singleton.mp hs
  exact .ifOnly rfl hc (.whileDo rfl (.name rfl) (.simple (.expr rfl he)))

theorem spellings_interchangeable_unchecked :
    ∃ c scene scene', loopRule.compile = .ok c ∧ c.query.pattern.Portable ∧ c.requires.Portable ∧
    (unchecked tableCall).Alike (unchecked pointerCall) ∧
    Scene.make "t.c" .standard (unchecked tableCall) = .ok scene ∧
    (∀ cond, scene.guard.cond = some cond → cond.Portable) ∧
    Scene.make "t.c" .standard (unchecked pointerCall) = .ok scene' ∧
    (∃ found, scene.evaluate c = .ok found ∧ found.length = 1) ∧
    (scene.evaluate c).map (List.map Finding.withoutColumn) =
      (scene'.evaluate c).map (List.map Finding.withoutColumn) := by
  have hrun : (loopRule.compile.toOption.any
    fun c => decide (c.query.pattern.Portable ∧ c.requires.Portable) &&
      (Scene.make "t.c" .standard (unchecked tableCall)).toOption.any fun scene =>
        scene.guard.cond.all (fun cond => decide cond.Portable) &&
          (scene.evaluate c).toOption.any (·.length == 1)) = true := by decide +kernel
  obtain ⟨c, hc, hrun⟩ := exists_of_any hrun
  obtain ⟨hportable, hrun⟩ := Bool.and_eq_true_iff.mp hrun
  obtain ⟨hpattern, hrequires⟩ := of_decide_eq_true hportable
  obtain ⟨scene, hscene, hrun⟩ := exists_of_any hrun
  obtain ⟨hguard, hfound⟩ := Bool.and_eq_true_iff.mp hrun
  obtain ⟨found, heval, hlength⟩ := exists_of_any hfound
  have hcond : ∀ cond, scene.guard.cond = some cond → cond.Portable := fun cond h => by
    rw [h, Option.all_some] at hguard
    exact of_decide_eq_true hguard
  have hinner : (tableCall "G" []).Alike (pointerCall "G" []) := calls_alike rfl (by simp)
  have hcall : (tableCall "F" [tableCall "G" []]).Alike (pointerCall "F" [pointerCall "G" []]) :=
    calls_alike rfl fun a ha => by
      obtain rfl := List.mem_singleton.mp ha
      exact hinner
  have hf : (unchecked tableCall).Alike (unchecked pointerCall) :=
    guardedLoop_alike (calls_alike rfl (by simp)) hcall
  obtain ⟨scene', hscene', heq⟩ :=
    spellings_interchangeable.2 loopRule c hc hpattern hrequires "t.c" .standard _ _ scene hf hscene
      fun _ => hcond
  exact ⟨c, scene, scene', hc, hpattern, hrequires, hf, hscene, hcond, hscene',
    ⟨found, heval, beq_iff_eq.mp hlength⟩, heq⟩

/-- The function of a check is found in a condition only where it is spelled in the same way. -/
theorem spellings_differ_under_guard :
    ∃ c scene scene', loopRule.compile = .ok c ∧ c.query.pattern.Portable ∧ c.requires.Portable ∧
    (checked tableCall).Alike (checked pointerCall) ∧
    Scene.make "t.c" cutShort (checked tableCall) = .ok scene ∧
    Scene.make "t.c" cutShort (checked pointerCall) = .ok scene' ∧
    (scene.evaluate c).map (List.map Finding.withoutColumn) ≠
      (scene'.evaluate c).map (List.map Finding.withoutColumn) := by
  have hrun : (loopRule.compile.toOption.any
    fun c => decide (c.query.pattern.Portable ∧ c.requires.Portable) &&
      (Scene.make "t.c" cutShort (checked tableCall)).toOption.any fun scene =>
        (Scene.make "t.c" cutShort (checked pointerCall)).toOption.any fun scene' =>
          (scene.evaluate c).toOption.any (·.isEmpty) && (scene'.evaluate c).toOption.any
            (!·.isEmpty)) = true := by
    decide +kernel
  obtain ⟨c, hc, hrun⟩ := exists_of_any hrun
  obtain ⟨hportable, hrun⟩ := Bool.and_eq_true_iff.mp hrun
  obtain ⟨hpattern, hrequires⟩ := of_decide_eq_true hportable
  obtain ⟨scene, hscene, hrun⟩ := exists_of_any hrun
  obtain ⟨scene', hscene', hrun⟩ := exists_of_any hrun
  obtain ⟨hnone, hsome⟩ := Bool.and_eq_true_iff.mp hrun
  obtain ⟨found, heval, hempty⟩ := exists_of_any hnone
  obtain ⟨found', heval', hnonempty⟩ := exists_of_any hsome
  have hf : (checked tableCall).Alike (checked pointerCall) :=
    guardedLoop_alike (calls_alike rfl (by simp)) (calls_alike rfl (by simp))
  refine ⟨c, scene, scene', hc, hpattern, hrequires, hf, hscene, hscene', fun heq => ?_⟩
  rw [heval, heval', List.isEmpty_iff.mp hempty] at heq
  have hnil : found' = [] := List.map_eq_nil_iff.mp (Except.ok.inj heq).symm
  rw [hnil] at hnonempty
  cases hnonempty

end Samples

end Scene

end JniContracts
