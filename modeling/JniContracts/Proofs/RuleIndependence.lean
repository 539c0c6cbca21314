import JniContracts.Analysis
import JniContracts.Proofs.Gathering
import JniContracts.Proofs.Sorting

/-!
Rules do not influence each other. Every finding and every failure of a rule carries the rule's id,
and reports are sorted by keys that hold the id, so the order of the rules does not show, and what a
report says of one rule is what the analysis under that rule alone says of it.
-/

namespace JniContracts

theorem mapM_eq_ok {α β ε : Type} {f : α → Except ε β} {g : α → β} {l : List α}
    (h : ∀ a ∈ l, f a = .ok (g a)) : l.mapM f = .ok (l.map g) := by
  induction l with
  | nil => rfl
  | cons a l ih =>
    rw [List.mapM_cons, h a List.mem_cons_self, ih fun b hb => h b (List.mem_cons_of_mem _ hb)]
    rfl

def Diagnostic.isFailureOf (id : String) (d : Diagnostic) : Bool :=
  d.kind == .ruleEvaluationError && d.ruleId == some id

namespace Analysis

variable {c : CompiledRule}

theorem ruleId_of_mem_findings {scene : Scene} {x : Finding} (hx : x ∈ (ofRule scene c).findings) :
    x.ruleId = c.rule.id := by
  unfold ofRule at hx
  split at hx
  · cases hx
  · split at hx
    · rename_i found hfound
      rw [Scene.evaluate] at hfound
      cases hsites : c.query.sites scene.function with
      | error e => rw [hsites] at hfound; cases hfound
      | ok sites =>
        rw [hsites] at hfound
        cases hbroken : (Scene.oncePerPlace sites).filterM (scene.breaks c) with
        | error e => simp only [bind, Except.bind, hbroken] at hfound; cases hfound
        | ok broken =>
          simp only [bind, Except.bind, hbroken, pure, Except.pure, Except.ok.injEq] at hfound
          subst hfound
          obtain ⟨site, -, rfl⟩ := List.mem_map.mp hx
          rfl
    · cases hx

theorem of_mem_diagnostics {scene : Scene} {d : Diagnostic}
    (hd : d ∈ (ofRule scene c).diagnostics) :
    d.kind = .ruleEvaluationError ∧ d.ruleId = some c.rule.id := by
  unfold ofRule at hd
  split at hd
  · cases hd
  · split at hd
    · cases hd
    · obtain rfl := List.mem_singleton.mp hd
      exact ⟨rfl, rfl⟩

def scenesOf (unit : SourceFile) (s : Settings) (guard : BlockPattern) : List Scene :=
  unit.functions.map fun f => ⟨unit.path, f, s, guard, Flow.build s.exitFunctions f⟩

/-- The diagnostic of a function whose control flow cannot be told. -/
def unresolved? (path : String) (s : Settings) (f : Function) : Option Diagnostic :=
  match Flow.build s.exitFunctions f with
  | .ok _ => none
  | .error e => some ⟨.unresolvedControlFlow, path, e.line, some f.name, none, e.message⟩

def findingsIn (scenes : List Scene) (rules : List CompiledRule) : List Finding :=
  scenes.flatMap fun scene => rules.flatMap fun c => (ofRule scene c).findings

def diagnosticsOf (rules : List CompiledRule) (scene : Scene) : List Diagnostic :=
  (rules.flatMap fun c => (ofRule scene c).diagnostics) ++
    if rules.any (·.rule.kind.isPathSensitive) then
      match scene.graph with
      | .ok _ => []
      | .error e =>
        [⟨.unresolvedControlFlow, scene.file, e.line, some scene.function.name, none, e.message⟩]
    else []

theorem ofScene_eq (scene : Scene) (rules : List CompiledRule) :
    ofScene scene rules =
    ⟨rules.flatMap fun c => (ofRule scene c).findings, diagnosticsOf rules scene⟩ := by
  simp only [ofScene, diagnosticsOf, List.flatMap_map, FileReport.mk.injEq, true_and,
    List.append_cancel_left_eq]
  cases scene.graph with
  | ok g => simp
  | error e => rfl

theorem rule_of_compile {r : Rule} (h : r.compile = .ok c) : c.rule = r := by
  rw [Rule.compile] at h
  cases htriggers : Patterns.compile r.triggers with
  | error e => rw [htriggers] at h; cases h
  | ok triggers =>
    cases hrequires : Patterns.compile r.requires with
    | error e => rw [htriggers, hrequires] at h; cases h
    | ok requires =>
      rw [htriggers, hrequires] at h
      cases h
      rfl

def compiled (rules : List Rule) : List CompiledRule := rules.filterMap fun r => r.compile.toOption

theorem mapM_compile {rules : List Rule} (h : ∀ r ∈ rules, ∃ c, r.compile = .ok c) :
    rules.mapM Rule.compile = .ok (compiled rules) ∧ (compiled rules).map (·.rule) = rules := by
  induction rules with
  | nil => exact ⟨rfl, rfl⟩
  | cons r rules ih =>
    obtain ⟨c, hc⟩ := h r List.mem_cons_self
    obtain ⟨hrest, hmap⟩ := ih fun r' hr' => h r' (List.mem_cons_of_mem _ hr')
    have hcons : compiled (r :: rules) = c :: compiled rules :=
      List.filterMap_cons_some (by rw [hc]; rfl)
    refine ⟨?_, by rw [hcons, List.map_cons, hmap, rule_of_compile hc]⟩
    rw [List.mapM_cons, hc, hrest, hcons]
    rfl

section Reports

variable {source path : String} {s : Settings} {guard : BlockPattern} {unit : SourceFile}
  {rules rules' : List Rule}

theorem analyze_eq (hunit : SourceFile.parse source path s.interfaceTypes = .ok unit)
    (hguard : Scene.guardOf s = .ok guard) (hrules : ∀ r ∈ rules, ∃ c, r.compile = .ok c) :
    analyze source path rules s =
    .ok ⟨Finding.sort (findingsIn (scenesOf unit s guard) (compiled rules)),
      Diagnostic.sort (unit.faults.map (parseDiagnostic unit.path) ++
      (scenesOf unit s guard).flatMap (diagnosticsOf (compiled rules)))⟩ := by
  have hscenes : unit.functions.mapM (Scene.make unit.path s) = .ok (scenesOf unit s guard) :=
    mapM_eq_ok fun f _ => by rw [Scene.make, hguard]; rfl
  simp only [analyze, hunit, ofUnit, (mapM_compile hrules).1, hscenes, bind, Except.bind, pure,
    Except.pure, FileReport.sorted, ofScene_eq, List.flatMap_map, findingsIn]

theorem analyze_eq_of_stop (h : ∀ unit, SourceFile.parse source path s.interfaceTypes ≠ .ok unit)
    (rules rules' : List Rule) :
    analyze source path rules s = analyze source path rules' s ∧
    ∀ report, analyze source path rules s = .ok report → report.findings = [] := by
  unfold analyze
  cases hparse : SourceFile.parse source path s.interfaceTypes with
  | ok unit => exact absurd hparse (h unit)
  | error stop =>
    refine ⟨by cases stop <;> rfl, fun report hreport => ?_⟩
    cases stop with
    | fault | tooDeep => cases hreport; rfl
    | noBracket | endless => cases hreport

theorem alike_diagnosticsOf {rules rules' : List CompiledRule}
    (hnodup : (rules.map (·.rule.id)).Nodup) (h : rules'.Perm rules) (d : Diagnostic)
    (scene : Scene) :
    alike Diagnostic.order d (diagnosticsOf rules' scene) =
    alike Diagnostic.order d (diagnosticsOf rules scene) := by
  have hany : rules'.any (·.rule.kind.isPathSensitive) = rules.any (·.rule.kind.isPathSensitive) :=
    h.any_eq
  rw [diagnosticsOf, diagnosticsOf, alike_append, alike_append, hany]
  rw [alike_flatMap_of_perm (·.rule.id) (fun d => d.ruleId.getD "")
    (fun a b hab => (Diagnostic.order_eq hab).2.2) hnodup h
    fun c _ d hd => by rw [(of_mem_diagnostics hd).2]; rfl]

theorem alike_findingsIn {rules rules' : List CompiledRule} (hnodup : (rules.map (·.rule.id)).Nodup)
    (h : rules'.Perm rules) (scenes : List Scene) (x : Finding) :
    alike Finding.order x (findingsIn scenes rules') =
    alike Finding.order x (findingsIn scenes rules) :=
  alike_flatMap_congr
    (fun _ => alike_flatMap_of_perm (·.rule.id) (·.ruleId) (fun _ _ hab => (Finding.order_eq hab).2)
    hnodup h (fun _ _ _ hx => ruleId_of_mem_findings hx) x) scenes

/-- What a rule finds among others is what it finds alone. -/
theorem filter_findingsIn {rules : List CompiledRule} (hnodup : (rules.map (·.rule.id)).Nodup)
    (hc : c ∈ rules) (scenes : List Scene) :
    (findingsIn scenes rules).filter (·.ruleId == c.rule.id) = findingsIn scenes [c] := by
  rw [findingsIn, List.filter_flatMap]
  refine List.flatMap_congr fun scene _ => ?_
  rw [filter_flatMap_of_key (·.rule.id) fun c _ x hx => ruleId_of_mem_findings hx,
    filter_owner_of_mem hnodup hc]

theorem filter_failures {rules : List CompiledRule} (hnodup : (rules.map (·.rule.id)).Nodup)
    (hc : c ∈ rules) (scene : Scene) :
    (diagnosticsOf rules scene).filter (·.isFailureOf c.rule.id) =
    (ofRule scene c).diagnostics := by
  have hrules :
      (rules.flatMap fun c => (ofRule scene c).diagnostics).filter (·.isFailureOf c.rule.id) =
      (ofRule scene c).diagnostics := by
    have hown : ∀ c' ∈ rules, ∀ d ∈ (ofRule scene c').diagnostics, d.ruleId.getD "" = c'.rule.id :=
      fun c' _ d hd => by rw [(of_mem_diagnostics hd).2]; rfl
    rw [List.filter_congr fun d hd => ?_, filter_flatMap_of_key (·.rule.id) hown c.rule.id,
      filter_owner_of_mem hnodup hc, List.flatMap_singleton]
    obtain ⟨c', -, hd⟩ := List.mem_flatMap.mp hd
    obtain ⟨hkind, hid⟩ := of_mem_diagnostics hd
    simp [Diagnostic.isFailureOf, hkind, hid]
  rw [diagnosticsOf, List.filter_append, hrules]
  split
  · split <;> simp [Diagnostic.isFailureOf]
  · simp

/-- A function whose control flow cannot be told has one diagnostic for that, if a rule looks at
paths. -/
theorem filter_unresolved {scene : Scene}
    (hgraph : scene.graph = Flow.build scene.settings.exitFunctions scene.function)
    (rules : List CompiledRule) :
    (diagnosticsOf rules scene).filter (·.kind == .unresolvedControlFlow) =
    if rules.any (·.rule.kind.isPathSensitive) then
    (unresolved? scene.file scene.settings scene.function).toList else [] := by
  have hrules :
      (rules.flatMap fun c => (ofRule scene c).diagnostics).filter
        (·.kind == .unresolvedControlFlow) = [] := by
    refine List.filter_eq_nil_iff.mpr fun d hd => ?_
    obtain ⟨c, -, hd⟩ := List.mem_flatMap.mp hd
    simp [(of_mem_diagnostics hd).1]
  rw [diagnosticsOf, List.filter_append, hrules, List.nil_append, unresolved?, hgraph]
  split
  · cases Flow.build scene.settings.exitFunctions scene.function <;> rfl
  · rfl

/-- A rule among others, and the same rule alone. -/
theorem sole_of_mem (hrules : ∀ r ∈ rules, ∃ c, r.compile = .ok c) {r : Rule} (hr : r ∈ rules) :
    ∃ c ∈ compiled rules, c.rule = r ∧ compiled [r] = [c] ∧
    ∀ r' ∈ [r], ∃ c, r'.compile = .ok c := by
  obtain ⟨c, hc⟩ := hrules r hr
  have hsome : r.compile.toOption = some c := by rw [hc]; rfl
  refine ⟨c, List.mem_filterMap.mpr ⟨r, hr, hsome⟩, rule_of_compile hc,
    List.filterMap_cons_some hsome, fun r' hr' => ?_⟩
  exact ⟨c, List.mem_singleton.mp hr' ▸ hc⟩

theorem nodup_compiled (hrules : ∀ r ∈ rules, ∃ c, r.compile = .ok c)
    (hids : (rules.map (·.id)).Nodup) : ((compiled rules).map (·.rule.id)).Nodup := by
  have hmap := congrArg (List.map (·.id)) (mapM_compile hrules).2
  rw [List.map_map] at hmap
  exact hmap ▸ hids

variable (hunit : SourceFile.parse source path s.interfaceTypes = .ok unit)
  (hguard : Scene.guardOf s = .ok guard) (hrules : ∀ r ∈ rules, ∃ c, r.compile = .ok c)
  (hids : (rules.map (·.id)).Nodup)
include hunit hguard hrules hids

theorem analyze_of_perm (hperm : rules'.Perm rules) :
    analyze source path rules' s = analyze source path rules s := by
  have hnodup := nodup_compiled hrules hids
  have hcompiled : (compiled rules').Perm (compiled rules) := hperm.filterMap _
  rw [analyze_eq hunit hguard hrules,
    analyze_eq hunit hguard fun r hr => hrules r (hperm.mem_iff.mp hr)]
  congr 2
  · exact sortBy_congr fun x => alike_findingsIn hnodup hcompiled _ x
  · refine sortBy_congr fun d => ?_
    rw [alike_append, alike_append,
      alike_flatMap_congr fun scene => alike_diagnosticsOf hnodup hcompiled d scene]

theorem findings_of_sole {r : Rule} (hr : r ∈ rules) :
    (analyze source path [r] s).map (·.findings) =
    (analyze source path rules s).map fun report => report.findings.filter (·.ruleId == r.id) := by
  have hnodup := nodup_compiled hrules hids
  obtain ⟨c, hc, rfl, hcompiled, hone⟩ := sole_of_mem hrules hr
  rw [analyze_eq hunit hguard hrules, analyze_eq hunit hguard hone, hcompiled]
  simp only [Except.map, Finding.sort, filter_sortBy, filter_findingsIn hnodup hc]

theorem failures_of_sole {r : Rule} (hr : r ∈ rules) :
    (analyze source path [r] s).map (fun report => report.diagnostics.filter (·.isFailureOf r.id)) =
    (analyze source path rules s).map fun report =>
    report.diagnostics.filter (·.isFailureOf r.id) := by
  have hnodup := nodup_compiled hrules hids
  obtain ⟨c, hc, rfl, hcompiled, hone⟩ := sole_of_mem hrules hr
  have hsingle : (([c] : List CompiledRule).map (·.rule.id)).Nodup := List.pairwise_singleton _ _
  rw [analyze_eq hunit hguard hrules, analyze_eq hunit hguard hone, hcompiled]
  simp only [Except.map, Diagnostic.sort, filter_sortBy, List.filter_append, List.filter_flatMap,
    filter_failures hnodup hc, filter_failures hsingle List.mem_cons_self]

omit hids in
theorem unresolved_once :
    ∃ report, analyze source path rules s = .ok report ∧
    (report.diagnostics.filter (·.kind == .unresolvedControlFlow)).Perm
      (if rules.any (·.kind.isPathSensitive) then unit.functions.filterMap (unresolved? unit.path s)
      else []) := by
  refine ⟨_, analyze_eq hunit hguard hrules, ?_⟩
  have hany :
      (compiled rules).any (·.rule.kind.isPathSensitive) = rules.any (·.kind.isPathSensitive) := by
    have hmap := congrArg (List.any · (·.kind.isPathSensitive)) (mapM_compile hrules).2
    rwa [List.any_map] at hmap
  have hfaults :
      (unit.faults.map (parseDiagnostic unit.path)).filter (·.kind == .unresolvedControlFlow) =
      [] := by
    simp [parseDiagnostic]
  rw [Diagnostic.sort, filter_sortBy, List.filter_append, hfaults, List.nil_append,
    List.filter_flatMap, scenesOf, List.flatMap_map]
  refine (sortBy_perm _ _).trans (List.Perm.of_eq ?_)
  simp only [filter_unresolved, hany]
  split
  · exact (List.filterMap_eq_flatMap_toList _ _).symm
  · simp

end Reports

end Analysis

open Analysis in
/-- Under rules with different ids, all of which can be compiled, the order of the rules does not
show in the report on a text; what it says of one of them is what the report under that rule alone
says of it; and each function whose control flow cannot be told has one diagnostic for that if a
rule looks at paths, and else none. -/
theorem rules_independent (source path : String) (s : Settings) (rules : List Rule)
    (hguard : ∃ guard, Scene.guardOf s = .ok guard) (hrules : ∀ r ∈ rules, ∃ c, r.compile = .ok c)
    (hids : (rules.map (·.id)).Nodup) :
    (∀ rules', rules'.Perm rules → analyze source path rules' s = analyze source path rules s) ∧
    (∀ r ∈ rules, (analyze source path [r] s).map (·.findings) =
      (analyze source path rules s).map fun report => report.findings.filter (·.ruleId == r.id)) ∧
    (∀ r ∈ rules,
      (analyze source path [r] s).map (fun report =>
        report.diagnostics.filter (·.isFailureOf r.id)) =
      (analyze source path rules s).map fun report =>
        report.diagnostics.filter (·.isFailureOf r.id)) ∧
    ∀ unit, SourceFile.parse source path s.interfaceTypes = .ok unit →
      ∃ report, analyze source path rules s = .ok report ∧
        (report.diagnostics.filter (·.kind == .unresolvedControlFlow)).Perm
          (if rules.any (·.kind.isPathSensitive) then
            unit.functions.filterMap (unresolved? unit.path s) else []) := by
  obtain ⟨guard, hguard⟩ := hguard
  by_cases hparse : ∃ unit, SourceFile.parse source path s.interfaceTypes = .ok unit
  · obtain ⟨unit, hunit⟩ := hparse
    exact ⟨fun _ hperm => analyze_of_perm hunit hguard hrules hids hperm,
      fun _ hr => findings_of_sole hunit hguard hrules hids hr,
      fun _ hr => failures_of_sole hunit hguard hrules hids hr,
      fun _ hunit' => unresolved_once hunit' hguard hrules⟩
  · have hstop : ∀ unit, SourceFile.parse source path s.interfaceTypes ≠ .ok unit :=
      fun unit h => hparse ⟨unit, h⟩
    refine ⟨fun rules' _ => (analyze_eq_of_stop hstop rules' rules).1, fun r _ => ?_, fun r _ => ?_,
      fun unit h => absurd h (hstop unit)⟩
    · obtain ⟨heq, hnone⟩ := analyze_eq_of_stop hstop rules [r]
      rw [← heq]
      cases hreport : analyze source path rules s with
      | error stop => rfl
      | ok report => simp [Except.map, hnone report hreport]
    · rw [(analyze_eq_of_stop hstop [r] rules).1]

/-- A function whose jump leads nowhere, and one that reads a result without a test. -/
def lostJump : String := "void f() \x7b goto x; \x7d void g() \x7b c = h(); k(c); \x7d"

def nullRule : Rule :=
  { id := "null", kind := .nullCheck, message := "m", pattern := some "$VAR = h()" }

def loopRules : List Rule :=
  [nullRule, { id := "loop", kind := .loopInvariant, message := "m", pattern := some "h()" }]

def uncheckedSettings : Settings := { Settings.standard with exceptionChecks := [] }

open Analysis in
theorem rules_independent_lostJump :
    ∃ report sole, analyze lostJump "t.c" loopRules uncheckedSettings = .ok report ∧
    report.findings.length = 1 ∧
    (report.diagnostics.filter (·.kind == .unresolvedControlFlow)).length = 1 ∧
    analyze lostJump "t.c" loopRules.reverse uncheckedSettings = .ok report ∧
    analyze lostJump "t.c" [nullRule] uncheckedSettings = .ok sole ∧
    sole.findings = report.findings.filter (·.ruleId == "null") := by
  have hrun :
      ((SourceFile.parse lostJump "t.c" uncheckedSettings.interfaceTypes).toOption.any fun unit =>
      (Scene.guardOf uncheckedSettings).toOption.any fun guard =>
        (findingsIn (scenesOf unit uncheckedSettings guard) (compiled loopRules)).length == 1 &&
          (unit.functions.filterMap (unresolved? unit.path uncheckedSettings)).length == 1) =
              true := by decide +kernel
  have hall : loopRules.all (fun r => r.compile.toOption.any fun _ => true) = true := by
    decide +kernel
  obtain ⟨unit, hunit, hrun⟩ := exists_of_any hrun
  obtain ⟨guard, hguard, hrun⟩ := exists_of_any hrun
  simp only [Bool.and_eq_true, beq_iff_eq] at hrun
  have hrules : ∀ r ∈ loopRules, ∃ c, r.compile = .ok c := fun r hr => by
    obtain ⟨c, h, -⟩ := exists_of_any (List.all_eq_true.mp hall r hr)
    exact ⟨c, h⟩
  obtain ⟨hperm, hsole, -, honce⟩ :=
    rules_independent lostJump "t.c" uncheckedSettings loopRules ⟨guard, hguard⟩ hrules (by decide)
  obtain ⟨report, hreport, hflow⟩ := honce unit hunit
  have hfindings : report.findings.length = 1 := by
    obtain rfl := Except.ok.inj ((analyze_eq hunit hguard hrules).symm.trans hreport)
    exact (sortBy_perm _ _).length_eq.trans hrun.1
  have hfirst := hsole nullRule List.mem_cons_self
  rw [hreport] at hfirst
  cases hone : analyze lostJump "t.c" [nullRule] uncheckedSettings with
  | error stop =>
    rw [hone] at hfirst
    cases hfirst
  | ok sole =>
    rw [hone] at hfirst
    exact ⟨report, sole, hreport, hfindings, hflow.length_eq.trans hrun.2,
      (hperm _ (List.reverse_perm _)).trans hreport, rfl, Except.ok.inj hfirst⟩

end JniContracts
