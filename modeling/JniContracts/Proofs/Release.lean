import JniContracts.Proofs.Duty
import JniContracts.Rule.Evaluate

/-!
What a release rule finds: a site is reported just if some execution of the function leaks what the
site acquires. Leaks are told of executions alone, with no control-flow graph and no search.
-/

namespace JniContracts

open Flow Execution

namespace Site

/-- The variable that holds the status of a site, where nothing else is acquired. -/
def status? (site : Site) : Option String :=
  if (site.bindings.get? "VAR").isNone then site.assignedTo else none

def Overwrites (site : Site) (el : Element) : Prop :=
  ∃ v, site.bindings.get? "VAR" = some v ∧ ∃ e ∈ el.exprs, e.assigns v = true

end Site

namespace Scene

def Settles (scene : Scene) (c : CompiledRule) (site : Site) (el : Element) : Prop :=
  releases c.requires site.bindings el = true ∨
    ∃ v, site.bindings.get? "VAR" = some v ∧ scene.escapes c.rule v el = true

/-- On this branch of a condition the variable is null, or the status says that nothing was
acquired. -/
def ExemptBranch (scene : Scene) (rule : Rule) (site : Site) (el : Element) (yes : Bool) : Prop :=
  ∃ cond rest, el.exprs = cond :: rest ∧
    ((rule.nullGuard = true ∧ ∃ v, site.bindings.get? "VAR" = some v ∧
        scene.settings.nullBranch cond v = some (branchKind yes)) ∨
      (rule.statusGuard = true ∧
        scene.settings.failureBranch cond (isSubject site site.status? el) = some (branchKind yes)))

def Holds (scene : Scene) (c : CompiledRule) (site : Site) : Event → Prop
  | .ran el => ¬ scene.Settles c site el
  | .chose el yes => ¬ scene.ExemptBranch c.rule site el yes

/-- An execution runs the site and then, without a release on the way, leaves the function, comes to
the site again, or overwrites the variable. An element that does both releases before it
overwrites. -/
def Leaks (scene : Scene) (c : CompiledRule) (site : Site) : Prop :=
  let Runs := Steps scene.settings.exitFunctions scene.function.body
  ∃ before el s after s', Runs (start scene.function.body) (before ++ [.ran el]) s ∧
    el.key = site.element.key ∧ Runs s after s' ∧ (∀ x ∈ after, scene.Holds c site x) ∧
    (s' = .left ∨ ∃ el' s'', Runs s' [.ran el'] s'' ∧
      (el'.key = site.element.key ∨ site.Overwrites el' ∧ ¬ scene.Settles c site el'))

/-- A rule for local variables is not about what is acquired elsewhere. -/
def Concerns (scene : Scene) (rule : Rule) (site : Site) : Prop :=
  rule.localOnly = true → ∀ v, site.bindings.get? "VAR" = some v →
    isIdentifier v = true ∧ v ∈ scene.function.locals

def releaseVerdict (scene : Scene) (c : CompiledRule) (site : Site) (el : Element) : Verdict :=
  let var := site.bindings.get? "VAR"
  if releases c.requires site.bindings el || var.any
    (fun v => scene.escapes c.rule v el) then .satisfied
  else if var.any fun v => el.exprs.any (Expr.assigns v) then .violated
  else .pending

def releaseDuty (scene : Scene) (c : CompiledRule) (site : Site) : Duty :=
  ⟨site.element.key, scene.releaseVerdict c site, scene.ExemptBranch c.rule site⟩

def releaseObligation (scene : Scene) (c : CompiledRule) (site : Site) (p : Position) :
    Obligation :=
  ⟨p, scene.releaseVerdict c site, .violated, .violated, scene.exempts c.rule site⟩

variable {scene : Scene} {c : CompiledRule} {site : Site} {el : Element}

theorem settles_iff : scene.Settles c site el ↔
    (releases c.requires site.bindings el ||
      (site.bindings.get? "VAR").any fun v => scene.escapes c.rule v el) = true := by
  rw [Settles, Bool.or_eq_true, Option.any_eq_true]

theorem overwrites_iff : site.Overwrites el ↔
    ((site.bindings.get? "VAR").any fun v => el.exprs.any (Expr.assigns v)) = true := by
  simp only [Site.Overwrites, Option.any_eq_true, List.any_eq_true]

theorem releaseVerdict_eq_satisfied :
    scene.releaseVerdict c site el = .satisfied ↔ scene.Settles c site el := by
  rw [settles_iff, releaseVerdict]
  split
  · rename_i h
    simp [h]
  · rename_i h
    split <;> simp [h]

theorem releaseVerdict_eq_violated : scene.releaseVerdict c site el = .violated ↔
    site.Overwrites el ∧ ¬ scene.Settles c site el := by
  rw [settles_iff, overwrites_iff, releaseVerdict]
  split
  · rename_i h
    simp [h]
  · rename_i h
    split <;> rename_i ho <;> simp [h, ho]

theorem verdict_eq_violated : (scene.releaseDuty c site).verdict el = .violated ↔
    el.key = site.element.key ∨ site.Overwrites el ∧ ¬ scene.Settles c site el := by
  rw [← releaseVerdict_eq_violated, Duty.verdict]
  by_cases hk : el.key = (scene.releaseDuty c site).key
  · simp only [hk, if_true, true_iff]
    exact .inl rfl
  · simp only [hk, if_false]
    exact ⟨.inr, fun h => h.resolve_left hk⟩

theorem holds_of_keeps {x : Event} (h : (scene.releaseDuty c site).Keeps x) :
    scene.Holds c site x := by
  cases x with
  | ran el =>
    intro hs
    have hv : (scene.releaseDuty c site).verdict el = .pending := h
    rw [Duty.verdict] at hv
    split at hv
    · cases hv
    · rw [show (scene.releaseDuty c site).classify el = _ from releaseVerdict_eq_satisfied.mpr hs]
        at hv
      cases hv
  | chose el yes => exact h

theorem misses_of_holds {x : Event} (h : scene.Holds c site x) :
    (scene.releaseDuty c site).Misses x := by
  cases x with
  | ran el =>
    intro hv
    rw [Duty.verdict] at hv
    split at hv
    · cases hv
    · exact h (releaseVerdict_eq_satisfied.mp hv)
  | chose el yes => exact h

theorem nullBranch_kind {s : Settings} {cond : Expr} {v : String} {k : EdgeKind}
    (h : s.nullBranch cond v = some k) : ∃ yes, k = branchKind yes := by
  have hyes : EdgeKind.branchTrue = branchKind true := rfl
  have hno : EdgeKind.branchFalse = branchKind false := rfl
  unfold Settings.nullBranch at h
  split at h <;> split at h <;> cases h
  exacts [⟨true, hyes⟩, ⟨false, hno⟩, ⟨true, hyes⟩, ⟨false, hno⟩]

theorem failureBranch_kind {s : Settings} {cond : Expr} {subject : Address → Expr → Bool}
    {k : EdgeKind} (h : s.failureBranch cond subject = some k) : ∃ yes, k = branchKind yes := by
  suffices hk : k = .branchTrue ∨ k = .branchFalse by
    rcases hk with rfl | rfl
    · exact ⟨true, rfl⟩
    · exact ⟨false, rfl⟩
  unfold Settings.failureBranch at h
  grind

theorem guards_iff (scene : Scene) (c : CompiledRule) (site : Site) {cond : Expr} {rest : List Expr}
    (hexprs : el.exprs = cond :: rest) (k : EdgeKind) :
    ((c.rule.nullGuard && (site.bindings.get? "VAR").any fun v =>
      scene.settings.nullBranch cond v == some k) || (c.rule.statusGuard &&
      scene.settings.failureBranch cond (isSubject site site.status? el) == some k)) = true ↔
    ∃ yes, k = branchKind yes ∧ scene.ExemptBranch c.rule site el yes := by
  simp only [Bool.or_eq_true, Bool.and_eq_true, Option.any_eq_true, beq_iff_eq]
  constructor
  · intro h
    have hk : ∃ yes, k = branchKind yes := by
      rcases h with ⟨-, v, -, hv⟩ | ⟨-, hs⟩
      · exact nullBranch_kind hv
      · exact failureBranch_kind hs
    obtain ⟨yes, rfl⟩ := hk
    exact ⟨yes, rfl, cond, rest, hexprs, h⟩
  · rintro ⟨yes, rfl, cond', rest', hexprs', h⟩
    rw [hexprs] at hexprs'
    cases hexprs'
    exact h

theorem exempts_iff (hrole : el.role = .cond) (k : Edge) :
    scene.exempts c.rule site el k = true ↔ el.isBranch = true ∧ ∃ yes, k.kind = branchKind yes ∧
    scene.ExemptBranch c.rule site el yes := by
  obtain ⟨addr, stmt, role, exprs, up⟩ := el
  cases hrole
  cases exprs with
  | nil => cases stmt <;> simp [exempts, ExemptBranch]
  | cons cond rest =>
    have hguards := guards_iff scene c site
      (show Element.exprs ⟨addr, stmt, .cond, cond :: rest, up⟩ = _ from rfl) k.kind
    cases stmt with
    | ifElse | whileDo | forDo => exact hguards.trans (by simp [Element.isBranch])
    | _ => simp [exempts, Element.isBranch]

theorem releaseObligation_enforces {g : Graph} {p : Position}
    (h : g.position? site.element.key = some p) :
    (scene.releaseObligation c site p).Enforces g (scene.releaseDuty c site) :=
  ⟨h, rfl, rfl, rfl, fun _ k hrole => exempts_iff hrole k⟩

/-- A duty that is failed is a leak, and a leak fails the duty. -/
theorem leaks_of_fails (h : (scene.releaseDuty c site).Fails scene.settings.exitFunctions
      scene.function.body (scene.releaseDuty c site).Keeps) : scene.Leaks c site := by
  obtain ⟨before, el, s, after, s', hs, hkey, hs', hkeeps, hend⟩ := h
  refine ⟨before, el, s, after, s', hs, hkey, hs', fun x hx => holds_of_keeps (hkeeps x hx), ?_⟩
  refine hend.imp_right fun ⟨el', s'', hs'', hv⟩ => ?_
  exact ⟨el', s'', hs'', verdict_eq_violated.mp hv⟩

theorem fails_of_leaks (h : scene.Leaks c site) :
    (scene.releaseDuty c site).Fails scene.settings.exitFunctions scene.function.body
      (scene.releaseDuty c site).Misses := by
  obtain ⟨before, el, s, after, s', hs, hkey, hs', hholds, hend⟩ := h
  refine ⟨before, el, s, after, s', hs, hkey, hs', fun x hx => misses_of_holds (hholds x hx), ?_⟩
  refine hend.imp_right fun ⟨el', s'', hs'', hv⟩ => ?_
  exact ⟨el', s'', hs'', verdict_eq_violated.mpr hv⟩

theorem concerns_iff :
    scene.Concerns c.rule site ↔
    (c.rule.localOnly && (site.bindings.get? "VAR").any fun v => !isIdentifier v ||
      !scene.function.locals.contains v) = false := by
  rw [Bool.and_eq_false_imp]
  refine imp_congr_right fun _ => ?_
  simp only [Option.any_eq_false, Bool.or_eq_false_iff, Bool.not_eq_false', List.contains_iff_mem]

theorem make_ok {file : String} {s : Settings} {f : Function}
    (h : Scene.make file s f = .ok scene) :
    ∃ guard, scene = ⟨file, f, s, guard, build s.exitFunctions f⟩ := by
  cases hguard : guardOf s with
  | error e =>
    rw [Scene.make, hguard] at h
    cases h
  | ok guard =>
    rw [Scene.make, hguard] at h
    cases h
    exact ⟨guard, rfl⟩

/-- Where the rule concerns the site, it is broken just if the search fails from the place of the
site. -/
theorem breaksRelease_iff {g : Graph} (hg : scene.graph = .ok g) :
    scene.breaksRelease c site = true ↔
    scene.Concerns c.rule site ∧ ∃ p, g.position? site.element.key = some p ∧
    ((scene.releaseObligation c site p).coverage g).isSatisfied = false := by
  have hstart : scene.start? site = (g.position? site.element.key).map fun p => (g, p) := by
    rw [start?, hg]
  rw [concerns_iff, breaksRelease, hstart]
  cases (c.rule.localOnly && (site.bindings.get? "VAR").any
      fun v => !isIdentifier v || !scene.function.locals.contains v) with
  | true => simp
  | false =>
    cases g.position? site.element.key with
    | none => simp
    | some p =>
      simp only [Option.map_some, true_and, Option.some.injEq, exists_eq_left', Bool.false_eq_true,
        if_false, Bool.not_eq_true']
      rfl

section Reports

variable {file : String} {s : Settings} {f : Function} {g : Graph}

theorem leaks_of_breaksRelease (hscene : Scene.make file s f = .ok scene)
    (hgraph : build s.exitFunctions f = .ok g) (h : scene.breaksRelease c site = true) :
    scene.Concerns c.rule site ∧ scene.Leaks c site := by
  obtain ⟨guard, rfl⟩ := make_ok hscene
  obtain ⟨hconcerns, p, hp, hsat⟩ := (breaksRelease_iff hgraph).mp h
  obtain ⟨ms, m, hv⟩ := Obligation.violating_of_coverage hsat
  exact ⟨hconcerns, leaks_of_fails ((releaseObligation_enforces hp).fails_of_violating hgraph hv)⟩

theorem breaksRelease_of_leaks (hscene : Scene.make file s f = .ok scene)
    (hgraph : build s.exitFunctions f = .ok g) (hconcerns : scene.Concerns c.rule site)
    (hleaks : scene.Leaks c site) : scene.breaksRelease c site = true := by
  obtain ⟨guard, rfl⟩ := make_ok hscene
  obtain ⟨p, hp, hpath⟩ := Obligation.violating_of_fails hgraph (fails_of_leaks hleaks)
  obtain ⟨ms, m, hv⟩ := hpath _ rfl (releaseObligation_enforces hp)
  have hsat := Obligation.coverage_of_violating (distinct_of_build hgraph) hv
  exact (breaksRelease_iff hgraph).mpr ⟨hconcerns, p, hp, hsat⟩

/-- A release rule reports a site just if it concerns the site and some execution of the function
leaks what the site acquires. -/
theorem breaksRelease_iff_leaks (hscene : Scene.make file s f = .ok scene)
    (hgraph : build s.exitFunctions f = .ok g) (c : CompiledRule) (site : Site) :
    scene.breaksRelease c site = true ↔ scene.Concerns c.rule site ∧ scene.Leaks c site :=
  ⟨leaks_of_breaksRelease hscene hgraph, fun h => breaksRelease_of_leaks hscene hgraph h.1 h.2⟩

end Reports

/-- `s = get(n); if (s == NULL) return; if (n) return; put(s);` -/
def careless : Function where
  name := "careless"
  params := []
  locals := ["s"]
  pos := ⟨1, 1⟩
  body := .block
    [.simple (.expr (.assign .set (.name "s" ⟨2, 1⟩)
      (.call (.name "get" ⟨2, 5⟩) [.name "n" ⟨2, 9⟩] false ⟨2, 5⟩) ⟨2, 1⟩) ⟨2, 1⟩),
      .ifElse (.binary .eq (.name "s" ⟨3, 5⟩) (.name "NULL" ⟨3, 10⟩) ⟨3, 5⟩)
      (.ret none ⟨3, 16⟩) none ⟨3, 1⟩, .ifElse (.name "n" ⟨4, 5⟩) (.ret none ⟨4, 8⟩) none ⟨4, 1⟩,
      .simple (.expr (.call (.name "put" ⟨5, 1⟩) [.name "s" ⟨5, 5⟩] false ⟨5, 1⟩) ⟨5, 1⟩)] ⟨1, 9⟩

def putBack : Rule :=
  { id := "put-back", kind := .release, message := "", pattern := some "$VAR = get(...)",
    requires := ["put($VAR)"] }

theorem breaksRelease_iff_leaks_careless :
    ∃ scene g c sites site, Scene.make "careless.c" .standard careless = .ok scene ∧
    build Settings.standard.exitFunctions careless = .ok g ∧ putBack.compile = .ok c ∧
    c.query.sites careless = .ok sites ∧ site ∈ sites ∧ scene.Concerns c.rule site ∧
    scene.Leaks c site := by
  obtain ⟨scene, hscene, hrun⟩ := exists_of_any (x := Scene.make "careless.c" .standard careless)
    (p := fun scene => (build Settings.standard.exitFunctions careless).toOption.any fun _ =>
      putBack.compile.toOption.any fun c => (c.query.sites careless).toOption.any fun sites =>
        sites.any fun site => scene.breaksRelease c site) (by decide +kernel)
  obtain ⟨g, hgraph, hrun⟩ := exists_of_any hrun
  obtain ⟨c, hc, hrun⟩ := exists_of_any hrun
  obtain ⟨sites, hsites, hrun⟩ := exists_of_any hrun
  obtain ⟨site, hsite, hbreaks⟩ := List.any_eq_true.mp hrun
  obtain ⟨hconcerns, hleaks⟩ := (breaksRelease_iff_leaks hscene hgraph c site).mp hbreaks
  exact ⟨scene, g, c, sites, site, hscene, hgraph, hc, hsites, hsite, hconcerns, hleaks⟩

end Scene

end JniContracts
