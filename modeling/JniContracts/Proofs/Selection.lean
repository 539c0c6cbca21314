import JniContracts.Scan
import JniContracts.Proofs.Gathering
import Mathlib.Tactic.ByContra

/-!
The rules that a scan runs when it is not given a list of them. The configuration may name rules to
run and rules to leave out. The catalog's own choice counts only where it does neither: a list of
rules to leave out, without a list of rules to run, is taken from all rules of the catalog, and
brings in those that the catalog does not enable.
-/

namespace JniContracts

def Config.admits (c : Config) (r : Rule) : Bool :=
  match c.enabledRules with
  | some ids => ids.contains r.id
  | none => r.enabled || !c.disabledRules.isEmpty

def Config.runs (c : Config) (r : Rule) : Bool := c.admits r && !c.disabledRules.contains r.id

namespace Catalog

variable {catalog : Catalog} {config : Config} {r : Rule}

theorem id_mem_ids (h : r ∈ catalog.rules) : r.id ∈ catalog.ids := List.mem_map_of_mem h

theorem contains_selection {base : List String} :
    (base.filter fun id => !config.disabledRules.contains id).contains r.id =
      (base.contains r.id && !config.disabledRules.contains r.id) := by
  rw [Bool.eq_iff_iff, List.contains_iff_mem, List.mem_filter, Bool.and_eq_true,
    List.contains_iff_mem]

/-- What a configuration selects are the rules that it runs, in the order of the catalog. -/
theorem select_selection :
    catalog.select (config.selection catalog.ids) = catalog.rules.filter config.runs := by
  cases henabled : config.enabledRules with
  | some ids =>
    rw [Config.selection, henabled]
    refine List.filter_congr fun r _ => ?_
    simp only [Option.getD_some, contains_selection, Config.runs, Config.admits, henabled]
  | none =>
    cases hempty : config.disabledRules.isEmpty with
    | true =>
      rw [Config.selection, henabled, hempty]
      refine List.filter_congr fun r _ => ?_
      simp [Config.runs, Config.admits, henabled, List.isEmpty_iff.mp hempty]
    | false =>
      rw [Config.selection, henabled, hempty]
      refine List.filter_congr fun r hr => ?_
      simp only [Option.getD_none, contains_selection, List.contains_iff_mem.mpr (id_mem_ids hr),
        Config.runs, Config.admits, henabled, hempty, Bool.not_false, Bool.or_true]

end Catalog

namespace Scan

variable {t : FileTree} {catalog : Catalog} {config : Config} {request : Request} {p p' : Plan}
  {D D' : List String}

theorem eq_of_guarded {ε α : Type} {c : Prop} [Decidable c] {e : ε} {x y : α}
    (h : (if c then Except.error e else .ok x) = .ok y) : ¬c ∧ x = y := by
  by_cases hc : c
  · rw [if_pos hc] at h
    cases h
  · rw [if_neg hc] at h
    cases h
    exact ⟨hc, rfl⟩

/-- A scan that is not given its rules plans for those that the configuration runs; nothing else in
the plan depends on the list of disabled rules. -/
theorem plan_of_plan (hrules : request.rules = none) (h : plan t catalog config request = .ok p) :
    p.rules = catalog.rules.filter config.runs ∧
      plan t catalog { config with disabledRules := D' } request =
        .ok { p with rules := catalog.rules.filter { config with disabledRules := D' }.runs } := by
  simp only [plan, hrules, chooseRules, Catalog.select_selection] at h ⊢
  cases hfiles : (Discover.files t config.extensions config.ignore
    (request.paths.map Path.ofString)).mapError Failure.discover with
  | error e =>
    rw [hfiles] at h
    cases h
  | ok files =>
    rw [hfiles] at h
    dsimp only [bind, Except.bind, pure, Except.pure, throw, throwThe, MonadExceptOf.throw] at h ⊢
    obtain ⟨hworkers, rfl⟩ := eq_of_guarded h
    exact ⟨rfl, if_neg hworkers⟩

theorem mem_runs {r : Rule} : r ∈ catalog.rules.filter config.runs ↔
    r ∈ catalog.rules ∧ config.admits r = true ∧ r.id ∉ config.disabledRules := by
  simp [Config.runs]

/-- A longer list of disabled rules lets the same rules in, unless it is the one that ends the
catalog's choice. -/
theorem admits_of_longer {r : Rule}
    (hkept : config.enabledRules ≠ none ∨ D ≠ [] ∨ D' = [] ∨ r.enabled = true)
    (hr : { config with disabledRules := D' }.admits r = true) :
    { config with disabledRules := D }.admits r = true := by
  cases henabled : config.enabledRules with
  | some ids =>
    simp only [Config.admits, henabled] at hr ⊢
    exact hr
  | none =>
    simp only [Config.admits, henabled, Bool.or_eq_true, Bool.not_eq_true',
      List.isEmpty_eq_false_iff] at hr ⊢
    obtain h | h | rfl | h := hkept
    · exact absurd henabled h
    · exact .inr h
    · exact .inl (hr.resolve_right fun h => h rfl)
    · exact .inl h

/-- The rules that are run under a longer list of disabled rules are run under a shorter one, except
in one case: the configuration has no list of enabled rules, the shorter list is empty and the
longer one is not. Then the catalog's choice is given up, and rules come in that it does not
enable. -/
theorem rules_under_more_disabled (hsub : D ⊆ D') (hrules : request.rules = none)
    (hp : plan t catalog { config with disabledRules := D } request = .ok p) :
    ∃ p', plan t catalog { config with disabledRules := D' } request = .ok p' ∧
      p.rules = catalog.rules.filter { config with disabledRules := D }.runs ∧
      p'.rules = catalog.rules.filter { config with disabledRules := D' }.runs ∧
      (p'.rules ⊆ p.rules ↔ config.enabledRules ≠ none ∨ D ≠ [] ∨ D' = [] ∨
        ∀ r ∈ catalog.rules, r.id ∉ D' → r.enabled = true) := by
  obtain ⟨hruns, hp'⟩ := plan_of_plan hrules hp
  refine ⟨_, hp', hruns, rfl, ?_⟩
  rw [hruns]
  constructor
  · intro hmono
    by_contra hlost
    simp only [not_or, not_forall] at hlost
    obtain ⟨henabled, hD, hD', r, hr, hkept, hoff⟩ := hlost
    -- A rule that the catalog leaves off, and that the longer list does not name, is run under that
    -- list only.
    have hin : { config with disabledRules := D' }.admits r = true := by
      simp [Config.admits, not_not.mp henabled, hD']
    have hout := (mem_runs.mp (hmono (mem_runs.mpr ⟨hr, hin, hkept⟩))).2.1
    simp only [Config.admits, not_not.mp henabled, not_not.mp hD, List.isEmpty_nil, Bool.not_true,
      Bool.or_false] at hout
    exact hoff hout
  · intro hkept r hr
    obtain ⟨hmem, hin, hnot⟩ := mem_runs.mp hr
    refine mem_runs.mpr ⟨hmem, admits_of_longer ?_ hin, fun h => hnot (hsub h)⟩
    exact hkept.imp_right fun h => h.imp_right fun h => h.imp_right fun h => h r hmem hnot

private def listed (id : String) (enabled : Bool) : Rule :=
  { id := id, kind := .loopException, message := "", enabled := enabled }

private def listedCatalog : Catalog :=
  ⟨.standard, [listed "a" true, listed "b" false, listed "c" true]⟩

private def nowhere : FileTree := ⟨.empty, [], ⟨"/", []⟩⟩

theorem rules_under_more_disabled_named :
    ∃ p p', plan nowhere listedCatalog { enabledRules := some ["b", "a"], disabledRules := ["c"] }
      { paths := [] } = .ok p ∧ plan nowhere listedCatalog
      { enabledRules := some ["b", "a"], disabledRules := ["a", "c"] } { paths := [] } = .ok p' ∧
    p.rules.map Rule.id = ["a", "b"] ∧ p'.rules.map Rule.id = ["b"] ∧ p'.rules ⊆ p.rules := by
  obtain ⟨p, hp, hids⟩ := exists_of_any
    (x := plan nowhere listedCatalog { enabledRules := some ["b", "a"], disabledRules := ["c"] }
      { paths := [] })
    (p := fun p => p.rules.map Rule.id == ["a", "b"]) (by decide +kernel)
  obtain ⟨p', hp', -, hrules', hmono⟩ := @rules_under_more_disabled _ _
    { enabledRules := some ["b", "a"] } _ _ ["c"] ["a", "c"] (by simp) rfl hp
  refine ⟨p, p', hp, hp', beq_iff_eq.mp hids, ?_, hmono.mpr (.inl (by decide))⟩
  rw [hrules']
  decide

/-- Leaving out one rule brings in another: without a list of disabled rules, the second rule is not
run. -/
theorem rule_run_by_disabling : ∃ p p',
    plan nowhere listedCatalog {} { paths := [] } = .ok p ∧
      plan nowhere listedCatalog { disabledRules := ["a"] } { paths := [] } = .ok p' ∧
      p.rules.map Rule.id = ["a", "c"] ∧ p'.rules.map Rule.id = ["b", "c"] := by
  obtain ⟨p, hp, hids⟩ := exists_of_any (x := plan nowhere listedCatalog {} { paths := [] })
    (p := fun p => p.rules.map Rule.id == ["a", "c"]) (by decide +kernel)
  obtain ⟨p', hp', hids'⟩ :=
    exists_of_any (x := plan nowhere listedCatalog { disabledRules := ["a"] } { paths := [] })
    (p := fun p => p.rules.map Rule.id == ["b", "c"]) (by decide +kernel)
  exact ⟨p, p', hp, hp', beq_iff_eq.mp hids, beq_iff_eq.mp hids'⟩

end Scan

end JniContracts
