import JniContracts.Catalog
import JniContracts.Proofs.Rendering.WholeTexts
import JniContracts.Proofs.RuleIndependence

/-!
Catalogs that are accepted when they are read. Their rules can be compiled, but the pattern of a
branch on an exception check is made from the settings only when a function is analysed, and nothing
has asked before whether it can be read.
-/

namespace JniContracts

open Lexer Rendering

theorem mapM_isOk_iff {α β ε : Type} {f : α → Except ε β} {l : List α} :
    (∃ bs, l.mapM f = .ok bs) ↔ ∀ a ∈ l, ∃ b, f a = .ok b := by
  induction l with
  | nil => simp [pure, Except.pure]
  | cons a l ih =>
    rw [List.mapM_cons, List.forall_mem_cons, ← ih]
    cases f a with
    | error e => simp [bind, Except.bind]
    | ok b => cases l.mapM f <;> simp [bind, Except.bind, pure, Except.pure]

theorem exists_of_mapM_error {α β ε : Type} {f : α → Except ε β} {l : List α} {e : ε}
    (h : l.mapM f = .error e) : ∃ a ∈ l, f a = .error e := by
  induction l with
  | nil => cases h
  | cons a l ih =>
    rw [List.mapM_cons] at h
    cases ha : f a with
    | error e' =>
      rw [ha] at h
      cases h
      exact ⟨a, List.mem_cons_self, ha⟩
    | ok b =>
      cases hl : l.mapM f with
      | error e' =>
        rw [ha, hl] at h
        cases h
        obtain ⟨x, hx, hfail⟩ := ih hl
        exact ⟨x, List.mem_cons_of_mem _ hx, hfail⟩
      | ok bs =>
        rw [ha, hl] at h
        cases h

theorem trim_eq {s : String} {c d : Char} (hfirst : s.toList.head? = some c)
    (hlast : s.toList.getLast? = some d) (hc : Text.isBlank c = false)
    (hd : Text.isBlank d = false) : Text.trim s = s := by
  obtain ⟨cs, hcs⟩ := List.head?_eq_some_iff.mp hfirst
  obtain ⟨ds, hds⟩ := List.getLast?_eq_some_iff.mp hlast
  have hstart : s.toList.dropWhile Text.isBlank = s.toList := by
    rw [hcs, List.dropWhile_cons_of_neg (by simp [hc])]
  have hend : Text.dropEndWhile Text.isBlank s.toList = s.toList := by
    rw [Text.dropEndWhile, hds, List.reverse_append, List.reverse_singleton, List.singleton_append,
      List.dropWhile_cons_of_neg (by simp [hd]), List.reverse_cons, List.reverse_reverse]
  rw [Text.trim, hstart, hend, String.ofList_toList]

namespace Catalog

theorem compile_of_checkRules {seen : List String} {rules : List Rule}
    (h : checkRules seen rules = .ok ()) : ∀ r ∈ rules, ∃ c, r.compile = .ok c := by
  induction rules generalizing seen with
  | nil => simp
  | cons r rules ih =>
    rw [checkRules] at h
    split at h
    · cases h
    · cases hc : r.compile with
      | error stop =>
        rw [hc] at h
        cases h
      | ok c =>
        rw [hc] at h
        exact List.forall_mem_cons.mpr ⟨⟨c, hc⟩, ih h⟩

theorem checkRules_of_compile {seen : List String} {rules : List Rule}
    (hseen : ∀ r ∈ rules, r.id ∉ seen) (hids : (rules.map (·.id)).Nodup)
    (h : ∀ r ∈ rules, ∃ c, r.compile = .ok c) : checkRules seen rules = .ok () := by
  induction rules generalizing seen with
  | nil => rfl
  | cons r rules ih =>
    obtain ⟨c, hc⟩ := h r (.head _)
    rw [List.map_cons, List.nodup_cons] at hids
    have hnew : seen.contains r.id = false := by simpa using hseen r (.head _)
    simp only [checkRules, hnew, hc]
    refine ih (fun r' hr' => ?_) hids.2 fun r' hr' => h r' (.tail _ hr')
    rw [List.mem_cons, not_or]
    exact ⟨fun heq => hids.1 (heq ▸ List.mem_map_of_mem hr'), hseen r' (.tail _ hr')⟩

theorem acceptedBy_iff {load : String → Except Defect Catalog} {text : String} {catalog : Catalog} :
    acceptedBy load text = .ok catalog ↔
      load text = .ok catalog ∧ checkRules [] catalog.rules = .ok () := by
  rw [acceptedBy]
  cases load text with
  | error e => simp [bind, Except.bind]
  | ok c =>
    cases hcheck : checkRules [] c.rules with
    | error e =>
      simp only [bind, Except.bind, hcheck]
      grind
    | ok u =>
      simp only [bind, Except.bind, hcheck, pure, Except.pure]
      grind

end Catalog

namespace Scene

def guardText (name : String) : String := s!"(*$GUARD_ENV)->{name}($GUARD_ENV)"

theorem guardOf_eq (s : Settings) :
    guardOf s = ((s.exceptionChecks.map guardText).mapM Pattern.compile).map fun cond =>
    ⟨.branch, some cond, none, none⟩ := by
  have hbind : guardOf s = (s.exceptionChecks.map guardText).mapM Pattern.compile >>= fun cond =>
      pure ⟨.branch, some cond, none, none⟩ := rfl
  rw [hbind]
  cases (s.exceptionChecks.map guardText).mapM Pattern.compile <;> rfl

theorem guardOf_isOk_iff {s : Settings} : (∃ guard, guardOf s = .ok guard) ↔
    ∀ name ∈ s.exceptionChecks, ∃ p, Pattern.compile (guardText name) = .ok p := by
  have hall := mapM_isOk_iff (f := Pattern.compile) (l := s.exceptionChecks.map guardText)
  rw [List.forall_mem_map] at hall
  rw [guardOf_eq, ← hall]
  cases (s.exceptionChecks.map guardText).mapM Pattern.compile <;> simp [Except.map]

theorem exists_of_guardOf_error {s : Settings} {stop : Stop} (h : guardOf s = .error stop) :
    ∃ name ∈ s.exceptionChecks, Pattern.compile (guardText name) = .error stop := by
  rw [guardOf_eq] at h
  cases hall : (s.exceptionChecks.map guardText).mapM Pattern.compile with
  | ok ps =>
    rw [hall] at h
    cases h
  | error e =>
    rw [hall] at h
    cases h
    obtain ⟨text, htext, hfail⟩ := exists_of_mapM_error hall
    obtain ⟨name, hname, rfl⟩ := List.mem_map.mp htext
    exact ⟨name, hname, hfail⟩

end Scene

theorem wordText_of_all {t : List Char}
    (h : (t.head?.any isNameStart && t.tail.all isNameChar) = true) : WordText t := by
  obtain ⟨hstart, hrest⟩ := Bool.and_eq_true_iff.mp h
  cases t with
  | nil => cases hstart
  | cons c rest => exact ⟨c, rest, rfl, hstart, List.all_eq_true.mp hrest⟩

namespace Scene

section Words

variable {c : Parse.Context} {E : Stop → Prop} {name : String}

def guardPointer : String := "$GUARD_ENV"

theorem isPath_guardPointer : Expr.IsPath guardPointer := by
  refine ⟨guardPointer, [], rfl, fun x hx => ?_, by decide⟩
  rw [List.mem_singleton.mp hx]
  exact wordText_of_all (by decide +kernel)

theorem pathWords_guardPointer : Expr.pathWords guardPointer = [(.ident, guardPointer)] := by decide

def guardExpr (name : String) : Expr :=
  .call (.member (.unary .deref (.name guardPointer .origin) .before .origin) name true .origin)
    [.name guardPointer .origin] true .origin

def guardWords (name : String) : List Word :=
  (TokenKind.punct, "(") :: ([(TokenKind.punct, "*"),
    (TokenKind.ident, guardPointer)] ++ [(TokenKind.punct, ")")]) ++ [(TokenKind.punct, "->"),
    (TokenKind.ident, name)] ++ (TokenKind.punct, "(") :: (Expr.commaWords
    ([Expr.name guardPointer .origin].map Expr.words) ++ [(TokenKind.punct, ")")])

theorem whole_guard (hc : c.Matched) (name : String) :
    Parse.Exprs.Whole c E [] (guardExpr name) (guardWords name) 2 := by
  have hname : Parse.Exprs.Stem c E [] (.name guardPointer .origin) [(.ident, guardPointer)] 0 := by
    rw [← pathWords_guardPointer]
    exact Parse.Exprs.stem_name isPath_guardPointer _
  have harg :
      Parse.Exprs.Whole c E [] (.name guardPointer .origin) (Expr.pathWords guardPointer) 0 :=
    (Parse.Exprs.stem_name isPath_guardPointer _).operand.operation.left.whole
  have hsign : UnOp.deref ∈ UnOp.signs := by decide
  have hderef := (Parse.Exprs.operand_sign hsign hname.operand .origin).operation.left.whole
  have hblocks : Blocks [(.punct, UnOp.deref.text), (.ident, guardPointer)] :=
    ⟨[], [(.punct, "*")], (.ident, guardPointer), [],
      rfl, by simp, by simp [Word.isMark], by simp [Word.isNamePart], by decide, by decide⟩
  have hfunc :=
    Parse.Exprs.stem_member (Parse.Exprs.stem_parens hc hblocks hderef) name true .origin
  have hargs :
      ∀ a ∈ [Expr.name guardPointer .origin], Parse.Exprs.Whole c E [] a a.words a.nesting := by
    intro a ha
    rw [List.mem_singleton.mp ha]
    exact harg
  have hbegins : ∀ a ∈ [Expr.name guardPointer .origin], Begins a.words := by
    intro a ha
    rw [List.mem_singleton.mp ha]
    exact ⟨(.ident, guardPointer), [], pathWords_guardPointer, by decide⟩
  have hvia :
      Expr.isThrough [] (.member (.unary .deref (.name guardPointer .origin) .before .origin) name
        true .origin) [Expr.name guardPointer .origin] = true := by
    simp [Expr.isThrough, Expr.tablePointer?, Expr.strip, Expr.name?]
  exact (Parse.Exprs.stem_call hfunc hargs hbegins hvia .origin).operand.operation.left.whole

theorem toList_guardText (name : String) :
    (guardText name).toList = '(' :: '*' :: (guardPointer.toList ++ [')']) ++
      (['-', '>'] ++ name.toList) ++ '(' :: (guardPointer.toList ++ [')']) := by
  have htext : guardText name = "(*$GUARD_ENV)->" ++ name ++ "($GUARD_ENV)" := rfl
  simp [htext, guardPointer]

theorem cuts_guard (h : WordText name.toList) :
    Expr.CutsInto (guardText name).toList (guardWords name) false := by
  have hpointer := Expr.cuts_path isPath_guardPointer
  rw [pathWords_guardPointer] at hpointer
  have hparens : Expr.CutsInto ('(' :: '*' :: (guardPointer.toList ++ [')']))
      ((TokenKind.punct, "(") :: ([(TokenKind.punct, "*"), (TokenKind.ident, guardPointer)] ++
        [(TokenKind.punct, ")")])) false := by
    refine ⟨⟨'(', _, rfl, rfl, by decide⟩, fun r hr _ => ?_⟩
    have hclose : Lexer.Cuts (')' :: r) [(.punct, ")")] r :=
      Lexer.Cuts.ofPunct (p := ")") (by decide) (by decide) (alone_of_final (by decide) r) (.done r)
    have hinner := (hpointer.cuts (')' :: r) (breaks_cons (by decide)) (by simp)).append hclose
    have hhead : guardPointer.toList = '$' :: "GUARD_ENV".toList := rfl
    rw [hhead] at hinner ⊢
    have hstar :=
      Lexer.Cuts.ofPunct (p := "*") (by decide) (by decide) (alone_of_isNameChar "*" rfl _) hinner
    have hopen :=
      Lexer.Cuts.ofPunct (p := "(") (by decide) (by decide) (alone_of_final (by decide) _) hstar
    simpa using hopen
  have hmember := Expr.cuts_member hparens true h
  have hall : ∀ a ∈ [Expr.name guardPointer .origin], Expr.CutsWhole a := by
    intro a ha
    rw [List.mem_singleton.mp ha]
    exact Expr.cuts_path isPath_guardPointer
  have hcall := Expr.cuts_call hmember hall
  rw [toList_guardText]
  exact hcall

theorem balanced_guard (name : String) : Brackets.BalancedWords (guardWords name) := by
  have hderef : Brackets.BalancedWords [(.punct, "*"), (.ident, guardPointer)] :=
    .cons rfl (.cons rfl .nil)
  have harg : Brackets.BalancedWords (Expr.pathWords guardPointer) := by
    rw [pathWords_guardPointer]
    exact .cons rfl .nil
  exact ((hderef.group (by simp)).append (.cons rfl (.cons rfl .nil))).append (harg.group (by simp))

end Words

/-- The pattern of an exception check whose name is a word can be read. -/
theorem compile_guardText {name : String} (h : WordText name.toList) :
    ∃ p, Pattern.compile (guardText name) = .ok p := by
  have htrim : Text.trim (guardText name) = guardText name := by
    have hfirst : (guardText name).toList.head? = some '(' := by rw [toList_guardText]; rfl
    have hlast : (guardText name).toList.getLast? = some ')' := by
      rw [toList_guardText, List.getLast?_append]
      rfl
    exact trim_eq hfirst hlast rfl rfl
  have hcuts := (cuts_guard h).cuts [] (by simp [Breaks]) (by simp)
  rw [List.append_nil] at hcuts
  have hread := Parse.expressionWithin_of_whole hcuts (cuts_guard h).firm.head (balanced_guard name)
    (fun hc => whole_guard hc name) Parse.nestingLimit
  rw [Pattern.compile, htrim]
  cases hparse : Expr.parse (guardText name) [] with
  | ok e => exact ⟨⟨guardText name, e⟩, rfl⟩
  | error stop =>
    have hdeep := (hread.2 stop hparse).2
    rw [Parse.nestingLimit] at hdeep
    omega

end Scene

namespace Analysis

variable {source path : String} {s : Settings} {unit : SourceFile}
  {rules : List Rule} (hunit : SourceFile.parse source path s.interfaceTypes = .ok unit)
  (hrules : ∀ r ∈ rules, ∃ c, r.compile = .ok c)
include hunit hrules

theorem analyze_of_no_functions (hnone : unit.functions = []) :
    ∃ report, analyze source path rules s = .ok report := by
  simp only [analyze, hunit, ofUnit, (mapM_compile hrules).1, hnone, bind, Except.bind]
  exact ⟨_, rfl⟩

theorem analyze_of_guard_error {stop : Stop} (hguard : Scene.guardOf s = .error stop)
    (hsome : unit.functions ≠ []) : analyze source path rules s = .error stop := by
  obtain ⟨f, fs, hfs⟩ := List.exists_cons_of_ne_nil hsome
  have hscenes : unit.functions.mapM (Scene.make unit.path s) = .error stop := by
    rw [hfs, List.mapM_cons, Scene.make, hguard]
    rfl
  simp only [analyze, hunit, ofUnit, (mapM_compile hrules).1, hscenes, bind, Except.bind]

end Analysis

open Analysis in
/-- Whatever loads catalogs, under rules of an accepted one and its settings the analysis of a
source file comes to a report exactly if the file has no function or the pattern of each exception
check can be read; if it stops, it stops at such a pattern. The pattern of an exception check whose
name is a word can always be read. -/
theorem analyze_of_catalog {load : String → Except Catalog.Defect Catalog}
    {text source path : String} {catalog : Catalog} {rules : List Rule} {unit : SourceFile}
    (hcatalog : Catalog.acceptedBy load text = .ok catalog) (hrules : rules ⊆ catalog.rules)
    (hunit : SourceFile.parse source path catalog.settings.interfaceTypes = .ok unit) :
    ((∃ report, analyze source path rules catalog.settings = .ok report) ↔
      unit.functions = [] ∨ ∀ name ∈ catalog.settings.exceptionChecks,
        ∃ p, Pattern.compile (Scene.guardText name) = .ok p) ∧
    (∀ stop, analyze source path rules catalog.settings = .error stop →
      ∃ name ∈ catalog.settings.exceptionChecks,
        Pattern.compile (Scene.guardText name) = .error stop) ∧
    ∀ name : String, WordText name.toList →
      ∃ p, Pattern.compile (Scene.guardText name) = .ok p := by
  have hcheck : Catalog.checkRules [] catalog.rules = .ok () :=
    (Catalog.acceptedBy_iff.mp hcatalog).2
  have hcompile : ∀ r ∈ rules, ∃ c, r.compile = .ok c := fun r hr =>
    Catalog.compile_of_checkRules hcheck r (hrules hr)
  have hwith : ∀ guard, Scene.guardOf catalog.settings = .ok guard →
      ∃ report, analyze source path rules catalog.settings = .ok report :=
    fun guard hguard => ⟨_, analyze_eq hunit hguard hcompile⟩
  rw [← Scene.guardOf_isOk_iff]
  refine ⟨⟨fun hreport => ?_, ?_⟩, fun stop hstop => ?_, fun name => Scene.compile_guardText⟩
  · by_contra hnot
    rw [not_or] at hnot
    cases hguard : Scene.guardOf catalog.settings with
    | ok guard => exact hnot.2 ⟨guard, hguard⟩
    | error stop =>
      obtain ⟨report, hreport⟩ := hreport
      rw [analyze_of_guard_error hunit hcompile hguard hnot.1] at hreport
      cases hreport
  · rintro (hnone | ⟨guard, hguard⟩)
    · exact analyze_of_no_functions hunit hcompile hnone
    · exact hwith guard hguard
  · cases hguard : Scene.guardOf catalog.settings with
    | ok guard =>
      obtain ⟨report, hreport⟩ := hwith guard hguard
      rw [hreport] at hstop
      cases hstop
    | error stop' =>
      by_cases hnone : unit.functions = []
      · obtain ⟨report, hreport⟩ := analyze_of_no_functions hunit hcompile hnone
        rw [hreport] at hstop
        cases hstop
      · rw [analyze_of_guard_error hunit hcompile hguard hnone] at hstop
        cases hstop
        exact Scene.exists_of_guardOf_error hguard

theorem Catalog.compile_builtin : ∀ r ∈ builtinRules, ∃ c, r.compile = .ok c := by
  have hall : ∀ r ∈ builtinRules, (r.compile.toOption.any fun _ => true) = true := by
    simp only [builtinRules, List.forall_mem_cons, List.not_mem_nil, false_implies, implies_true,
      and_true]
    -- one evaluation for each rule: a single one for all of them takes too much memory
    and_intros <;> decide +kernel
  intro r hr
  obtain ⟨c, hc, -⟩ := exists_of_any (hall r hr)
  exact ⟨c, hc⟩

theorem Catalog.checkRules_builtin : checkRules [] builtin.rules = .ok () :=
  checkRules_of_compile (fun _ _ => List.not_mem_nil) (by decide +kernel) compile_builtin

def emptyFunction : String := "void f(void) \x7b \x7d"

theorem parse_emptyFunction : ∃ unit,
    SourceFile.parse emptyFunction "t.c" Catalog.builtin.settings.interfaceTypes = .ok unit ∧
      unit.functions ≠ [] := by
  obtain ⟨unit, hunit, hsome⟩ := exists_of_any
    (x := SourceFile.parse emptyFunction "t.c" Catalog.builtin.settings.interfaceTypes)
    (p := fun unit => !unit.functions.isEmpty) (by decide +kernel)
  exact ⟨unit, hunit, by simpa using hsome⟩

theorem analyze_of_catalog_builtin : ∃ unit report,
    Catalog.acceptedBy (fun _ => .ok .builtin) "" = .ok .builtin ∧
    SourceFile.parse emptyFunction "t.c" Catalog.builtin.settings.interfaceTypes = .ok unit ∧
    unit.functions ≠ [] ∧
    analyze emptyFunction "t.c" Catalog.builtin.rules Catalog.builtin.settings = .ok report := by
  have hcatalog : Catalog.acceptedBy (fun _ => .ok .builtin) "" = .ok .builtin :=
    Catalog.acceptedBy_iff.mpr ⟨rfl, Catalog.checkRules_builtin⟩
  have hwords : ∀ name ∈ Catalog.builtin.settings.exceptionChecks,
      (name.toList.head?.any isNameStart && name.toList.tail.all isNameChar) = true := by
    decide +kernel
  obtain ⟨unit, hunit, hsome⟩ := parse_emptyFunction
  have hresult := analyze_of_catalog hcatalog (List.Subset.refl _) hunit
  obtain ⟨report, hreport⟩ := hresult.1.mpr (.inr fun name hname =>
    hresult.2.2 name (wordText_of_all (hwords name hname)))
  exact ⟨unit, report, hcatalog, hunit, hsome, hreport⟩

/-- A parenthesis in place of the names of exception checks. -/
def Catalog.unnamed : Catalog :=
  ⟨{ builtinSettings with exceptionChecks := ["("] }, builtinRules⟩

/-- The built-in rules are accepted with these settings, and the analysis of any function stops. -/
theorem analyze_stopped_by_check : ∃ unit stop,
    Catalog.acceptedBy (fun _ => .ok .unnamed) "" = .ok .unnamed ∧
    SourceFile.parse emptyFunction "t.c" Catalog.unnamed.settings.interfaceTypes = .ok unit ∧
    analyze emptyFunction "t.c" Catalog.unnamed.rules Catalog.unnamed.settings = .error stop := by
  have hnone : (Scene.guardOf Catalog.unnamed.settings).toOption.isNone = true := by decide +kernel
  have hcheck : Catalog.checkRules [] Catalog.unnamed.rules = .ok () := Catalog.checkRules_builtin
  obtain ⟨unit, hunit, hsome⟩ := parse_emptyFunction
  have hunit : SourceFile.parse emptyFunction "t.c" Catalog.unnamed.settings.interfaceTypes =
    .ok unit := hunit
  cases hguard : Scene.guardOf Catalog.unnamed.settings with
  | ok guard =>
    rw [hguard] at hnone
    cases hnone
  | error stop =>
    exact ⟨unit, stop, Catalog.acceptedBy_iff.mpr ⟨rfl, hcheck⟩, hunit,
      Analysis.analyze_of_guard_error hunit (Catalog.compile_of_checkRules hcheck) hguard hsome⟩

end JniContracts
