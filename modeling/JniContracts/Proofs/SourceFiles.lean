import JniContracts.Proofs.FileScope
import JniContracts.Proofs.Gathering

/-!
Reading whole source files: when reading comes to an end, where the body of a function ends, and
what becomes of each header.
-/

namespace JniContracts

namespace Parse

variable {α : Type} {s : State}

theorem Reads.weaken {c : Context} {E E' : Stop → Prop} {m : ParseM α} {Q Q' : α → State → Prop}
    (h : Reads c E m s Q) (hE : ∀ e, E e → E' e) (hQ : ∀ a s', Q a s' → Q' a s') :
    Reads c E' m s Q' := by
  unfold Reads at h ⊢
  split at h
  · exact hQ _ _ h
  · exact hE _ h

theorem Context.Comes.le {c : Context} {i j : Nat} (hc : c.Matched) (ho : c.Orderly)
    (h : c.Comes i j) : i ≤ j := by
  rcases h with rfl | h
  · exact Nat.le_refl i
  · exact Nat.le_of_lt (h.forward hc ho).1

theorem Context.Excuses.ne_endless {c : Context} (ho : c.Orderly) {e : Stop} (h : c.Excuses e) :
    e ≠ .endless := by
  rintro rfl
  exact h ho

/-- A loop that goes forward in each round: as many rounds as there are tokens left are enough. -/
def Ends (c : Context) {α : Type} (loop : Nat → ParseM α) (s : State) : Prop :=
  ∀ fuel, c.tokens.size - s.pos < fuel →
    Reads c (· ≠ .endless) (loop fuel) s fun _ s' => s.pos ≤ s'.pos

theorem ends_of_idle {c : Context} {loop : Nat → ParseM α} (hc : c.Matched) (ho : c.Orderly)
    (h : ∀ fuel, Exprs.Enough c fuel s →
      Reads c c.Excuses (loop fuel) s fun _ s' => c.Comes s.pos s'.pos) : Ends c loop s := by
  intro fuel hfuel
  exact (h fuel fun _ => hfuel).weaken (fun _ he => he.ne_endless ho) fun _ _ hs => hs.le hc ho

theorem ends_of_steady {c : Context} {loop : Nat → ParseM α} (hc : c.Matched) (ho : c.Orderly)
    (h : ∀ fuel, Exprs.Enough c fuel s →
      Reads c c.Excuses (loop fuel) s fun _ s' => c.Passes s.pos s'.pos) : Ends c loop s :=
  ends_of_idle hc ho fun fuel hf => (h fuel hf).imp fun _ _ hs => hs.comes

structure Exprs.LoopsEnd (c : Context) (g : Exprs) : Prop where
  args : ∀ seen s, Ends c (g.argsFor · seen) s
  names : ∀ name s, Ends c (nameFor · name) s
  strings : ∀ text s, Ends c (stringsFor · text) s
  items : ∀ seen s, Ends c (g.itemsFor · seen) s
  suffixes : ∀ e s, Ends c (g.suffixesFor · e) s
  operators : ∀ levels least left s, Ends c (binaryFor (g.binary levels) least · left) s
  commas : ∀ e s, Ends c (g.commasFor · e) s

structure Stmts.LoopsEnd (c : Context) (g : Stmts) : Prop where
  exprs : g.exprs.LoopsEnd c
  indexes : ∀ s, Ends c skipIndexesFor s
  declarators : ∀ isInterface seen s, Ends c (g.declaratorsFor isInterface · seen) s
  semicolon : ∀ s, Ends c skipToSemicolonFor s
  statements : ∀ seen s, Ends c (g.statementsFor · seen) s
  handlers : ∀ i s, (c.tokenAt i).isPunct "\x7d" = true → s.pos = i + 1 → Ends c g.handlersFor s

variable {c : Context} {stop : Stop}

theorem Exprs.AllSteady.loopsEnd {g : Exprs} (hc : c.Matched) (ho : c.Orderly)
    (hg : g.AllSteady c) : g.LoopsEnd c where
  args seen s := ends_of_steady hc ho fun fuel hf => argsFor_steady hc hg fuel seen s hf
  names name s := ends_of_idle hc ho fun fuel hf => nameFor_idle hc fuel name s hf
  strings text s := ends_of_idle hc ho fun fuel hf => stringsFor_idle hc fuel text s hf
  items seen s := ends_of_idle hc ho fun fuel hf => itemsFor_idle hc hg fuel seen s hf
  suffixes e s := ends_of_idle hc ho fun fuel hf => suffixesFor_idle hc hg fuel e s hf
  operators levels least left s := ends_of_idle hc ho fun fuel hf =>
    binaryFor_idle hc (binary_steady hc hg levels) least fuel left s hf
  commas e s := ends_of_idle hc ho fun fuel hf => commasFor_idle hc hg fuel e s hf

theorem Stmts.AllSteady.loopsEnd {g : Stmts} (hc : c.Matched) (ho : c.Orderly)
    (hg : g.AllSteady c) : g.LoopsEnd c where
  exprs := hg.exprs.loopsEnd hc ho
  indexes s := ends_of_idle hc ho fun fuel hf => skipIndexesFor_idle hc fuel s hf
  declarators isInterface seen s := ends_of_steady hc ho fun fuel hf =>
    declaratorsFor_steady hc hg isInterface fuel seen s hf
  semicolon s := by
    intro fuel hf
    refine (skipToSemicolonFor_skips hc fuel s fun _ => hf).weaken (fun _ he => he.ne_endless ho)
      fun _ _ hs => ?_
    exact Nat.le_of_lt (hs.lt hc).1
  statements seen s := ends_of_idle hc ho fun fuel hf =>
    (statementsFor_gives hc hg fuel seen s s.pos (.refl _) hf).imp fun _ _ h => h.2
  handlers i s hi hs := ends_of_idle hc ho fun fuel hf => handlersFor_idle hc hg fuel s hs hi hf

theorem functionBody_ok {g : Stmts} (hg : g.AllSteady c) {header : Header} {brace : Nat}
    {globals : List String} {body : Stmt}
    (h : functionBody g c header brace globals = .ok (body, s)) :
    ∃ j, s.pos = j + 1 ∧ c.Encases brace j body := (hg.block _).of_ok h

theorem functionBody_error {g : Stmts} (hg : g.AllSteady c) {header : Header} {brace : Nat}
    {globals : List String} (h : functionBody g c header brace globals = .error stop) :
    c.Excuses stop := (hg.block _).of_error h

theorem readers_steady (hc : c.Matched) : readers.AllSteady c := Stmts.within_steady hc nestingLimit

def stop? {α : Type} : Except Stop α → Option Stop
  | .ok _ => none
  | .error stop => some stop

theorem eq_error_of_stop? {x : Except Stop α} (h : stop? x = some stop) : x = .error stop := by
  cases x with
  | ok a => cases h
  | error stop' => rw [Option.some.inj h]

section Outcome

variable {source path : String} {types : List String}

theorem atFileScope_fresh (c : Context) : Progress.fresh.AtFileScope c := ⟨[], .start c, rfl⟩

/-- A text that can be read leads to a source file with an entry for each header, or reading the
body of a function stops for a bracket that is missing or has no end. -/
theorem parse_cases (path : String) (h : contextOf source types = .ok c) :
    (∃ unit hs es, SourceFile.parse source path types = .ok unit ∧ c.Outline 0 0 hs ∧
      List.Forall₂ (Entry readers c) hs es ∧ unit.functions = es.filterMap Sum.getLeft? ∧
      unit.faults = es.filterMap Sum.getRight?) ∨
    ∃ stop, SourceFile.parse source path types = .error stop ∧ Progress.Escapes readers c stop := by
  have hc := matched_of_contextOf h
  simp only [parse_eq, h]
  rcases Progress.run_cases (g := readers) hc c.tokens.size .fresh (atFileScope_fresh c)
    (Nat.le_add_left _ _) with
    ⟨p', hs, hrun, houtline, es, hes, hfunctions, hfaults⟩ | ⟨stop, hrun, hstop⟩
  · exact .inl ⟨_, hs, es, by rw [hrun]; rfl, houtline, hes, hfunctions, hfaults⟩
  · exact .inr ⟨stop, by rw [hrun]; rfl, hstop⟩

theorem Context.Outline.header {start pos : Nat} {hs : List (Nat × Header)}
    (h : c.Outline start pos hs) {brace : Nat} {header : Header} (hmem : (brace, header) ∈ hs) :
    opensBlock (c.tokenAt brace) = true ∧ ∃ start, c.functionHeader start brace = some header := by
  induction h with
  | done => cases hmem
  | @function start pos header' hs ho hh _ ih =>
    rcases List.mem_cons.mp hmem with heq | hmem
    · cases heq
      exact ⟨ho, start, hh⟩
    · exact ih hmem
  | scope _ _ _ _ ih | braces _ _ _ _ ih | stop _ _ ih | group _ _ ih | access _ _ _ ih
  | token _ _ _ _ ih => exact ih hmem

theorem excuse_of_escapes (hc : c.Matched) (h : Progress.Escapes readers c stop) :
    stop = .endless ∧ ¬ c.Orderly ∨ ∃ i, stop = .noBracket (i + 2) ∧ c.lacksBracket i = true := by
  obtain ⟨header, brace, globals, hbody, hkind⟩ := h
  have hexcuse := functionBody_error (readers_steady hc) hbody
  rcases hkind with rfl | ⟨k, rfl⟩
  · exact .inl ⟨rfl, hexcuse⟩
  · obtain ⟨i, rfl, hi⟩ := hexcuse
    exact .inr ⟨i, rfl, hi⟩

theorem entries_of_parse (h : contextOf source types = .ok c) {unit : SourceFile}
    (hunit : SourceFile.parse source path types = .ok unit) :
    ∃ hs es, c.Outline 0 0 hs ∧ List.Forall₂ (Entry readers c) hs es ∧
    unit.functions = es.filterMap Sum.getLeft? ∧ unit.faults = es.filterMap Sum.getRight? := by
  rcases parse_cases path h with ⟨unit', hs, es, hok, hentries⟩ | ⟨stop, hstop, -⟩
  · cases hok.symm.trans hunit
    exact ⟨hs, es, hentries⟩
  · cases hstop.symm.trans hunit

theorem excuse_of_parse (h : contextOf source types = .ok c)
    (hstop : SourceFile.parse source path types = .error stop) :
    stop = .endless ∧ ¬ c.Orderly ∨ ∃ i, stop = .noBracket (i + 2) ∧ c.lacksBracket i = true := by
  rcases parse_cases path h with ⟨unit, hs, es, hok, -⟩ | ⟨stop', hstop', hesc⟩
  · cases hok.symm.trans hstop
  · cases hstop'.symm.trans hstop
    exact excuse_of_escapes (matched_of_contextOf h) hesc

/-- A text that has no tokens, or whose brackets are not balanced, has a fault. Of every other text
each header becomes a function or a fault, in order, unless reading the body of a function meets a
handler that has no bracket, or comes to no end; neither happens where reading goes only forward and
each handler has its bracket. -/
theorem parse_outcome (source path : String) (types : List String) :
    ((∃ f, SourceFile.parse source path types = .error (.fault f)) ↔
      ¬ ∃ tokens, tokenize source = .ok tokens ∧ Brackets.Balanced tokens) ∧
    ∀ c, contextOf source types = .ok c →
      (∀ unit, SourceFile.parse source path types = .ok unit →
        ∃ hs es, c.Outline 0 0 hs ∧ List.Forall₂ (Entry readers c) hs es ∧
          unit.functions = es.filterMap Sum.getLeft? ∧
          unit.faults = es.filterMap Sum.getRight?) ∧
      (∀ stop, SourceFile.parse source path types = .error stop →
        stop = .endless ∧ ¬ c.Orderly ∨
          ∃ i, stop = .noBracket (i + 2) ∧ c.lacksBracket i = true) ∧
      (c.Orderly → c.Nowhere c.lacksBracket →
        ∃ unit, SourceFile.parse source path types = .ok unit) := by
  constructor
  · rw [← contextOf_ok_iff types]
    constructor
    · rintro ⟨f, hf⟩ ⟨c, hc⟩
      rcases excuse_of_parse hc hf with ⟨h, -⟩ | ⟨i, h, -⟩ <;> cases h
    · intro hnone
      cases hc : contextOf source types with
      | ok c => exact absurd ⟨c, hc⟩ hnone
      | error f => exact ⟨f, by rw [parse_eq, hc]⟩
  · intro c hc
    refine ⟨fun unit h => entries_of_parse hc h, fun stop h => excuse_of_parse hc h,
      fun ho hn => ?_⟩
    cases hparse : SourceFile.parse source path types with
    | ok unit => exact ⟨unit, rfl⟩
    | error stop =>
      rcases excuse_of_parse hc hparse with ⟨-, hnot⟩ | ⟨i, -, hi⟩
      · exact absurd ho hnot
      · rw [hn.at (matched_of_contextOf hc).size_of_lacksBracket] at hi
        cases hi

def faultyScope : String := "namespace n \x7b void f() \x7b 1 +; \x7d void g() \x7b \x7d \x7d"

theorem parse_outcome_scoped :
    ∃ c unit, contextOf faultyScope [] = .ok c ∧ c.Orderly ∧ c.Nowhere c.lacksBracket ∧
    SourceFile.parse faultyScope "" [] = .ok unit ∧ ∃ hs es, c.Outline 0 0 hs ∧
    List.Forall₂ (Entry readers c) hs es ∧ unit.functions = es.filterMap Sum.getLeft? ∧
    unit.faults = es.filterMap Sum.getRight? := by
  obtain ⟨c, hc, hcond⟩ := exists_of_any (x := contextOf faultyScope [])
    (p := fun c => decide (c.Orderly ∧ c.Nowhere c.lacksBracket)) (by decide +kernel)
  obtain ⟨ho, hn⟩ := of_decide_eq_true hcond
  obtain ⟨hentries, -, hok⟩ := (parse_outcome faultyScope "" []).2 c hc
  obtain ⟨unit, hunit⟩ := hok ho hn
  exact ⟨c, unit, hc, ho, hn, hunit, hentries unit hunit⟩

/-- A handler without a bracket is no fault of its function, and no other function is read. -/
theorem parse_bare_catch :
    SourceFile.parse "void f() \x7b try \x7b \x7d catch ; \x7d void g() \x7b \x7d" "" [] =
    .error (.noBracket 9) :=
  eq_error_of_stop? (by decide +kernel)

/-- Where reading goes only forward, it comes to an end: every loop needs no more rounds than there
are tokens left, a step at file scope and a statement go forward, and the name that a declaration
promises is found. -/
theorem parse_ends (h : contextOf source types = .ok c) (ho : c.Orderly) :
    SourceFile.parse source path types ≠ .error .endless ∧
    (∀ p p' : Progress, p.AtFileScope c → (c.tokenAt p.pos).isEof = false →
      p.step readers c = .ok p' → p'.AtFileScope c ∧ p.pos < p'.pos ∧ p'.pos ≤ c.tokens.size) ∧
    (∀ locals i fuel, c.looksLikeDeclaration locals i = true → c.tokens.size - i < fuel →
      ∃ j, c.declaratorStart i fuel i = .ok j ∧ i < j ∧ j ≤ c.tokens.size) ∧
    ∀ levels, (Stmts.within levels).LoopsEnd c ∧
      ∀ s, Reads c (· ≠ .endless) (Stmts.within levels).statement s fun _ s' =>
        s.pos < s'.pos ∧ s'.pos ≤ c.tokens.size := by
  have hc := matched_of_contextOf h
  refine ⟨fun hend => ?_, fun p p' hp heof hstep => ?_, fun locals i fuel hlooks hfuel => ?_,
    fun levels => ?_⟩
  · rcases excuse_of_parse h hend with ⟨-, hnot⟩ | ⟨i, hi, -⟩
    · exact hnot ho
    · cases hi
  · rcases Progress.step_cases (g := readers) hc hp heof with
      ⟨p₁, hs, hok, hsteps⟩ | ⟨stop, hstop, -⟩
    · cases hok.symm.trans hstep
      exact ⟨hsteps.scopes, hsteps.forward, hsteps.bounded⟩
    · cases hstop.symm.trans hstep
  · obtain ⟨j, hj, hlt, hplain⟩ :=
      Context.declaratorStart_of_looksLike hc.ends hlooks (ho.1.at hc.size_of_hidesName) hfuel
    have hlast :=
      Context.lt_size_of_not_eof hc.ends (isEof_of_isPlain (hplain (j - 1) (by omega) (by omega)))
    exact ⟨j, hj, hlt, by omega⟩
  · have hg := Stmts.within_steady hc levels
    refine ⟨hg.loopsEnd hc ho, fun s => ?_⟩
    exact (hg.statement s).weaken (fun _ he => he.ne_endless ho)
      fun _ _ hs => hs.passes.forward hc ho

def handledText : String := "void f() \x7b T *x; try \x7b a < b; \x7d catch (E e) \x7b \x7d \x7d"

theorem parse_ends_handled : ∃ c, contextOf handledText [] = .ok c ∧ c.Orderly ∧
    SourceFile.parse handledText "" [] ≠ .error .endless ∧ readers.LoopsEnd c := by
  obtain ⟨c, hc, hcond⟩ := exists_of_any (x := contextOf handledText [])
    (p := fun c => decide c.Orderly) (by decide +kernel)
  obtain ⟨hend, -, -, hlevels⟩ := @parse_ends c _ "" _ hc (of_decide_eq_true hcond)
  exact ⟨c, hc, of_decide_eq_true hcond, hend, (hlevels nestingLimit).1⟩

/-- A word for a type stands in the place of the declared name. The search for a name goes on behind
the declaration, takes a comparison for the start of template arguments, and looks for their end for
ever. -/
theorem parse_hidden_name :
    SourceFile.parse "void f() \x7b T *int; a < b; \x7d" "" [] = .error .endless :=
  eq_error_of_stop? (by decide +kernel)

/-- The body of each function is read from the brace behind its header. Where reading stays in the
block, it ends behind the brace that closes it, and all statements of the body start in between. -/
theorem body_within_braces (h : contextOf source types = .ok c) {unit : SourceFile}
    (hunit : SourceFile.parse source path types = .ok unit) {f : Function}
    (hf : f ∈ unit.functions) :
    ∃ header start brace close globals s, c.functionHeader start brace = some header ∧
      f.name = header.name ∧ c.partner? brace = some close ∧
      functionBody readers c header brace globals = .ok (f.body, s) ∧
      (c.Contained brace → s.pos = close + 1 ∧
        ∀ t ∈ f.body.walk, ∃ k, t.pos = (c.tokenAt k).pos ∧ brace ≤ k ∧ k ≤ close) := by
  have hc := matched_of_contextOf h
  obtain ⟨hs, es, houtline, hes, hfunctions, -⟩ := entries_of_parse h hunit
  rw [hfunctions] at hf
  obtain ⟨e, he, hleft⟩ := List.mem_filterMap.mp hf
  obtain ⟨⟨brace, header⟩, hmem, hentry⟩ := exists_of_forall₂ hes he
  obtain ⟨hopen, start, hheader⟩ := houtline.header hmem
  obtain ⟨close, hclose, -⟩ :=
    hc.opener (i := brace) (by rw [Context.closer?_opensBlock hopen]; rfl)
  cases hentry with
  | function hbody =>
    cases hleft
    refine ⟨header, start, brace, close, _, _, hheader, rfl, hclose, hbody, fun ht => ?_⟩
    obtain ⟨j, hj, hencases⟩ := functionBody_ok (readers_steady hc) hbody
    obtain ⟨hpartner, hwithin⟩ := hencases.partner hc ht
    cases hclose.symm.trans hpartner
    exact ⟨hj, hwithin⟩
  | fault => cases hleft
  | tooDeep => cases hleft

def nestedText : String := "namespace n \x7b void f() \x7b if (x) \x7b T *y; \x7d \x7d int z; \x7d"

theorem body_within_braces_nested :
    ∃ c unit f, contextOf nestedText [] = .ok c ∧ SourceFile.parse nestedText "" [] = .ok unit ∧
    f ∈ unit.functions ∧ ∃ brace close, c.Contained brace ∧ c.partner? brace = some close ∧
    ∀ t ∈ f.body.walk, ∃ k, t.pos = (c.tokenAt k).pos ∧ brace ≤ k ∧ k ≤ close := by
  obtain ⟨c, hc, hcond⟩ := exists_of_any (x := contextOf nestedText [])
    (p := fun c => decide (∀ b < c.tokens.size, c.Contained b)) (by decide +kernel)
  obtain ⟨unit, hunit, hsome⟩ := exists_of_any (x := SourceFile.parse nestedText "" [])
    (p := fun unit => !unit.functions.isEmpty) (by decide +kernel)
  obtain ⟨f, hf⟩ := List.exists_mem_of_ne_nil unit.functions (by simpa using hsome)
  obtain ⟨header, start, brace, close, globals, s, -, -, hclose, -, hbody⟩ :=
    body_within_braces hc hunit hf
  have hmatched := matched_of_contextOf hc
  have hbrace := of_decide_eq_true hcond brace (hmatched.bound (hmatched.partner hclose))
  exact ⟨c, unit, f, hc, hunit, hf, brace, close, hbrace, hclose, (hbody hbrace).2⟩

/-- A statement that is skipped up to a semicolon, in a body that has none. -/
def overrunText : String := "namespace n \x7b void f() \x7b using x \x7d int y; return; \x7d"

/-- What is skipped takes the end of the body with it, and the body goes on behind. -/
theorem body_beyond_brace : ∃ c unit, contextOf overrunText [] = .ok c ∧
    SourceFile.parse overrunText "" [] = .ok unit ∧ ∃ f ∈ unit.functions, ∃ t ∈ f.body.walk,
      c.partner? 7 = some 10 ∧ (c.tokenAt 7).pos = f.body.pos ∧ (c.tokenAt 14).pos = t.pos := by
  obtain ⟨c, hc, hcond⟩ := exists_of_any (x := contextOf overrunText []) (p := fun c => decide
    (c.partner? 7 = some 10 ∧ (c.tokenAt 7).pos = ⟨1, 24⟩ ∧ (c.tokenAt 14).pos = ⟨1, 43⟩))
    (by decide +kernel)
  obtain ⟨unit, hunit, hbody⟩ := exists_of_any (x := SourceFile.parse overrunText "" [])
    (p := fun unit => unit.functions.any fun f => decide (f.body.pos = ⟨1, 24⟩) && f.body.walk.any
      fun t => t.pos == ⟨1, 43⟩)
    (by decide +kernel)
  simp only [List.any_eq_true, Bool.and_eq_true, decide_eq_true_eq, beq_iff_eq] at hbody hcond
  obtain ⟨f, hf, hpos, t, ht, htpos⟩ := hbody
  exact ⟨c, unit, hc, hunit, f, hf, t, ht, hcond.1, hcond.2.1.trans hpos.symm,
    hcond.2.2.trans htpos.symm⟩

end Outcome

end Parse

end JniContracts
