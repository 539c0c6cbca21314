import JniContracts.Proofs.ReadingExprs

/-!
The readers of statements pass what they read, and every statement that they return starts at a
token of its own. A block ends behind a brace that closes.
-/

namespace JniContracts.Parse

namespace Context

/-- Place `j` is come to while reading from `i` on, perhaps inside blocks that are entered on the
way. -/
inductive Sees (c : Context) : Nat → Nat → Prop where
  | here {i j} (h : c.Comes i j) : Sees c i j
  | enter {i j k} (h : c.Comes i j) (ho : opensBlock (c.tokenAt j) = true) (hs : Sees c (j + 1) k) :
      Sees c i k

def Starts (c : Context) (i : Nat) (s : Stmt) : Prop := ∃ j, s.pos = (c.tokenAt j).pos ∧ c.Sees i j

def Holds (c : Context) (i : Nat) (s : Stmt) : Prop := ∀ t ∈ s.walk, c.Starts i t

/-- What is between the braces at `i` and `j` has been read as the block `a`. -/
structure Encases (c : Context) (i j : Nat) (a : Stmt) : Prop where
  opens : opensBlock (c.tokenAt i) = true
  closes : (c.tokenAt j).isPunct "\x7d" = true
  comes : c.Comes (i + 1) j
  holds : ∀ t ∈ a.walk, t.pos = (c.tokenAt i).pos ∨ c.Starts (i + 1) t

variable {c : Context} {i j : Nat}

theorem Sees.of_comes (h : c.Comes i j) {k : Nat} (hs : c.Sees j k) : c.Sees i k := by
  cases hs with
  | here h' => exact .here (h.trans h')
  | enter h' ho hs => exact .enter (h.trans h') ho hs

theorem Starts.of_comes (h : c.Comes i j) {s : Stmt} (hs : c.Starts j s) : c.Starts i s := by
  obtain ⟨k, hk, hjk⟩ := hs
  exact ⟨k, hk, hjk.of_comes h⟩

theorem Holds.of_comes (h : c.Comes i j) {s : Stmt} (hs : c.Holds j s) : c.Holds i s :=
  fun t ht => (hs t ht).of_comes h

theorem starts_here {s : Stmt} (h : s.pos = (c.tokenAt i).pos) : c.Starts i s :=
  ⟨i, h, .here (.refl i)⟩

theorem Holds.own {s : Stmt} {rest : List Stmt} (hw : s.walk = s :: rest)
    (hpos : s.pos = (c.tokenAt i).pos) (h : ∀ t ∈ rest, c.Starts i t) : c.Holds i s := by
  intro t ht
  rw [hw] at ht
  rcases List.mem_cons.mp ht with rfl | ht
  · exact starts_here hpos
  · exact h t ht

theorem Holds.leaf {s : Stmt} (hw : s.walk = [s]) (hpos : s.pos = (c.tokenAt i).pos) :
    c.Holds i s :=
  .own hw hpos (by simp)

theorem starts_walkAll {ss : List Stmt} (h : ∀ s ∈ ss, c.Holds i s) :
    ∀ t ∈ Stmt.walkAll ss, c.Starts i t := by
  induction ss with
  | nil => simp [Stmt.walkAll]
  | cons s ss ih =>
    intro t ht
    simp only [Stmt.walkAll, List.mem_append] at ht
    simp only [List.mem_cons, forall_eq_or_imp] at h
    exact ht.elim (h.1 t) (ih h.2 t)

/-- Inside a block in which reading stays, all that is seen is in the block. -/
theorem Sees.encloses (hc : c.Matched) {b : Nat} (hb : opensBlock (c.tokenAt b) = true)
    (ht : c.Contained b) (h : c.Sees i j) (hi : c.Encloses b i) : c.Encloses b j := by
  induction h with
  | here h => exact (h.level hc hb ht hi b hb).mp hi
  | enter h ho _ ih => exact ih (Encloses.enter hc ((h.level hc hb ht hi b hb).mp hi) ho)

/-- Where reading stays in a block, the block ends at its own brace and holds only what is in
between. -/
theorem Encases.partner (hc : c.Matched) {a : Stmt} (h : c.Encases i j a) (ht : c.Contained i) :
    c.partner? i = some j ∧ ∀ t ∈ a.walk, ∃ k, t.pos = (c.tokenAt k).pos ∧ i ≤ k ∧ k ≤ j := by
  have hown := hc.encloses_own h.opens
  have hij := hc.partner_of_level h.opens h.closes (h.comes.level hc h.opens ht hown)
  refine ⟨hij, fun t htw => ?_⟩
  rcases h.holds t htw with htop | ⟨k, hk, hsees⟩
  · obtain ⟨j', hj', hlt, hle⟩ := hown
    cases hij.symm.trans hj'
    exact ⟨i, htop, Nat.le_refl i, by omega⟩
  · obtain ⟨j', hj', hlt, hle⟩ := hsees.encloses hc h.opens ht hown
    cases hij.symm.trans hj'
    exact ⟨k, hk, Nat.le_of_lt hlt, hle⟩

end Context

structure Gives (c : Context) (i : Nat) (a : Stmt) (s' : State) : Prop where
  passes : c.Passes i s'.pos
  holds : c.Holds i a

namespace Gives

variable {c : Context} {i j : Nat} {a b : Stmt} {s' : State}

/-- A statement around another one, which is read behind what was passed before. -/
theorem around (h : c.Passes i j) (h' : Gives c j a s') (hw : b.walk = b :: a.walk)
    (hpos : b.pos = (c.tokenAt i).pos) : Gives c i b s' :=
  ⟨h.trans h'.passes, .own hw hpos (h'.holds.of_comes h.comes)⟩

theorem of_encases {k : Nat} (h : c.Encases i k a) (hs : s'.pos = k + 1) : Gives c i a s' := by
  refine ⟨hs ▸ Context.Comes.block h.opens h.comes h.closes, fun t ht => ?_⟩
  rcases h.holds t ht with htop | ⟨m, hm, hsees⟩
  · exact Context.starts_here htop
  · exact ⟨m, hm, .enter (.refl i) h.opens hsees⟩

end Gives

namespace Stmts

structure AllSteady (c : Context) (g : Stmts) : Prop where
  exprs : g.exprs.AllSteady c
  statement : ∀ s, Reads c c.Excuses g.statement s (Gives c s.pos)
  block : ∀ s, Reads c c.Excuses g.block s fun a s' => ∃ j, s'.pos = j + 1 ∧ c.Encases s.pos j a

variable {c : Context} {g : Stmts} {s : State}

open Exprs (Enough enough_rounds not_enough_zero)

section Declarations

theorem skipIndexesFor_idle (hc : c.Matched) (fuel : Nat) (s : State) (hf : Enough c fuel s) :
    Reads c c.Excuses (skipIndexesFor fuel) s fun _ s' => c.Comes s.pos s'.pos := by
  induction fuel generalizing s with
  | zero => exact not_enough_zero hf
  | succ fuel ih =>
    simp only [skipIndexesFor, reads_bind, reads_peek, reads_ite, reads_pure]
    split
    · rename_i hopen
      refine reads_jump_of hc (isPunctOf_of_isPunct hopen (by decide)) fun s₁ h₁ => ?_
      exact (ih _ (hf.step hc h₁)).imp fun _ _ h₂ => h₁.comes.trans h₂
    · exact .refl _

theorem declaratorArgs_idle (hc : c.Matched) (hg : g.AllSteady c) : Idle c g.declaratorArgs := by
  intro s
  simp only [declaratorArgs, reads_bind, reads_peek, reads_ite, reads_pure]
  split
  · rename_i hopen
    refine reads_advance_of (isPlain_of_isPunct hopen (by decide) (by decide)) fun h₁ => ?_
    exact (Exprs.args_steady hc hg.exprs _).imp fun _ _ h₂ => (h₁.trans h₂).comes
  · split
    · rename_i hcolon
      refine reads_advance_of (isPlain_of_isPunct hcolon (by decide) (by decide)) fun h₁ => ?_
      exact (hg.exprs.conditional _).imp fun _ _ h₂ => (h₁.trans h₂).comes
    · exact .refl _

theorem initialiser_idle (hg : g.AllSteady c) : Idle c g.initialiser := by
  intro s
  simp only [initialiser, reads_bind, reads_peek, reads_accept, reads_ite, reads_pure, if_true,
    Bool.false_eq_true, if_false]
  split
  · rename_i heq
    have h₁ := passes_punct heq (by decide) (by decide)
    exact (hg.exprs.assignment _).imp fun _ _ h₂ => (h₁.trans h₂).comes
  · split
    · exact (hg.exprs.primary _).imp fun _ _ h₁ => h₁.comes
    · exact .refl _

theorem reads_declare {name : String} {isInterface : Bool} {Q : Unit → State → Prop}
    (h : ∀ s', s'.pos = s.pos → Q () s') : Reads c c.Excuses (declare name isInterface) s Q :=
  h _ rfl

theorem declarator_steady (hc : c.Matched) (hg : g.AllSteady c) (isInterface : Bool) :
    Steady c (g.declarator isInterface) := by
  intro s
  simp only [declarator, skipIndexes, reads_bind, reads_read, reads_get, reads_moveTo, reads_pure]
  have h₁ : c.Comes s.pos (c.skipWhile isPointerMark s.pos) :=
    .region (Context.le_skipWhile _) fun m him hm =>
      (Context.isPlain_of_isPointerMark (Context.of_lt_skipWhile him hm)).1
  refine reads_expectName_of fun hname => ?_
  have h₂ := h₁.passes (passes_word hname)
  refine reads_declare fun s₂ hs₂ => ?_
  rw [← hs₂] at h₂
  refine (skipIndexesFor_idle hc _ s₂ (enough_rounds c s₂)).imp fun _ s₃ h₃ => ?_
  refine (declaratorArgs_idle hc hg s₃).imp fun _ s₄ h₄ => ?_
  exact (initialiser_idle hg s₄).imp fun _ s₅ h₅ => h₂.then (h₃.trans (h₄.trans h₅))

theorem declaratorsFor_steady (hc : c.Matched) (hg : g.AllSteady c) (isInterface : Bool)
    (fuel : Nat) (seen : List Declarator) (s : State) (hf : Enough c fuel s) :
    Reads c c.Excuses (g.declaratorsFor isInterface fuel seen) s fun _ s' =>
    c.Passes s.pos s'.pos := by
  induction fuel generalizing seen s with
  | zero => exact not_enough_zero hf
  | succ fuel ih =>
    simp only [declaratorsFor, reads_bind, reads_accept, reads_ite, reads_pure, if_true,
      Bool.false_eq_true, if_false]
    refine (declarator_steady hc hg isInterface s).imp fun d s₁ h₁ => ?_
    split
    · rename_i hcomma
      have h₂ := h₁.trans (passes_punct hcomma (by decide) (by decide))
      exact (ih _ _ (hf.step hc h₂)).imp fun _ _ h₃ => h₂.trans h₃
    · exact h₁

/-- The search for the declared name ends, unless names are hidden. -/
theorem excuses_declaratorStart (hc : c.Matched) {locals : List String} {i : Nat} {e : Stop}
    (h : c.looksLikeDeclaration locals i = true) (he : c.declaratorStart i c.rounds i = .error e) :
    c.Excuses e := by
  rcases Context.declaratorStart_error _ _ he with rfl | ⟨f, rfl⟩
  · intro ho
    obtain ⟨j, hj, -⟩ := Context.declaratorStart_of_looksLike hc.ends h
      (ho.1.at hc.size_of_hidesName) (c.sub_lt_rounds i)
    cases he.symm.trans hj
  · trivial

theorem declaration_steady (hc : c.Matched) (hg : g.AllSteady c) {terminator : String}
    (h₁ : terminator ≠ "\x7b") (h₂ : terminator ≠ "\x7d")
    (h : c.looksLikeDeclaration s.locals s.pos = true) :
    Reads c c.Excuses (g.declaration terminator) s fun d s' =>
      c.Passes s.pos s'.pos ∧ d.pos = (c.tokenAt s.pos).pos := by
  simp only [declaration, reads_bind, reads_read, reads_peek, reads_get, reads_lift]
  split
  · rename_i j hj
    simp only [reads_moveTo, reads_pure]
    have ht := Context.Passes.type h hj
    refine (declaratorsFor_steady hc hg _ _ _ _ (enough_rounds c _)).imp fun ds s₁ hs₁ => ?_
    exact reads_expect_of fun hend => ⟨(ht.trans hs₁).trans (passes_punct hend h₁ h₂), rfl⟩
  · rename_i e he
    exact excuses_declaratorStart hc h he

theorem condition_steady (hc : c.Matched) (hg : g.AllSteady c) : Steady c g.condition := by
  intro s
  simp only [condition, reads_bind, reads_looksLikeDeclaration, reads_ite]
  refine reads_expect_of fun hopen => ?_
  have h₁ := passes_punct hopen (by decide) (by decide)
  split
  · rename_i hlooks
    refine (declaration_steady hc hg (by decide) (by decide) hlooks).imp fun d s₁ h₂ => ?_
    cases d <;> exact h₁.trans h₂.1
  · refine (hg.exprs.expression _).imp fun e s₁ h₂ => ?_
    exact reads_expect_of fun hclose => (h₁.trans h₂).trans
      (passes_punct hclose (by decide) (by decide))

end Declarations

section Blocks

theorem skipToSemicolonFor_skips (hc : c.Matched) (fuel : Nat) (s : State) (hf : Enough c fuel s) :
    Reads c c.Excuses (skipToSemicolonFor fuel) s fun _ s' => c.SkipsTo s.pos s'.pos := by
  induction fuel generalizing s with
  | zero => exact not_enough_zero hf
  | succ fuel ih =>
    simp only [skipToSemicolonFor, reads_bind, reads_peek, reads_ite, reads_pure, reads_fail]
    split
    · rename_i hsemi
      rw [reads_advance (not_isEof_of_isPunct hsemi)]
      exact .stop hsemi
    · rename_i hsemi
      split
      · trivial
      · rename_i heof
        rw [Bool.not_eq_true] at hsemi heof
        split
        · rename_i hopen
          obtain ⟨j, hj, -⟩ := hc.opener (i := s.pos) (by rw [Brackets.isSome_closer?, hopen])
          rw [reads_jump hj]
          exact (ih _ (hf.step hc (.leap hopen hj))).imp fun _ _ h => .leap hopen hj h
        · rename_i hopen
          rw [Bool.not_eq_true] at hopen
          rw [reads_advance heof]
          have hlt := Context.lt_size_of_not_eof hc.ends heof
          refine (ih _ fun ho => ?_).imp fun _ _ h => .step heof hsemi hopen h
          have := hf ho
          rw [State.pos_next]
          omega

theorem statementsFor_gives (hc : c.Matched) (hg : g.AllSteady c) (fuel : Nat) (seen : List Stmt)
    (s : State) (i : Nat) (hi : c.Comes i s.pos) (hf : Enough c fuel s) :
    Reads c c.Excuses (g.statementsFor fuel seen) s fun as s' =>
      (∀ a ∈ as, a ∈ seen ∨ c.Holds i a) ∧ c.Comes i s'.pos := by
  induction fuel generalizing seen s with
  | zero => exact not_enough_zero hf
  | succ fuel ih =>
    simp only [statementsFor, reads_bind, reads_peek, reads_ite, reads_pure, reads_fail]
    split
    · exact ⟨fun a ha => .inl (List.mem_reverse.mp ha), hi⟩
    · split
      · trivial
      · refine (hg.statement s).imp fun a s₁ h₁ => ?_
        refine (ih _ _ (hi.trans h₁.passes.comes) (hf.step hc h₁.passes)).imp
          fun as s₂ h₂ => ⟨fun b hb => ?_, h₂.2⟩
        rcases h₂.1 b hb with hseen | hholds
        · rcases List.mem_cons.mp hseen with rfl | hseen
          · exact .inr (h₁.holds.of_comes hi)
          · exact .inl hseen
        · exact .inr hholds

theorem blockStep_encases (hc : c.Matched) (hg : g.AllSteady c) (s : State) :
    Reads c c.Excuses g.blockStep s fun a s' => ∃ j, s'.pos = j + 1 ∧ c.Encases s.pos j a := by
  simp only [blockStep, reads_bind, reads_peek, reads_read, reads_pure]
  refine reads_expect_of fun hopen => ?_
  refine (statementsFor_gives hc hg _ _ _ _ (.refl _) (enough_rounds c _)).imp fun as s₁ h₁ => ?_
  refine reads_expect_of fun hclose => ⟨s₁.pos, rfl, hopen, hclose, h₁.2, fun t ht => ?_⟩
  rcases List.mem_cons.mp ht with rfl | ht
  · exact .inl rfl
  · exact .inr (Context.starts_walkAll (fun a ha => (h₁.1 a ha).resolve_left (by simp)) t ht)

theorem labelled_gives (hg : g.AllSteady c) (s : State) :
    Reads c c.Excuses g.labelled s fun a s' => c.Comes s.pos s'.pos ∧ c.Holds s.pos a := by
  simp only [labelled, reads_bind, reads_peek, reads_ite, reads_pure]
  split
  · exact ⟨.refl _, .leaf rfl rfl⟩
  · exact (hg.statement s).imp fun a s₁ h₁ => ⟨h₁.passes.comes, h₁.holds⟩

end Blocks

section Branches

theorem ifStep_gives (hc : c.Matched) (hg : g.AllSteady c) (hs : (c.tokenAt s.pos).isIdent = true) :
    Reads c c.Excuses (g.ifStep (c.tokenAt s.pos)) s (Gives c s.pos) := by
  -- behind the word, and behind `constexpr` where it stands there
  have rest : ∀ s₁, c.Passes s.pos s₁.pos → Reads c c.Excuses g.condition s₁ fun cond s₂ =>
      Reads c c.Excuses g.statement s₂ fun yes s₃ =>
        if (c.tokenAt s₃.pos).isWord "else" then Reads c c.Excuses advance s₃ fun _ s₄ =>
          Reads c c.Excuses g.statement s₄ fun no s₅ =>
            Gives c s.pos (.ifElse cond yes (some no) (c.tokenAt s.pos).pos) s₅
        else Gives c s.pos (.ifElse cond yes none (c.tokenAt s.pos).pos) s₃ := by
    intro s₁ h₁
    refine (condition_steady hc hg s₁).imp fun cond s₂ h₂ => ?_
    have h := h₁.trans h₂
    refine (hg.statement s₂).imp fun yes s₃ h₃ => ?_
    have hyes := h₃.holds.of_comes h.comes
    split
    · rename_i helse
      refine reads_advance_of (isPlain_of_isIdent (isIdent_of_isWord helse)) fun h₄ => ?_
      have h' := (h.trans h₃.passes).trans h₄
      refine (hg.statement _).imp fun no s₅ h₅ => ⟨h'.trans h₅.passes, .own rfl rfl fun t ht => ?_⟩
      exact (List.mem_append.mp ht).elim (hyes t) (h₅.holds.of_comes h'.comes t)
    · refine ⟨h.trans h₃.passes, .own rfl rfl fun t ht => ?_⟩
      exact hyes t ((List.mem_append.mp ht).resolve_right (by simp [Stmt.walkElse]))
  simp only [ifStep, reads_bind, reads_peek, reads_ite, reads_pure]
  refine reads_advance_of (isPlain_of_isIdent hs) fun h₁ => ?_
  split
  · rename_i hword
    exact reads_advance_of (isPlain_of_isIdent (isIdent_of_isWord hword)) fun h₂ => rest _
      (h₁.trans h₂)
  · exact rest _ h₁

theorem doStep_gives (hc : c.Matched) (hg : g.AllSteady c) (hs : (c.tokenAt s.pos).isIdent = true) :
    Reads c c.Excuses (g.doStep (c.tokenAt s.pos)) s (Gives c s.pos) := by
  simp only [doStep, reads_bind, reads_peek, reads_ite, reads_pure, reads_fail]
  refine reads_advance_of (isPlain_of_isIdent hs) fun h₁ => ?_
  refine (hg.statement _).imp fun body s₁ h₂ => ?_
  split
  · rename_i hwhile
    refine reads_advance_of (isPlain_of_isIdent (isIdent_of_isWord hwhile)) fun h₃ => ?_
    refine (condition_steady hc hg _).imp fun cond s₂ h₄ => ?_
    refine reads_expect_of fun hsemi => ⟨?_, .own rfl rfl (h₂.holds.of_comes h₁.comes)⟩
    exact (((h₁.trans h₂.passes).trans h₃).trans h₄).trans
      (passes_punct hsemi (by decide) (by decide))
  · trivial

theorem guarded_gives (hc : c.Matched) (hg : g.AllSteady c) (hs : (c.tokenAt s.pos).isIdent = true)
    {form : Expr → Stmt → Stmt}
    (hw : ∀ cond body, (form cond body).walk = form cond body :: body.walk)
    (hpos : ∀ cond body, (form cond body).pos = (c.tokenAt s.pos).pos) :
    Reads c c.Excuses (do
      let _ ← advance
      let cond ← g.condition
      pure (form cond (← g.statement))) s (Gives c s.pos) := by
  simp only [reads_bind, reads_pure]
  refine reads_advance_of (isPlain_of_isIdent hs) fun h₁ => ?_
  refine (condition_steady hc hg _).imp fun cond s₁ h₂ => ?_
  exact (hg.statement _).imp fun body s₂ h₃ => h₃.around (h₁.trans h₂) (hw _ _) (hpos _ _)

theorem optional_idle (hg : g.AllSteady c) (stop : String) : Idle c (g.optional stop) := by
  intro s
  simp only [optional, reads_bind, reads_peek, reads_ite, reads_pure]
  split
  · exact .refl _
  · exact (hg.exprs.expression s).imp fun _ _ h => h.comes

theorem forInit_steady (hc : c.Matched) (hg : g.AllSteady c) (s : State) :
    Reads c c.Excuses g.forInit s fun init s' =>
      c.Passes s.pos s'.pos ∧ ∀ d ∈ init, d.pos = (c.tokenAt s.pos).pos := by
  simp only [forInit, reads_bind, reads_peek, reads_ite, reads_pure, reads_looksLikeDeclaration]
  split
  · rename_i hsemi
    exact reads_advance_of (isPlain_of_isPunct hsemi (by decide) (by decide)) fun h => ⟨h, by simp⟩
  · split
    · rename_i hlooks
      refine (declaration_steady hc hg (by decide) (by decide)
        (Bool.and_eq_true_iff.mp hlooks).2).imp fun d s₁ h => ?_
      exact ⟨h.1, by simpa using h.2⟩
    · refine (hg.exprs.expression s).imp fun e s₁ h₁ => ?_
      refine reads_expect_of
        fun hsemi => ⟨h₁.trans (passes_punct hsemi (by decide) (by decide)), ?_⟩
      simp [Simple.pos]

theorem forStep_gives (hc : c.Matched) (hg : g.AllSteady c)
    (hs : (c.tokenAt s.pos).isIdent = true) :
    Reads c c.Excuses (g.forStep (c.tokenAt s.pos)) s (Gives c s.pos) := by
  simp only [forStep, reads_bind, reads_read, reads_get, reads_ite, reads_pure, reads_moveTo]
  refine reads_advance_of (isPlain_of_isIdent hs) fun h₁ => ?_
  refine reads_expect_of fun hopen => ?_
  have ho := isPunctOf_of_isPunct (l := ["(", "[", "\x7b"]) hopen (by decide)
  obtain ⟨j, hj, -⟩ := hc.opener (by rw [Brackets.isSome_closer?, ho])
  rw [reads_partner hj]
  split
  · have h₂ := h₁.trans (passes_punct hopen (by decide) (by decide))
    refine (forInit_steady hc hg _).imp fun init s₃ h₃ => ?_
    refine (optional_idle hg _ _).imp fun cond s₄ h₄ => ?_
    refine reads_expect_of fun hsemi => ?_
    refine (optional_idle hg _ _).imp fun step s₅ h₅ => ?_
    refine reads_expect_of fun hclose => ?_
    have h :=
      ((((h₂.trans h₃.1).then h₄).trans (passes_punct hsemi (by decide) (by decide))).then h₅).trans
        (passes_punct hclose (by decide) (by decide))
    refine (hg.statement _).imp fun body s₆ h₆ => ⟨h.trans h₆.passes, .own rfl rfl fun t ht => ?_⟩
    rcases List.mem_append.mp ht with ht | ht
    · obtain ⟨d, hd, rfl⟩ := Option.map_eq_some_iff.mp (Option.mem_toList.mp ht)
      exact .of_comes h₂.comes (Context.starts_here (h₃.2 d hd))
    · exact h₆.holds.of_comes h.comes t ht
  · have h := h₁.trans (.leap ho hj)
    exact (hg.statement _).imp fun body s₂ h₂ => h₂.around h rfl rfl

/-- Handlers stand behind the brace that closes a block. -/
theorem handlersFor_idle (hc : c.Matched) (hg : g.AllSteady c) (fuel : Nat) (s : State) {i : Nat}
    (hi : s.pos = i + 1) (hbrace : (c.tokenAt i).isPunct "\x7d" = true) (hf : Enough c fuel s) :
    Reads c c.Excuses (g.handlersFor fuel) s fun _ s' => c.Comes s.pos s'.pos := by
  induction fuel generalizing s i with
  | zero => exact not_enough_zero hf
  | succ fuel ih =>
    simp only [handlersFor, reads_bind, reads_peek, reads_ite, reads_pure]
    split
    · rename_i hcatch
      rw [reads_advance (not_isEof_of_isIdent (isIdent_of_isWord hcatch))]
      rw [hi] at hcatch
      cases hj : c.partner? s.next.pos with
      | none =>
        rw [reads_jump_none hj]
        rw [State.pos_next, hi] at hj ⊢
        exact ⟨i, rfl, by simp [Context.lacksBracket, hbrace, hcatch, hj]⟩
      | some j =>
        rw [reads_jump hj]
        rw [State.pos_next, hi] at hj
        have h₁ := Context.Passes.handler hbrace hcatch hj
        rw [← hi] at h₁
        refine (hg.block _).imp fun a s₁ hblock => ?_
        obtain ⟨k, hk, h₂⟩ := hblock
        have h := h₁.trans (Gives.of_encases h₂ hk).passes
        exact (ih _ hk h₂.closes (hf.step hc h)).imp fun _ _ h₃ => h.comes.trans h₃
    · exact .refl _

theorem tryStep_gives (hc : c.Matched) (hg : g.AllSteady c)
    (hs : (c.tokenAt s.pos).isIdent = true) :
    Reads c c.Excuses (g.tryStep (c.tokenAt s.pos)) s (Gives c s.pos) := by
  simp only [tryStep, reads_bind, reads_read, reads_pure]
  refine reads_advance_of (isPlain_of_isIdent hs) fun h₁ => ?_
  refine (hg.block _).imp fun body s₁ hblock => ?_
  obtain ⟨k, hk, h₂⟩ := hblock
  have hbody := Gives.of_encases h₂ hk
  refine (handlersFor_idle hc hg _ _ hk h₂.closes (enough_rounds c s₁)).imp fun _ s₂ h₃ => ?_
  refine ⟨(h₁.trans hbody.passes).then h₃, .own rfl rfl (Context.starts_walkAll ?_)⟩
  simpa using hbody.holds.of_comes h₁.comes

end Branches

section Steps

theorem caseStep_gives (hg : g.AllSteady c) (hs : (c.tokenAt s.pos).isIdent = true) :
    Reads c c.Excuses (g.caseStep (c.tokenAt s.pos)) s (Gives c s.pos) := by
  -- behind the value, or the two values of a range
  have rest : ∀ value s₁, c.Passes s.pos s₁.pos → Reads c c.Excuses (expect ":") s₁ fun _ s₂ =>
      Reads c c.Excuses g.labelled s₂ fun a s₃ =>
        Gives c s.pos (.case value a (c.tokenAt s.pos).pos) s₃ := by
    intro value s₁ h₁
    refine reads_expect_of fun hcolon => ?_
    have h := h₁.trans (passes_punct hcolon (by decide) (by decide))
    exact (labelled_gives hg _).imp
      fun a s₂ h₂ => ⟨h.then h₂.1, .own rfl rfl (h₂.2.of_comes h.comes)⟩
  simp only [caseStep, reads_bind, reads_accept, reads_ite, reads_pure, if_true,
    Bool.false_eq_true, if_false]
  refine reads_advance_of (isPlain_of_isIdent hs) fun h₁ => ?_
  refine (hg.exprs.conditional _).imp fun value s₁ h₂ => ?_
  split
  · rename_i hdots
    have h := (h₁.trans h₂).trans (passes_punct hdots (by decide) (by decide))
    exact (hg.exprs.conditional _).imp fun _ s₂ h₃ => rest _ _ (h.trans h₃)
  · exact rest _ _ (h₁.trans h₂)

theorem returnStep_gives (hg : g.AllSteady c) (hs : (c.tokenAt s.pos).isIdent = true) :
    Reads c c.Excuses (g.returnStep (c.tokenAt s.pos)) s (Gives c s.pos) := by
  simp only [returnStep, reads_bind, reads_pure]
  refine reads_advance_of (isPlain_of_isIdent hs) fun h₁ => ?_
  refine (optional_idle hg _ _).imp fun value s₁ h₂ => ?_
  exact reads_expect_of
    fun hsemi => ⟨(h₁.then h₂).trans (passes_punct hsemi (by decide) (by decide)), .leaf rfl rfl⟩

theorem bareStep_gives {a : Stmt} (hs : (c.tokenAt s.pos).isIdent = true) (hw : a.walk = [a])
    (hpos : a.pos = (c.tokenAt s.pos).pos) : Reads c c.Excuses (bareStep a) s (Gives c s.pos) := by
  simp only [bareStep, reads_bind, reads_pure]
  refine reads_advance_of (isPlain_of_isIdent hs) fun h₁ => ?_
  exact reads_expect_of
    fun hsemi => ⟨h₁.trans (passes_punct hsemi (by decide) (by decide)), .leaf hw hpos⟩

theorem simpleStep_gives (hc : c.Matched) (hg : g.AllSteady c) (s : State) :
    Reads c c.Excuses (g.simpleStep (c.tokenAt s.pos)) s (Gives c s.pos) := by
  simp only [simpleStep, reads_bind, reads_ite, reads_pure, reads_looksLikeDeclaration]
  split
  · rename_i hlooks
    refine (declaration_steady hc hg (by decide) (by decide) (Bool.and_eq_true_iff.mp hlooks).2).imp
      fun d s₁ h => ?_
    exact ⟨h.1, .leaf rfl h.2⟩
  · refine (hg.exprs.expression s).imp fun e s₁ h₁ => ?_
    exact reads_expect_of
      fun hsemi => ⟨h₁.trans (passes_punct hsemi (by decide) (by decide)), .leaf rfl rfl⟩

theorem marked_gives (hg : g.AllSteady c) (hs : (c.tokenAt s.pos).isIdent = true)
    (hcolon : (c.tokenAt (s.pos + 1)).isPunct ":" = true)
    {form : Stmt → Stmt} (hw : ∀ a, (form a).walk = form a :: a.walk)
    (hpos : ∀ a, (form a).pos = (c.tokenAt s.pos).pos) :
    Reads c c.Excuses advance s fun _ s₁ => Reads c c.Excuses advance s₁ fun _ s₂ =>
      Reads c c.Excuses g.labelled s₂ fun a s₃ => Gives c s.pos (form a) s₃ := by
  refine reads_advance_of (isPlain_of_isIdent hs) fun h₁ => ?_
  refine reads_advance_of (isPlain_of_isPunct hcolon (by decide) (by decide)) fun h₂ => ?_
  have h := h₁.trans h₂
  exact (labelled_gives hg _).imp
    fun a s₃ h₃ => ⟨h.then h₃.1, .own (hw a) (hpos a) (h₃.2.of_comes h.comes)⟩

theorem skipped_gives (hc : c.Matched)
    (hs : (c.tokenAt s.pos).isWordOf ["using", "typedef"] = true) :
    Reads c c.Excuses (do
      skipToSemicolonFor (← read).rounds
      pure (.empty (c.tokenAt s.pos).pos)) s (Gives c s.pos) := by
  simp only [reads_bind, reads_read, reads_pure]
  exact (skipToSemicolonFor_skips hc _ s (enough_rounds c s)).imp
    fun _ s₁ h => ⟨.skip hs h, .leaf rfl rfl⟩

theorem wordStep_gives (hc : c.Matched) (hg : g.AllSteady c)
    (hs : (c.tokenAt s.pos).isIdent = true) :
    Reads c c.Excuses (g.wordStep (c.tokenAt s.pos)) s (Gives c s.pos) := by
  simp only [wordStep, reads_bind, reads_peekAt]
  split
  · exact ifStep_gives hc hg hs
  · exact guarded_gives hc hg hs (fun _ _ => rfl) (fun _ _ => rfl)
  · exact doStep_gives hc hg hs
  · exact forStep_gives hc hg hs
  · exact guarded_gives hc hg hs (fun _ _ => rfl) (fun _ _ => rfl)
  · exact caseStep_gives hg hs
  · exact returnStep_gives hg hs
  · exact returnStep_gives hg hs
  · exact bareStep_gives hs rfl rfl
  · exact bareStep_gives hs rfl rfl
  · simp only [reads_bind, reads_pure]
    refine reads_advance_of (isPlain_of_isIdent hs) fun h₁ => ?_
    refine reads_expectName_of fun hname => ?_
    refine reads_expect_of fun hsemi => ⟨?_, .leaf rfl rfl⟩
    exact (h₁.trans (passes_word hname)).trans (passes_punct hsemi (by decide) (by decide))
  · rename_i htext
    exact skipped_gives hc (by simpa [Token.isWordOf, htext, Token.isIdent] using hs)
  · rename_i htext
    exact skipped_gives hc (by simpa [Token.isWordOf, htext, Token.isIdent] using hs)
  · simp only [reads_ite, reads_bind, reads_pure]
    split
    · rename_i hcolon
      exact marked_gives hg hs (Bool.and_eq_true_iff.mp hcolon).2 (fun _ => rfl) fun _ => rfl
    · split
      · exact tryStep_gives hc hg hs
      · split
        · rename_i hcolon
          exact marked_gives hg hs (Bool.and_eq_true_iff.mp hcolon).1 (fun _ => rfl) fun _ => rfl
        · exact simpleStep_gives hc hg s

theorem statementStep_gives (hc : c.Matched) (hg : g.AllSteady c) (s : State) :
    Reads c c.Excuses g.statementStep s (Gives c s.pos) := by
  simp only [statementStep, reads_bind, reads_peek, reads_ite, reads_pure]
  split
  · refine (blockStep_encases hc hg s).imp fun _ _ hblock => ?_
    obtain ⟨k, hk, h⟩ := hblock
    exact .of_encases h hk
  · split
    · rename_i hsemi
      exact reads_advance_of (isPlain_of_isPunct hsemi (by decide) (by decide))
        fun h => ⟨h, .leaf rfl rfl⟩
    · split
      · rename_i hs
        exact wordStep_gives hc hg hs
      · exact simpleStep_gives hc hg s

end Steps

theorem AllSteady.deeper (hc : c.Matched) (hg : g.AllSteady c) : g.deeper.AllSteady c where
  exprs := hg.exprs.deeper hc
  statement := statementStep_gives hc hg
  block := blockStep_encases hc hg

theorem within_steady (hc : c.Matched) (levels : Nat) : (within levels).AllSteady c := by
  induction levels with
  | zero => exact ⟨Exprs.tooDeep_steady c, fun _ => trivial, fun _ => trivial⟩
  | succ levels ih => exact ih.deeper hc

end Stmts

end JniContracts.Parse
