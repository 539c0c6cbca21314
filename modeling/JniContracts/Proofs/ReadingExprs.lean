import JniContracts.Proofs.Passage

/-!
The readers of expressions pass what they read: each takes a token at least, and stops only for a
fault, for nesting, or for tokens that are not in order.
-/

namespace JniContracts.Parse

variable {Q : Token → State → Prop}

def Steady (c : Context) {α : Type} (m : ParseM α) : Prop :=
  ∀ s, Reads c c.Excuses m s fun _ s' => c.Passes s.pos s'.pos

def Idle (c : Context) {α : Type} (m : ParseM α) : Prop :=
  ∀ s, Reads c c.Excuses m s fun _ s' => c.Comes s.pos s'.pos

section Tokens

variable {c : Context} {s : State}

theorem passes_punct {text : String} (h : (c.tokenAt s.pos).isPunct text = true)
    (h₁ : text ≠ "\x7b") (h₂ : text ≠ "\x7d") : c.Passes s.pos s.next.pos :=
  .take (isPlain_of_isPunct h h₁ h₂)

theorem passes_word (h : (c.tokenAt s.pos).isIdent = true) : c.Passes s.pos s.next.pos :=
  .take (isPlain_of_isIdent h)

theorem reads_expect_of {text : String} {Q : Unit → State → Prop}
    (h : (c.tokenAt s.pos).isPunct text = true → Q () s.next) :
    Reads c c.Excuses (expect text) s Q := by
  rw [reads_expect]
  split
  · rename_i ht
    exact h ht
  · trivial

theorem reads_expectName_of (h : (c.tokenAt s.pos).isIdent = true → Q (c.tokenAt s.pos) s.next) :
    Reads c c.Excuses expectName s Q := by
  rw [reads_expectName]
  split
  · rename_i ht
    exact h ht
  · trivial

theorem reads_advance_of (h : isPlain (c.tokenAt s.pos) = true)
    (hQ : c.Passes s.pos s.next.pos → Q (c.tokenAt s.pos) s.next) : Reads c c.Excuses advance s Q :=
  (reads_advance (isEof_of_isPlain h)).mpr (hQ (.take h))

theorem reads_jump_of (hc : c.Matched) {Q : Unit → State → Prop}
    (ho : (c.tokenAt s.pos).isPunctOf ["(", "[", "\x7b"] = true)
    (hQ : ∀ s', c.Passes s.pos s'.pos → Q () s') : Reads c c.Excuses jump s Q := by
  obtain ⟨j, hj, -⟩ := hc.opener (i := s.pos) (by rw [Brackets.isSome_closer?, ho])
  exact (reads_jump hj).mpr (hQ _ (.leap ho hj))

end Tokens

namespace Exprs

structure AllSteady (c : Context) (g : Exprs) : Prop where
  expression : Steady c g.expression
  assignment : Steady c g.assignment
  conditional : Steady c g.conditional
  unary : Steady c g.unary
  primary : Steady c g.primary

variable {c : Context} {g : Exprs}

section Loops

variable {fuel : Nat} {s : State}

/-- A loop has rounds enough when they are more than the tokens that are left. -/
def Enough (c : Context) (fuel : Nat) (s : State) : Prop := c.Orderly → c.tokens.size - s.pos < fuel

theorem enough_rounds (c : Context) (s : State) : Enough c c.rounds s :=
  fun _ => c.sub_lt_rounds s.pos

theorem not_enough_zero (h : Enough c 0 s) : c.Excuses .endless :=
  fun ho => Nat.not_lt_zero _ (h ho)

theorem Enough.step (hc : c.Matched) (h : Enough c (fuel + 1) s) {s' : State}
    (hp : c.Passes s.pos s'.pos) : Enough c fuel s' := hp.fuel hc h

end Loops

theorem reads_advance_kind {s : State} {k : TokenKind} (hk : (c.tokenAt s.pos).kind = k)
    (h₁ : k ≠ .punct) (h₂ : k ≠ .eof)
    (hQ : c.Passes s.pos s.next.pos → Q (c.tokenAt s.pos) s.next) :
    Reads c c.Excuses advance s Q := by
  refine reads_advance_of ?_ hQ
  rw [← hk] at h₁ h₂
  simp [isPlain, Token.isEof, Token.isPunct, h₁, h₂]

theorem isPlain_of_find {α : Type} {text : α → String} {ops : List α} {op : α} {t : Token}
    (h : (if t.kind == .punct then ops.find? (text · == t.text) else none) = some op)
    (hops : ops.all (fun op => text op != "\x7b" && text op != "\x7d") = true) :
    isPlain t = true := by
  split at h
  · rename_i hk
    have htext := List.find?_some h
    have hop := List.all_eq_true.mp hops op (List.mem_of_find?_eq_some h)
    simp only [beq_iff_eq, Bool.and_eq_true, bne_iff_ne, ne_eq] at hk htext hop
    simp [isPlain, Token.isEof, Token.isPunct, hk, ← htext, hop]
  · cases h

section Steps

variable (hc : c.Matched)
include hc

theorem nameFor_idle (fuel : Nat) (name : String) (s : State) (hf : Enough c fuel s) :
    Reads c c.Excuses (nameFor fuel name) s fun _ s' => c.Comes s.pos s'.pos := by
  induction fuel generalizing name s with
  | zero => exact not_enough_zero hf
  | succ fuel ih =>
    simp only [nameFor, reads_bind, reads_peek, reads_peekAt, reads_ite, reads_pure]
    split
    · rename_i hscope
      rw [Bool.and_eq_true] at hscope
      refine reads_advance_of (isPlain_of_isPunct hscope.1 (by decide) (by decide)) fun h₁ => ?_
      refine reads_advance_of (isPlain_of_isIdent hscope.2) fun h₂ => ?_
      have h := h₁.trans h₂
      exact (ih _ _ (hf.step hc h)).imp fun _ _ h₃ => h.comes.trans h₃
    · exact .refl _

theorem stringsFor_idle (fuel : Nat) (text : String) (s : State) (hf : Enough c fuel s) :
    Reads c c.Excuses (stringsFor fuel text) s fun _ s' => c.Comes s.pos s'.pos := by
  induction fuel generalizing text s with
  | zero => exact not_enough_zero hf
  | succ fuel ih =>
    simp only [stringsFor, reads_bind, reads_peek, reads_ite, reads_pure]
    split
    · rename_i hstring
      have hplain : isPlain (c.tokenAt s.pos) = true := by
        rw [beq_iff_eq] at hstring
        simp [isPlain, Token.isEof, Token.isPunct, hstring]
      refine reads_advance_of hplain fun h => ?_
      exact (ih _ _ (hf.step hc h)).imp fun _ _ h₂ => h.comes.trans h₂
    · exact .refl _

theorem designator_idle : Idle c designator := by
  intro s
  simp only [designator, reads_bind, reads_peek, reads_ite, reads_pure]
  split
  · rename_i hdot
    refine reads_advance_of (isPlain_of_isPunct hdot (by decide) (by decide)) fun h₁ => ?_
    refine reads_expectName_of fun hname => ?_
    refine reads_expect_of fun heq => ?_
    exact ((h₁.trans (passes_word hname)).trans (passes_punct heq (by decide) (by decide))).comes
  · split
    · rename_i hopen
      refine reads_jump_of hc (isPunctOf_of_isPunct hopen (by decide)) fun s₁ h₁ => ?_
      exact reads_expect_of fun heq => (h₁.trans (passes_punct heq (by decide) (by decide))).comes
    · exact .refl _

theorem binaryFor_idle {tighter : Nat → ParseM Expr} (ht : ∀ n, Steady c (tighter n))
    (least fuel : Nat) (left : Expr) (s : State) (hf : Enough c fuel s) :
    Reads c c.Excuses (binaryFor tighter least fuel left) s fun _ s' => c.Comes s.pos s'.pos := by
  induction fuel generalizing left s with
  | zero => exact not_enough_zero hf
  | succ fuel ih =>
    simp only [binaryFor, reads_bind, reads_peek]
    split
    · rename_i op hop
      simp only [reads_ite, reads_bind, reads_pure]
      split
      · refine reads_advance_of (isPlain_of_find hop (by decide)) fun h₁ => ?_
        refine (ht _ _).imp fun right s₁ h₂ => ?_
        have h := h₁.trans h₂
        exact (ih _ _ (hf.step hc h)).imp fun _ _ h₃ => h.comes.trans h₃
      · exact .refl _
    · exact .refl _

variable (hg : g.AllSteady c)
include hg

theorem argsFor_steady (fuel : Nat) (seen : List Expr) (s : State) (hf : Enough c fuel s) :
    Reads c c.Excuses (g.argsFor fuel seen) s fun _ s' => c.Passes s.pos s'.pos := by
  induction fuel generalizing seen s with
  | zero => exact not_enough_zero hf
  | succ fuel ih =>
    simp only [argsFor, reads_bind, reads_accept, reads_ite, reads_pure]
    refine (hg.assignment s).imp fun e s₁ h₁ => ?_
    split
    · rename_i hclose
      exact h₁.trans (passes_punct hclose (by decide) (by decide))
    · refine reads_expect_of fun hcomma => ?_
      have h₂ := h₁.trans (passes_punct hcomma (by decide) (by decide))
      exact (ih _ _ (hf.step hc h₂)).imp fun _ _ h₃ => h₂.trans h₃

theorem args_steady : Steady c g.args := by
  intro s
  simp only [args, reads_bind, reads_accept, reads_ite, reads_pure, reads_read]
  split
  · rename_i hclose
    exact passes_punct hclose (by decide) (by decide)
  · exact argsFor_steady hc hg _ _ _ (enough_rounds c s)

theorem itemsFor_idle (fuel : Nat) (seen : List Expr) (s : State) (hf : Enough c fuel s) :
    Reads c c.Excuses (g.itemsFor fuel seen) s fun _ s' => c.Comes s.pos s'.pos := by
  induction fuel generalizing seen s with
  | zero => exact not_enough_zero hf
  | succ fuel ih =>
    simp only [itemsFor, reads_bind, reads_peek, reads_accept, reads_ite, reads_pure]
    split
    · exact .refl _
    · refine (designator_idle hc s).imp fun _ s₁ h₁ => ?_
      refine (hg.assignment s₁).imp fun e s₂ h₂ => ?_
      have h := h₁.passes h₂
      split
      · rename_i hcomma
        have h₃ := h.trans (passes_punct hcomma (by decide) (by decide))
        exact (ih _ _ (hf.step hc h₃)).imp fun _ _ h₄ => h₃.comes.trans h₄
      · exact h.comes

theorem enclosed_steady (t : Token) (s : State) (ht : t = c.tokenAt s.pos) :
    Reads c c.Excuses (if t.isPunct "(" then do
        let _ ← advance
        let e ← g.expression
        expect ")"
        pure e
      else if t.isPunct "\x7b" then do
        let _ ← advance
        let items ← g.itemsFor c.rounds []
        expect "\x7d"
        pure (.initList items t.pos)
      else if t.isPunct "..." then do
        let _ ← advance
        pure (.ellipsis t.pos)
      else failAt t (.noExpression t.shown)) s fun _ s' => c.Passes s.pos s'.pos := by
  subst ht
  simp only [reads_ite, reads_bind, reads_pure, reads_failAt]
  split
  · rename_i hopen
    refine reads_advance_of (isPlain_of_isPunct hopen (by decide) (by decide)) fun h₁ => ?_
    refine (hg.expression _).imp fun e s₁ h₂ => ?_
    exact reads_expect_of fun hclose => (h₁.trans h₂).trans
      (passes_punct hclose (by decide) (by decide))
  · split
    · rename_i hopen
      rw [reads_advance (not_isEof_of_isPunct hopen)]
      refine (itemsFor_idle hc hg _ _ _ (enough_rounds c _)).imp fun items s₁ h₁ => ?_
      exact reads_expect_of fun hclose => Context.Comes.block hopen h₁ hclose
    · split
      · rename_i hdots
        exact reads_advance_of (isPlain_of_isPunct hdots (by decide) (by decide)) fun h₁ => h₁
      · trivial

theorem primaryStep_steady : Steady c g.primaryStep := by
  intro s
  simp only [primaryStep, reads_bind, reads_peek, reads_read]
  cases hk : (c.tokenAt s.pos).kind with
  | ident =>
    simp only [reads_bind, reads_pure]
    refine reads_advance_kind hk (by decide) (by decide) fun h₁ => ?_
    exact (nameFor_idle hc _ _ _ (enough_rounds c _)).imp fun _ _ h₂ => h₁.then h₂
  | number =>
    simp only [reads_bind, reads_pure]
    exact reads_advance_kind hk (by decide) (by decide) fun h₁ => h₁
  | char =>
    simp only [reads_bind, reads_pure]
    exact reads_advance_kind hk (by decide) (by decide) fun h₁ => h₁
  | string =>
    simp only [reads_bind, reads_pure]
    refine reads_advance_kind hk (by decide) (by decide) fun h₁ => ?_
    exact (stringsFor_idle hc _ _ _ (enough_rounds c _)).imp fun _ _ h₂ => h₁.then h₂
  | punct => exact enclosed_steady hc hg _ s rfl
  | eof => exact enclosed_steady hc hg _ s rfl

theorem suffixesFor_idle (fuel : Nat) (e : Expr) (s : State) (hf : Enough c fuel s) :
    Reads c c.Excuses (g.suffixesFor fuel e) s fun _ s' => c.Comes s.pos s'.pos := by
  induction fuel generalizing e s with
  | zero => exact not_enough_zero hf
  | succ fuel ih =>
    -- behind each suffix the loop goes on
    have again : ∀ {e' s'}, c.Passes s.pos s'.pos →
        Reads c c.Excuses (g.suffixesFor fuel e') s' fun _ s'' => c.Comes s.pos s''.pos := fun h =>
      (ih _ _ (hf.step hc h)).imp fun _ _ h' => h.comes.trans h'
    simp only [suffixesFor, reads_bind, reads_peek, reads_get, reads_ite, reads_pure]
    split
    · rename_i hopen
      refine reads_advance_of (isPlain_of_isPunct hopen (by decide) (by decide)) fun h₁ => ?_
      exact (args_steady hc hg _).imp fun args s₁ h₂ => again (h₁.trans h₂)
    · split
      · rename_i hopen
        refine reads_advance_of (isPlain_of_isPunct hopen (by decide) (by decide)) fun h₁ => ?_
        refine (hg.expression _).imp fun i s₁ h₂ => ?_
        exact reads_expect_of fun hclose => again
          ((h₁.trans h₂).trans (passes_punct hclose (by decide) (by decide)))
      · split
        · rename_i hmember
          obtain ⟨x, hx, hx'⟩ := isPunct_of_isPunctOf hmember
          have hplain : isPlain (c.tokenAt s.pos) = true := by
            refine isPlain_of_isPunct hx' ?_ ?_ <;> (rintro rfl; exact absurd hx (by decide))
          refine reads_advance_of hplain fun h₁ => ?_
          exact reads_expectName_of fun hname => again (h₁.trans (passes_word hname))
        · split
          · rename_i hstep
            exact reads_advance_of (isPlain_of_isPunct hstep (by decide) (by decide)) again
          · split
            · rename_i hstep
              exact reads_advance_of (isPlain_of_isPunct hstep (by decide) (by decide)) again
            · exact .refl _

theorem sizeStep_steady (op : UnOp) (t : Token) (s : State)
    (hs : (c.tokenAt s.pos).isIdent = true) :
    Reads c c.Excuses (g.sizeStep op t) s fun _ s' => c.Passes s.pos s'.pos := by
  simp only [sizeStep, reads_bind, reads_peek, reads_read, reads_get, reads_ite, reads_pure,
    reads_moveTo]
  refine reads_advance_of (isPlain_of_isIdent hs) fun h₁ => ?_
  split
  · rename_i hopen
    have ho := isPunctOf_of_isPunct (l := ["(", "[", "\x7b"]) hopen (by decide)
    obtain ⟨j, hj, -⟩ := hc.opener (by rw [Brackets.isSome_closer?, ho])
    rw [reads_partner hj]
    exact h₁.trans (.leap ho hj)
  · exact (hg.unary _).imp fun _ _ h₂ => h₁.trans h₂

theorem castStep_steady (t : Token) (s : State) (hs : (c.tokenAt s.pos).isPunct "(" = true) :
    Reads c c.Excuses (g.castStep t) s fun _ s' => c.Passes s.pos s'.pos := by
  simp only [castStep, reads_bind, reads_read, reads_get, reads_pure, reads_moveTo]
  have ho := isPunctOf_of_isPunct (l := ["(", "[", "\x7b"]) hs (by decide)
  obtain ⟨j, hj, -⟩ := hc.opener (by rw [Brackets.isSome_closer?, ho])
  rw [reads_partner hj]
  exact (hg.unary _).imp fun _ _ h₂ => Context.Passes.trans (.leap ho hj) h₂

theorem unaryStep_steady : Steady c g.unaryStep := by
  intro s
  simp only [unaryStep, reads_bind, reads_peek, reads_read, reads_get]
  split
  · rename_i op _ hop
    simp only [reads_bind, reads_pure]
    refine reads_advance_of (isPlain_of_find hop (by decide)) fun h₁ => ?_
    exact (hg.unary _).imp fun _ _ h₂ => h₁.trans h₂
  · rename_i op _ hop
    refine sizeStep_steady hc hg op _ s ?_
    by_contra hword
    rw [if_neg hword] at hop
    cases hop
  · simp only [reads_ite, reads_bind, reads_pure, reads_accept]
    split
    · rename_i hnew
      refine reads_advance_of (isPlain_of_isIdent (isIdent_of_isWord hnew)) fun h₁ => ?_
      exact (hg.unary _).imp fun _ _ h₂ => h₁.trans h₂
    · split
      · rename_i hdelete
        refine reads_advance_of (isPlain_of_isIdent (isIdent_of_isWord hdelete)) fun h₁ => ?_
        split
        · rename_i hopen
          refine reads_expect_of fun hclose => ?_
          have h₂ := h₁.trans (passes_punct hopen (by decide) (by decide))
          have h₃ := h₂.trans (passes_punct hclose (by decide) (by decide))
          exact (hg.unary _).imp fun _ _ h₄ => h₃.trans h₄
        · exact (hg.unary _).imp fun _ _ h₂ => h₁.trans h₂
      · split
        · rename_i hcast
          exact castStep_steady hc hg _ s (Bool.and_eq_true_iff.mp hcast).1
        · refine (primaryStep_steady hc hg s).imp fun e s₁ h₁ => ?_
          exact (suffixesFor_idle hc hg _ _ _ (enough_rounds c s₁)).imp fun _ _ h₂ => h₁.then h₂

theorem binary_steady (levels least : Nat) : Steady c (g.binary levels least) := by
  induction levels generalizing least with
  | zero => exact unaryStep_steady hc hg
  | succ levels ih =>
    intro s
    simp only [binary, reads_bind, reads_read]
    refine (unaryStep_steady hc hg s).imp fun left s₁ h₁ => ?_
    exact (binaryFor_idle hc ih _ _ _ _ (enough_rounds c s₁)).imp fun _ _ h₂ => h₁.then h₂

theorem conditionalStep_steady : Steady c g.conditionalStep := by
  intro s
  simp only [conditionalStep, reads_bind, reads_accept, reads_ite, reads_pure]
  refine (binary_steady hc hg _ _ s).imp fun cond s₁ h₁ => ?_
  split
  · rename_i hmark
    have h₂ := h₁.trans (passes_punct hmark (by decide) (by decide))
    refine (hg.expression _).imp fun yes s₂ h₃ => ?_
    refine reads_expect_of fun hcolon => ?_
    have h₄ := (h₂.trans h₃).trans (passes_punct hcolon (by decide) (by decide))
    exact (hg.assignment _).imp fun _ _ h₅ => h₄.trans h₅
  · exact h₁

theorem assignmentStep_steady : Steady c g.assignmentStep := by
  intro s
  simp only [assignmentStep, reads_bind, reads_peek]
  refine (conditionalStep_steady hc hg s).imp fun left s₁ h₁ => ?_
  split
  · rename_i op hop
    simp only [reads_bind, reads_pure]
    refine reads_advance_of (isPlain_of_find hop (by decide)) fun h₂ => ?_
    exact (hg.assignment _).imp fun _ _ h₃ => (h₁.trans h₂).trans h₃
  · exact h₁

theorem commasFor_idle (fuel : Nat) (e : Expr) (s : State) (hf : Enough c fuel s) :
    Reads c c.Excuses (g.commasFor fuel e) s fun _ s' => c.Comes s.pos s'.pos := by
  induction fuel generalizing e s with
  | zero => exact not_enough_zero hf
  | succ fuel ih =>
    simp only [commasFor, reads_bind, reads_peek, reads_accept, reads_ite, reads_pure]
    split
    · rename_i hcomma
      have h₁ := passes_punct hcomma (by decide) (by decide)
      refine (assignmentStep_steady hc hg _).imp fun right s₁ h₂ => ?_
      have h := h₁.trans h₂
      exact (ih _ _ (hf.step hc h)).imp fun _ _ h₃ => h.comes.trans h₃
    · exact .refl _

theorem expressionStep_steady : Steady c g.expressionStep := by
  intro s
  simp only [expressionStep, reads_bind, reads_read]
  refine (assignmentStep_steady hc hg s).imp fun e s₁ h₁ => ?_
  exact (commasFor_idle hc hg _ _ _ (enough_rounds c s₁)).imp fun _ _ h₂ => h₁.then h₂

theorem AllSteady.deeper : g.deeper.AllSteady c where
  expression := expressionStep_steady hc hg
  assignment := assignmentStep_steady hc hg
  conditional := conditionalStep_steady hc hg
  unary := unaryStep_steady hc hg
  primary := primaryStep_steady hc hg

end Steps

theorem tooDeep_steady (c : Context) : tooDeep.AllSteady c where
  expression _ := trivial
  assignment _ := trivial
  conditional _ := trivial
  unary _ := trivial
  primary _ := trivial

end Exprs

end JniContracts.Parse
