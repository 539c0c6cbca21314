import JniContracts.Proofs.Rendering.Casts

/-!
Reading printed expressions. Over the words of its text the readers come back to a printable
expression, provided that they may nest as deeply as the text does.
-/

namespace JniContracts

open Lexer Rendering

variable {e : Expr}

namespace Expr

def nested (e : Expr) (n : Nat) : Nat := if e.isLoose then n + 1 else n

mutual
def nesting : Expr → Nat
  | name .. | literal .. | ellipsis .. | verbatim .. => 0
  | call f args _ _ => max (nested f f.nesting) (nestingAll args + 1)
  | member o _ _ _ => nested o o.nesting
  | index o i _ => max (nested o o.nesting) (i.nesting + 1)
  | unary _ e _ _ => nested e e.nesting
  | binary _ l r _ => max (nested l l.nesting) (nested r r.nesting)
  | conditional c x y _ =>
    max (nested c c.nesting) (max (nested x x.nesting) (nested y y.nesting) + 1)
  | assign _ t v _ => max t.nesting (v.nesting + 1)
  | cast _ e _ => nested e e.nesting
  | initList es _ => nestingAll es + 1

def nestingAll : List Expr → Nat
  | [] => 0
  | e :: es => max e.nesting (nestingAll es)
end

section Bare

@[simp] theorem name?_bare (e : Expr) : e.bare.name? = e.name? := by
  cases e <;> rfl

theorem strip_bare : (e : Expr) → e.bare.strip = e.strip.bare
  | cast t e p => by
    rw [bare, strip, strip]
    exact strip_bare e
  | name .. | literal .. | ellipsis .. | call .. | member .. | index .. | unary .. | binary ..
  | conditional .. | assign .. | initList .. | verbatim .. => rfl

theorem tablePointer?_bare (f : Expr) : f.bare.tablePointer? = f.tablePointer? := by
  cases f with
  | member o attr arrow p =>
    cases arrow with
    | false => rfl
    | true =>
      rw [bare, tablePointer?_member, tablePointer?_member, strip_bare]
      cases o.strip with
      | unary op e side q =>
        cases op with
        | deref => exact name?_bare e
        | _ => rfl
      | _ => rfl
  | _ => rfl

theorem namedObject?_bare (f : Expr) : f.bare.namedObject? = f.namedObject? := by
  cases f with
  | member o attr arrow p =>
    rw [bare, namedObject?_member, namedObject?_member, strip_bare, name?_bare]
  | _ => rfl

theorem isThrough_bare (pointers : List String) (f : Expr) (args : List Expr) :
    isThrough pointers f.bare (args.map bare) = isThrough pointers f args := by
  have harrow : f.bare.isArrow = f.isArrow := by cases f <;> rfl
  have hhead :
      ((args.map bare).head?.bind fun a => a.strip.name?) =
      args.head?.bind fun a => a.strip.name? := by
    cases args with
    | nil => rfl
    | cons a args =>
      simp only [List.map_cons, List.head?_cons, Option.bind_some]
      rw [strip_bare, name?_bare]
  rw [isThrough, isThrough, tablePointer?_bare, namedObject?_bare, harrow, hhead]

end Bare

section Through

variable {pointers : List String} {f : Expr}

/-- A printable function expression that names no interface pointer is called as any function is. -/
theorem Printable.isThrough_eq_false (h : Printable pointers f)
    (hplain : ∀ r, f.pointer? = some r → r ∉ pointers ∧ Parse.isHole r = false) (args : List Expr) :
    isThrough pointers f args = false := by
  cases h with
  | @member o attr arrow p ho hnumber hattr =>
    cases arrow with
    | false => rfl
    | true =>
      cases ho with
      | @name r q hr =>
        obtain ⟨hmem, hhole⟩ := hplain r rfl
        simp [isThrough, tablePointer?, namedObject?, strip, isArrow, hmem, hhole]
      | step hop => obtain rfl | rfl := hop <;> rfl
      | _ => rfl
  | _ => rfl

theorem isThrough_pointer {r : String} (hr : r ∈ pointers ∨ Parse.isHole r = true) (n : String)
    (args : List Expr) (q q' : Pos) :
    isThrough pointers (member (name r q) n true q') args = true := by
  simpa [isThrough, tablePointer?, namedObject?, strip, isArrow] using hr

end Through

end Expr

namespace Parse

variable {p : String}

def State.skip (s : State) (n : Nat) : State := { s with pos := s.pos + n }

@[simp] theorem State.pos_skip (s : State) (n : Nat) : (s.skip n).pos = s.pos + n := rfl

@[simp] theorem State.interfaces_skip (s : State) (n : Nat) :
    (s.skip n).interfaces = s.interfaces := rfl

theorem State.next_eq_skip (s : State) : s.next = s.skip 1 := rfl

theorem State.skip_skip (s : State) (m n : Nat) : (s.skip m).skip n = s.skip (m + n) := by
  simp only [State.skip, Nat.add_assoc]

/-- From a state the words stand, up to a token that is as `P` says and that is one of the
tokens. -/
structure Faces (c : Context) (pointers : List String) (s : State) (ws : List Word)
  (P : Token → Prop) : Prop where
  shows : c.Shows s.pos ws
  room : s.pos + ws.length < c.tokens.size
  known : s.interfaces = pointers
  next : P (c.tokenAt (s.pos + ws.length))

section Faces

variable {c : Context} {pointers : List String} {s : State} {ws ws' : List Word}
  {P P' : Token → Prop}

theorem Faces.imp (h : Faces c pointers s ws P) (hP : ∀ t, P t → P' t) : Faces c pointers s ws P' :=
  ⟨h.shows, h.room, h.known, hP _ h.next⟩

theorem Faces.front {w : Word} (h : Faces c pointers s (ws ++ w :: ws') P) :
    Faces c pointers s ws (·.word = w) := by
  obtain ⟨hfront, hback⟩ := shows_append.mp h.shows
  have hroom := h.room
  simp only [List.length_append] at hroom
  exact ⟨hfront, by omega, h.known, hback.1⟩

theorem Faces.back (h : Faces c pointers s (ws ++ ws') P) :
    Faces c pointers (s.skip ws.length) ws' P := by
  have hroom := h.room
  have hnext := h.next
  rw [List.length_append, ← Nat.add_assoc] at hroom hnext
  exact ⟨(shows_append.mp h.shows).2, hroom, h.known, hnext⟩

theorem Faces.head {w : Word} (h : Faces c pointers s (w :: ws) P) : (c.tokenAt s.pos).word = w :=
  h.shows.1

theorem Faces.tail {w : Word} (h : Faces c pointers s (w :: ws) P) :
    Faces c pointers (s.skip 1) ws P := by
  have hfaces : Faces c pointers s ([w] ++ ws) P := h
  exact hfaces.back

theorem Faces.length_lt_rounds (h : Faces c pointers s ws P) : ws.length < c.rounds := by
  have hroom := h.room
  have hrounds := c.sub_lt_rounds s.pos
  omega

end Faces

section Tokens

variable {t : Token} {w : Word} {texts : List String}

theorem kind_of_word (h : t.word = w) : t.kind = w.1 := congrArg Prod.fst h

theorem text_of_word (h : t.word = w) : t.text = w.2 := congrArg Prod.snd h

theorem isPunct_of_word {q : String} (h : t.word = (.punct, p)) : t.isPunct q = (p == q) := by
  simp [Token.isPunct, kind_of_word h, text_of_word h]

theorem isPunctOf_of_word {l : List String} (h : t.word = (.punct, p)) :
    t.isPunctOf l = l.contains p := by
  simp [Token.isPunctOf, kind_of_word h, text_of_word h]

theorem reads_take {c : Context} {E : Stop → Prop} {s : State} {Q : Token → State → Prop}
    {kind : TokenKind} {text : String} (h : (c.tokenAt s.pos).word = (kind, text))
    (hkind : kind ≠ .eof) : Reads c E advance s Q ↔ Q (c.tokenAt s.pos) (s.skip 1) :=
  reads_advance (by simpa [Token.isEof, kind_of_word h] using hkind)

def Follows (t : Token) : Prop := t.kind = .eof ∨ t.kind = .punct ∧ t.text ≠ "::"

theorem follows_punct (h : t.word = (.punct, p)) (hp : p ≠ "::") : Follows t :=
  .inr ⟨kind_of_word h, by rwa [text_of_word h]⟩

def Parts (t : Token) : Prop := Follows t ∧ t.isPunctOf ["(", "[", ".", "->", "++", "--"] = false

theorem Parts.suffixes (h : Parts t) :
    t.isPunct "(" = false ∧ t.isPunct "[" = false ∧ t.isPunctOf [".", "->"] = false ∧
    t.isPunct "++" = false ∧ t.isPunct "--" = false := by
  have hparts := h.2
  simp only [Token.isPunctOf, Token.isPunct, Bool.and_eq_false_iff] at hparts ⊢
  obtain hk | ht := hparts
  · simp only [hk, true_or, and_self]
  · simp only [List.contains_cons, Bool.or_eq_false_iff] at ht
    simp only [List.contains_cons, ht, Bool.or_self, or_true, and_self]

def Stands (texts : List String) (t : Token) : Prop :=
  t.kind = .eof ∨ t.kind = .punct ∧ t.text ∈ texts

theorem stands_punct (h : t.word = (.punct, p)) (hp : p ∈ texts) : Stands texts t :=
  .inr ⟨kind_of_word h, by rwa [text_of_word h]⟩

theorem Stands.mono {texts' : List String} (h : Stands texts t) (hsub : texts ⊆ texts') :
    Stands texts' t :=
  h.imp_right fun h => ⟨h.1, hsub h.2⟩

def enders : List String := [")", "]", ",", ":"]

def leftEnders : List String := enders ++ AssignOp.all.map AssignOp.text

def operandEnders : List String := "?" :: leftEnders

theorem Stands.parts (h : Stands operandEnders t) : Parts t ∧ Exprs.binaryOp? t = none := by
  have htexts :
      ∀ text ∈ operandEnders, text ≠ "::" ∧
      ["(", "[", ".", "->", "++", "--"].contains text = false ∧ BinOp.ofText? text = none := by
    decide
  obtain hk | ⟨hk, ht⟩ := h
  · exact ⟨⟨.inl hk, by simp [Token.isPunctOf, hk]⟩, by simp [Exprs.binaryOp?, hk]⟩
  · obtain ⟨hscope, hsuffix, hbinary⟩ := htexts _ ht
    exact ⟨⟨.inr ⟨hk, hscope⟩, by rw [Token.isPunctOf, hsuffix, Bool.and_false]⟩, by
      simp [Exprs.binaryOp?, hk, hbinary]⟩

theorem Stands.isPunct (h : Stands texts t) (hp : p ∉ texts) : t.isPunct p = false := by
  by_contra hpunct
  simp only [Token.isPunct, Bool.not_eq_false, Bool.and_eq_true, beq_iff_eq] at hpunct
  obtain hk | ⟨-, ht⟩ := h
  · rw [hpunct.1] at hk
    cases hk
  · exact hp (hpunct.2 ▸ ht)

theorem parts_binOp {op : BinOp} (h : t.word = (.punct, op.text)) (hop : op ≠ .comma) :
    Parts t ∧ Exprs.binaryOp? t = some op := by
  have htexts :
      ∀ op : BinOp, op ≠ .comma →
      op.text ≠ "::" ∧ ["(", "[", ".", "->", "++", "--"].contains op.text = false ∧
      BinOp.ofText? op.text = some op := by
    intro op hop
    cases op <;> first | exact absurd rfl hop | decide
  obtain ⟨hscope, hsuffix, hbinary⟩ := htexts op hop
  exact ⟨⟨follows_punct h hscope, by rw [isPunctOf_of_word h, hsuffix]⟩,
    by simp [Exprs.binaryOp?, kind_of_word h, text_of_word h, hbinary]⟩

theorem assignOp?_of_stands (h : Stands enders t) : Exprs.assignOp? t = none := by
  have htexts : ∀ text ∈ enders, AssignOp.ofText? text = none := by decide
  obtain hk | ⟨hk, ht⟩ := h
  · simp [Exprs.assignOp?, hk]
  · simp [Exprs.assignOp?, hk, htexts _ ht]

theorem assignOp?_of_word {op : AssignOp} (h : t.word = (.punct, op.text)) :
    Exprs.assignOp? t = some op := by
  have htext : AssignOp.ofText? op.text = some op := by cases op <;> decide
  simp [Exprs.assignOp?, kind_of_word h, text_of_word h, htext]

end Tokens

namespace Exprs

open Expr

/-- Expressions may nest so deeply, or it is admitted that they nest too deeply. -/
def Allows (E : Stop → Prop) (levels n : Nat) : Prop := n ≤ levels ∨ E .tooDeep

section Nesting

variable {c : Context} {E : Stop → Prop} {levels m n : Nat} {s : State} {Q : Expr → State → Prop}

theorem Allows.mono (h : Allows E levels n) (hmn : m ≤ n) : Allows E levels m :=
  h.imp_left (Nat.le_trans hmn)

theorem reads_expression_within (h : Allows E levels (n + 1))
    (hr : ∀ k, Allows E k n → Reads c E (within k).expressionStep s Q) :
    Reads c E (within levels).expression s Q := by
  cases levels with
  | zero => exact h.resolve_left (by omega)
  | succ k => exact hr k (h.imp_left Nat.le_of_succ_le_succ)

theorem reads_assignment_within (h : Allows E levels (n + 1))
    (hr : ∀ k, Allows E k n → Reads c E (within k).assignmentStep s Q) :
    Reads c E (within levels).assignment s Q := by
  cases levels with
  | zero => exact h.resolve_left (by omega)
  | succ k => exact hr k (h.imp_left Nat.le_of_succ_le_succ)

theorem reads_unary_within (h : Allows E levels (n + 1))
    (hr : ∀ k, Allows E k n → Reads c E (within k).unaryStep s Q) :
    Reads c E (within levels).unary s Q := by
  cases levels with
  | zero => exact h.resolve_left (by omega)
  | succ k => exact hr k (h.imp_left Nat.le_of_succ_le_succ)

end Nesting

section Operands

variable {c : Context} {E : Stop → Prop} {pointers : List String} {g : Exprs} {s : State}
  {Q : Expr → State → Prop}

/-- The readers come from a state to an expression, up to places, and to the end of its words. -/
def Comes (e : Expr) (s : State) (ws : List Word) (e' : Expr) (s' : State) : Prop :=
  e'.bare = e.bare ∧ s' = s.skip ws.length

theorem reads_operand (hsign : (c.tokenAt s.pos).kind = .punct → (c.tokenAt s.pos).text = "(")
    (hword : (c.tokenAt s.pos).kind = .ident → ∀ op ∈ wordOps, op.text ≠ (c.tokenAt s.pos).text)
    (hcast : (c.tokenAt s.pos).kind = .punct → c.looksLikeCast s.locals s.pos = false)
    (h : Reads c E g.primaryStep s fun e s' => Reads c E (g.suffixesFor c.rounds e) s' Q) :
    Reads c E g.unaryStep s Q := by
  have hnosign :
      (if (c.tokenAt s.pos).kind == .punct then UnOp.ofSign? (c.tokenAt s.pos).text else none) =
      none := by
    split
    · rename_i hkind
      rw [hsign (beq_iff_eq.mp hkind)]
      decide
    · rfl
  have hops : ∀ op ∈ wordOps, (c.tokenAt s.pos).isWord op.text = false := by
    intro op hop
    by_contra hop'
    simp only [Token.isWord, Bool.not_eq_false, Bool.and_eq_true, beq_iff_eq] at hop'
    exact hword hop'.1 op hop hop'.2.symm
  have hnosize :
      (if (c.tokenAt s.pos).isIdent then UnOp.ofSize? (c.tokenAt s.pos).text else none) = none := by
    split
    · rename_i hident
      rw [UnOp.ofSize?, List.find?_eq_none]
      intro op hop
      have htext :=
        hword (beq_iff_eq.mp hident) op (List.mem_cons_of_mem _ (List.mem_cons_of_mem _ hop))
      simpa using htext
    · rfl
  have hnew : (c.tokenAt s.pos).isWord "new" = false := hops .new (by decide)
  have hdelete : (c.tokenAt s.pos).isWord "delete" = false := hops .delete (by decide)
  have hnocast : ((c.tokenAt s.pos).isPunct "(" && c.looksLikeCast s.locals s.pos) = false := by
    cases hopen : (c.tokenAt s.pos).isPunct "(" with
    | false => rfl
    | true =>
      simp only [Token.isPunct, Bool.and_eq_true, beq_iff_eq] at hopen
      rw [hcast hopen.1]
      rfl
  simp only [unaryStep, reads_bind, reads_peek, reads_read, reads_get, hnosign, hnosize, hnew,
    hdelete, hnocast, Bool.false_eq_true, if_false]
  exact h

theorem reads_nameFor (ws : List String) (fuel : Nat) (nm : String) {s : State}
    {Q : String → State → Prop} (hfuel : ws.length < fuel)
    (h : Faces c pointers s (scopeWords ws) Follows)
    (hQ : Q (qualified nm ws) (s.skip (scopeWords ws).length)) :
    Reads c E (nameFor fuel nm) s Q := by
  induction ws generalizing fuel nm s with
  | nil =>
    obtain ⟨fuel, rfl⟩ := Nat.exists_eq_add_of_lt hfuel
    have hnext : (c.tokenAt s.pos).isPunct "::" = false := by
      obtain hk | ⟨-, ht⟩ : Follows (c.tokenAt s.pos) := h.next
      · simp [Token.isPunct, hk]
      · simp [Token.isPunct, ht]
    simp only [nameFor, reads_bind, reads_peek, reads_peekAt, reads_ite, reads_pure, hnext,
      Bool.false_and, Bool.false_eq_true, if_false]
    exact hQ
  | cons w ws ih =>
    cases fuel with
    | zero => simp at hfuel
    | succ fuel =>
      have hrest : Faces c pointers ((s.skip 1).skip 1) (scopeWords ws) Follows := h.tail.tail
      have hname : (c.tokenAt (s.pos + 1)).word = (.ident, w) := h.tail.head
      have hpunct : (c.tokenAt s.pos).isPunct "::" = true := isPunct_of_word h.head
      have hident : (c.tokenAt (s.pos + 1)).isIdent = true := by
        rw [Token.isIdent, kind_of_word hname]
        rfl
      simp only [nameFor, reads_bind, reads_peek, reads_peekAt, reads_ite, hpunct, hident,
        Bool.and_self, if_true]
      rw [reads_take h.head (by decide), reads_take h.tail.head (by decide), text_of_word hname]
      refine ih fuel _ (Nat.lt_of_succ_lt_succ hfuel) hrest ?_
      rw [length_scopeWords] at hQ ⊢
      rw [State.skip_skip, State.skip_skip, show 1 + (1 + 2 * ws.length) = 2 * (w :: ws).length by
        rw [List.length_cons]; omega]
      exact hQ

/-- Words of a name, a literal, or an expression in parentheses, with what is appended to it. They
nest `n` levels. -/
def Stem (c : Context) (E : Stop → Prop) (pointers : List String) (e : Expr)
    (ws : List Word) (n : Nat) : Prop :=
  ∀ (levels : Nat) (s : State) (Q : Expr → State → Prop), Allows E levels n →
    Faces c pointers s ws Follows → (∀ e' fuel, e'.bare = e.bare → c.rounds ≤ fuel + ws.length →
    Reads c E ((within levels).suffixesFor fuel e') (s.skip ws.length) Q) →
    Reads c E (within levels).unaryStep s Q

theorem stem_name {n : String} (hn : IsPath n) (p : Pos) :
    Stem c E pointers (.name n p) (pathWords n) 0 := by
  intro levels s Q _ hfaces hQ
  obtain ⟨w, ws, rfl, hwords, hops⟩ := hn
  rw [pathWords_qualified hwords] at hfaces hQ
  have hkind : (c.tokenAt s.pos).kind = .ident := kind_of_word hfaces.head
  have htext : (c.tokenAt s.pos).text = w := text_of_word hfaces.head
  have hlength : ws.length < c.rounds := by
    have hlt := hfaces.length_lt_rounds
    rw [List.length_cons, length_scopeWords] at hlt
    omega
  refine reads_operand (by simp [hkind]) (fun _ => htext ▸ hops) (by simp [hkind]) ?_
  simp only [primaryStep, reads_bind, reads_peek, reads_read, hkind, reads_pure]
  rw [reads_take hfaces.head (by decide)]
  refine reads_nameFor ws _ _ hlength hfaces.tail ?_
  rw [htext, State.skip_skip, Nat.add_comm]
  exact hQ _ _ rfl (Nat.le_add_right _ _)

theorem stem_literal {t : String} {k : LiteralKind} (p : Pos) :
    Stem c E pointers (.literal t k p) [(k.token, t)] 0 := by
  intro levels s Q _ hfaces hQ
  have hkind : (c.tokenAt s.pos).kind = k.token := kind_of_word hfaces.head
  have htext : (c.tokenAt s.pos).text = t := text_of_word hfaces.head
  have hrest : ∀ fuel, c.rounds ≤ fuel → Reads c E ((within levels).suffixesFor fuel
      (.literal t k (c.tokenAt s.pos).pos))
      (s.skip 1) Q := fun fuel h => hQ _ fuel rfl (h.trans (Nat.le_add_right _ _))
  refine reads_operand (by cases k <;> simp [hkind, LiteralKind.token])
    (by cases k <;> simp [hkind, LiteralKind.token])
    (by cases k <;> simp [hkind, LiteralKind.token]) ?_
  simp only [primaryStep, reads_bind, reads_peek, reads_read]
  cases k with
  | number =>
    simp only [hkind, LiteralKind.token, reads_bind, reads_pure]
    rw [reads_take hfaces.head (by decide), htext]
    exact hrest _ (Nat.le_refl _)
  | char =>
    simp only [hkind, LiteralKind.token, reads_bind, reads_pure]
    rw [reads_take hfaces.head (by decide), htext]
    exact hrest _ (Nat.le_refl _)
  | string =>
    have hnext : ((c.tokenAt (s.pos + 1)).kind == .string) = false := by
      obtain hk | ⟨hk, -⟩ : Follows (c.tokenAt (s.pos + 1)) := hfaces.next <;> simp [hk]
    obtain ⟨rounds, hrounds⟩ :=
      Nat.exists_eq_succ_of_ne_zero (Nat.ne_of_gt (Nat.zero_lt_of_lt hfaces.length_lt_rounds))
    simp only [hkind, LiteralKind.token, reads_bind, reads_pure, hrounds]
    rw [reads_take hfaces.head (by decide), htext]
    simp only [stringsFor, reads_bind, reads_peek, State.pos_skip, hnext, Bool.false_eq_true,
      if_false, reads_pure]
    exact hrest _ (Nat.le_of_eq hrounds)

theorem Stem.suffix {o : Expr} {ws more : List Word} {n m : Nat} (ho : Stem c E pointers o ws n)
    (hp : p ≠ "::") (hnm : n ≤ m) (hstep : ∀ levels s Q o' fuel, Allows E levels m → o'.bare =
      o.bare → Faces c pointers s ((.punct, p) :: more) Follows → (∀ e', e'.bare = e.bare →
      Reads c E ((within levels).suffixesFor fuel e') (s.skip (more.length + 1)) Q) →
      Reads c E ((within levels).suffixesFor (fuel + 1) o') s Q) :
    Stem c E pointers e (ws ++ (TokenKind.punct, p) :: more) m := by
  intro levels s Q hallows hfaces hQ
  have hfront := hfaces.front
  refine ho levels s Q (hallows.mono hnm) (hfront.imp fun t ht => follows_punct ht hp)
    fun o' fuel hbare hfuel => ?_
  have hrounds := hfront.length_lt_rounds
  obtain ⟨fuel, rfl⟩ := Nat.exists_eq_succ_of_ne_zero (show fuel ≠ 0 by omega)
  refine hstep levels _ Q o' fuel hallows hbare hfaces.back fun e' he' => ?_
  have hlength : (ws ++ (TokenKind.punct, p) :: more).length = ws.length + (more.length + 1) := by
    rw [List.length_append, List.length_cons]
  rw [State.skip_skip, ← hlength]
  refine hQ e' fuel he' ?_
  omega

section Suffixes

variable {o e f : Expr} {ws ws' : List Word} {n m : Nat}

theorem stem_member (ho : Stem c E pointers o ws n) (attr : String) (arrow : Bool) (p : Pos) :
    Stem c E pointers (.member o attr arrow p)
      (ws ++ [(TokenKind.punct, if arrow then "->" else "."), (TokenKind.ident, attr)]) n := by
  refine ho.suffix (by cases arrow <;> decide) (Nat.le_refl _)
    fun levels s Q o' fuel _ hbare hfaces hQ => ?_
  have hattr : (c.tokenAt (s.pos + 1)).word = (.ident, attr) := hfaces.tail.head
  have hident : (c.tokenAt (s.pos + 1)).isIdent = true := by
    rw [Token.isIdent, kind_of_word hattr]; rfl
  have hmember :
      Reads c E ((within levels).suffixesFor fuel (.member o' attr arrow o'.pos)) (s.skip 2) Q :=
    hQ _ (by rw [bare, bare, hbare])
  have hsign := hfaces.head
  have htext : ((c.tokenAt s.pos).text == "->") = arrow := by
    rw [text_of_word hsign]
    cases arrow <;> rfl
  have hfirst : (c.tokenAt s.pos).isPunct "(" = false ∧ (c.tokenAt s.pos).isPunct "[" = false ∧
      (c.tokenAt s.pos).isPunctOf [".", "->"] = true := by
    rw [isPunct_of_word hsign, isPunct_of_word hsign, isPunctOf_of_word hsign]
    cases arrow <;> decide
  simp only [suffixesFor, reads_bind, reads_peek, hfirst, Bool.false_eq_true, if_false, if_true]
  rw [reads_take hsign (by decide)]
  simp only [reads_expectName, State.pos_skip, hident, if_true, htext, text_of_word hattr]
  exact hmember

theorem stem_step (he : Stem c E pointers e ws n) {op : UnOp}
    (hop : op = .incr ∨ op = .decr) (p : Pos) :
    Stem c E pointers (.unary op e .behind p) (ws ++ [(TokenKind.punct, op.text)]) n := by
  refine he.suffix (by obtain rfl | rfl := hop <;> decide) (Nat.le_refl _)
    fun levels s Q e' fuel _ hbare hfaces hQ => ?_
  have hunary :
      Reads c E ((within levels).suffixesFor fuel (.unary op e' .behind e'.pos)) (s.skip 1) Q :=
    hQ _ (by rw [bare, bare, hbare])
  have hsign := hfaces.head
  have hfirst : (c.tokenAt s.pos).isPunct "(" = false ∧ (c.tokenAt s.pos).isPunct "[" = false ∧
      (c.tokenAt s.pos).isPunctOf [".", "->"] = false := by
    rw [isPunct_of_word hsign, isPunct_of_word hsign, isPunctOf_of_word hsign]
    obtain rfl | rfl := hop <;> decide
  simp only [suffixesFor, reads_bind, reads_peek, hfirst, Bool.false_eq_true, if_false]
  obtain rfl | rfl := hop
  · have hincr : (c.tokenAt s.pos).isPunct "++" = true := isPunct_of_word hsign
    simp only [hincr, if_true, reads_bind]
    rw [reads_take hsign (by decide)]
    exact hunary
  · have hdecr : (c.tokenAt s.pos).isPunct "++" = false ∧ (c.tokenAt s.pos).isPunct "--" = true :=
      ⟨isPunct_of_word hsign, isPunct_of_word hsign⟩
    simp only [hdecr, Bool.false_eq_true, if_false, if_true, reads_bind]
    rw [reads_take hsign (by decide)]
    exact hunary

def Whole (c : Context) (E : Stop → Prop) (pointers : List String) (e : Expr)
    (ws : List Word) (n : Nat) : Prop :=
  ∀ (levels : Nat) (s : State), Allows E levels n → Faces c pointers s ws (Stands enders) →
    Reads c E (within levels).assignmentStep s (Comes e s ws)

theorem Whole.expression {e : Expr} {ws : List Word} {n : Nat} (h : Whole c E pointers e ws n)
    {levels : Nat} (hallows : Allows E levels (n + 1))
    (hfaces : Faces c pointers s ws (Stands [")", "]", ":"])) :
    Reads c E (within levels).expression s (Comes e s ws) := by
  refine reads_expression_within hallows fun k hk => ?_
  simp only [expressionStep, reads_bind, reads_read]
  refine (h k s hk (hfaces.imp fun t ht => ht.mono (by decide))).imp fun e' s' he' => ?_
  obtain ⟨rounds, hrounds⟩ :=
    Nat.exists_eq_succ_of_ne_zero (Nat.ne_of_gt (Nat.zero_lt_of_lt hfaces.length_lt_rounds))
  have hcomma : (c.tokenAt s'.pos).isPunct "," = false := by
    rw [he'.2]
    exact Stands.isPunct hfaces.next (by decide)
  simp only [hrounds, commasFor, reads_bind, reads_peek, reads_accept, hcomma, Bool.false_eq_true,
    if_false, reads_pure]
  exact he'

theorem stem_index {i : Expr} (ho : Stem c E pointers o ws n)
    (hi : Whole c E pointers i ws' m) (p : Pos) :
    Stem c E pointers (.index o i p)
      (ws ++ (TokenKind.punct, "[") :: (ws' ++ [(TokenKind.punct, "]")])) (max n (m + 1)) := by
  refine ho.suffix (by decide) (Nat.le_max_left _ _)
    fun levels s Q o' fuel hallows hbare hfaces hQ => ?_
  have hsign := hfaces.head
  have hfirst : (c.tokenAt s.pos).isPunct "(" = false ∧ (c.tokenAt s.pos).isPunct "[" = true :=
    ⟨isPunct_of_word hsign, isPunct_of_word hsign⟩
  simp only [suffixesFor, reads_bind, reads_peek, hfirst, Bool.false_eq_true, if_false, if_true]
  rw [reads_take hsign (by decide)]
  have hinner := hi.expression (hallows.mono (Nat.le_max_right _ _))
    (hfaces.tail.front.imp fun t ht => stands_punct ht (by decide))
  refine hinner.imp fun i' s' hi' => ?_
  obtain ⟨hibare, rfl⟩ := hi'
  have hclose : (c.tokenAt ((s.skip 1).skip ws'.length).pos).isPunct "]" = true :=
    isPunct_of_word hfaces.tail.back.head
  rw [reads_expect, if_pos hclose, State.next_eq_skip, State.skip_skip, State.skip_skip]
  have hindex := hQ (.index o' i' o'.pos) (by rw [bare, bare, hbare, hibare])
  rw [List.length_append, List.length_singleton, Nat.add_comm] at hindex
  exact hindex

theorem reads_argsFor (args : List Expr)
    (hargs : ∀ a ∈ args, Whole c E pointers a a.words a.nesting) (hne : args ≠ []) {levels : Nat}
    (hallows : Allows E levels (nestingAll args + 1)) (fuel : Nat) (hfuel : args.length ≤ fuel)
    (seen : List Expr) {s : State} {Q : List Expr → State → Prop} {P : Token → Prop}
    (hfaces : Faces c pointers s (commaWords (args.map words) ++ [(TokenKind.punct, ")")]) P)
    (hQ : ∀ args', args'.map bare = args.map bare →
      Q (seen.reverse ++ args') (s.skip ((commaWords (args.map words)).length + 1))) :
    Reads c E ((within levels).argsFor fuel seen) s Q := by
  induction args generalizing fuel seen s with
  | nil => exact absurd rfl hne
  | cons a args ih =>
    have hwhole := hargs a List.mem_cons_self
    have hdeep : Allows E levels (a.nesting + 1) :=
      hallows.mono (Nat.succ_le_succ (Nat.le_max_left _ _))
    cases fuel with
    | zero => simp at hfuel
    | succ fuel =>
      simp only [argsFor, reads_bind, reads_accept, reads_ite, reads_pure]
      cases args with
      | nil =>
        have hfront : Faces c pointers s a.words (·.word = (.punct, ")")) := hfaces.front
        have hread := reads_assignment_within hdeep fun k hk =>
          hwhole k s hk (hfront.imp fun t ht => stands_punct ht (by decide))
        refine hread.imp fun a' s' ha' => ?_
        obtain ⟨habare, rfl⟩ := ha'
        have hclose : (c.tokenAt (s.skip a.words.length).pos).isPunct ")" = true :=
          isPunct_of_word hfaces.back.head
        rw [if_pos hclose, List.reverse_cons]
        exact hQ [a'] (by simp [habare])
      | cons b args =>
        have hshape : commaWords ((a :: b :: args).map words) =
            a.words ++ (TokenKind.punct, ",") :: commaWords ((b :: args).map words) := rfl
        rw [hshape, List.append_assoc, List.cons_append] at hfaces
        have hread := reads_assignment_within hdeep fun k hk =>
          hwhole k s hk (hfaces.front.imp fun t ht => stands_punct ht (by decide))
        refine hread.imp fun a' s' ha' => ?_
        obtain ⟨habare, rfl⟩ := ha'
        have hcomma := hfaces.back.head
        have hnext : (c.tokenAt (s.skip a.words.length).pos).isPunct ")" = false ∧
            (c.tokenAt (s.skip a.words.length).pos).isPunct "," = true :=
          ⟨isPunct_of_word hcomma, isPunct_of_word hcomma⟩
        rw [if_neg (Bool.eq_false_iff.mp hnext.1), reads_expect, if_pos hnext.2, State.next_eq_skip]
        refine ih (fun x hx => hargs x (List.mem_cons_of_mem _ hx)) (by simp)
          (hallows.mono (Nat.succ_le_succ (Nat.le_max_right _ _))) fuel
            (Nat.le_of_succ_le_succ hfuel) (a' :: seen)
          hfaces.back.tail fun args' hargs' => ?_
        have hall := hQ (a' :: args') (by rw [List.map_cons, List.map_cons, habare, hargs'])
        rw [hshape, List.length_append, List.length_cons] at hall
        rw [State.skip_skip, State.skip_skip, List.reverse_cons, List.append_assoc,
          List.singleton_append]
        have hlength : a.words.length + (1 + ((commaWords ((b :: args).map words)).length + 1)) =
            a.words.length + ((commaWords ((b :: args).map words)).length + 1) + 1 := by omega
        rw [hlength]
        exact hall

theorem commaWords_begins {lists : List (List Word)} (hlists : ∀ ws ∈ lists, Begins ws)
    (hne : lists ≠ []) : Begins (commaWords lists) ∧ lists.length ≤ (commaWords lists).length := by
  induction lists with
  | nil => exact absurd rfl hne
  | cons ws lists ih =>
    obtain ⟨w, rest, rfl, hw⟩ := hlists ws List.mem_cons_self
    cases lists with
    | nil => exact ⟨⟨w, rest, rfl, hw⟩, by simp [commaWords]⟩
    | cons ws' lists =>
      have hmore := (ih (fun x hx => hlists x (List.mem_cons_of_mem _ hx)) (by simp)).2
      have hshape : commaWords ((w :: rest) :: ws' :: lists) =
          w :: (rest ++ (TokenKind.punct, ",") :: commaWords (ws' :: lists)) := rfl
      refine ⟨⟨w, _, hshape, hw⟩, ?_⟩
      rw [hshape]
      simp only [List.length_append, List.length_cons] at hmore ⊢
      omega

theorem stem_call {args : List Expr} {via : Bool} (hf : Stem c E pointers f ws n)
    (hargs : ∀ a ∈ args, Whole c E pointers a a.words a.nesting)
    (hbegins : ∀ a ∈ args, Begins a.words) (hvia : isThrough pointers f args = via) (p : Pos) :
    Stem c E pointers (.call f args via p) (ws ++ (TokenKind.punct, "(") ::
      (commaWords (args.map words) ++ [(TokenKind.punct, ")")])) (max n (nestingAll args + 1)) := by
  refine hf.suffix (by decide) (Nat.le_max_left _ _)
    fun levels s Q f' fuel hallows hbare hfaces hQ => ?_
  have hsign := hfaces.head
  have hfirst : (c.tokenAt s.pos).isPunct "(" = true := isPunct_of_word hsign
  -- the call is made as the one that was printed
  have hcall : ∀ args', args'.map bare = args.map bare → Reads c E
      ((within levels).suffixesFor fuel (makeCall pointers f' args'))
      (s.skip ((commaWords (args.map words)).length + 2)) Q := by
    intro args' hargs'
    rw [List.length_append, List.length_singleton] at hQ
    refine hQ _ ?_
    rw [makeCall_eq, ← isThrough_bare, hbare, hargs', isThrough_bare, hvia, bare, bare, bareAll_eq,
      bareAll_eq, hbare, hargs']
  simp only [suffixesFor, reads_bind, reads_peek, hfirst, if_true]
  rw [reads_take hsign (by decide)]
  simp only [Exprs.args, reads_bind, reads_accept, reads_ite, reads_pure, reads_read, reads_get]
  cases args with
  | nil =>
    have hclose : (c.tokenAt (s.skip 1).pos).isPunct ")" = true := isPunct_of_word hfaces.tail.head
    have hknown : (s.skip 1).next.interfaces = pointers := hfaces.known
    rw [if_pos hclose, if_pos trivial, hknown]
    exact hcall [] rfl
  | cons a more =>
    have hbehind := hfaces.tail
    have hlists : ∀ ws ∈ (a :: more).map words, Begins ws := by simpa using hbegins
    obtain ⟨⟨w, rest, hwords, hw⟩, hlength⟩ := commaWords_begins hlists (by simp)
    have hopen : (c.tokenAt (s.skip 1).pos).isPunct ")" = false := by
      rw [hwords] at hbehind
      have hhead := hbehind.head
      by_contra hclose
      simp only [Token.isPunct, Bool.not_eq_false, Bool.and_eq_true, beq_iff_eq] at hclose
      exact hw (hhead.symm.trans (Prod.ext hclose.1 hclose.2))
    have hrounds : (a :: more).length ≤ c.rounds := by
      have hlt := hbehind.length_lt_rounds
      rw [List.length_append] at hlt
      rw [List.length_map] at hlength
      omega
    rw [if_neg (Bool.eq_false_iff.mp hopen), if_neg (by decide)]
    refine reads_argsFor (a :: more) hargs (by simp) (hallows.mono (Nat.le_max_right _ _)) _ hrounds
      [] hbehind fun args' hargs' => ?_
    have hdone := hcall args' hargs'
    have hknown : ∀ n, ((s.skip 1).skip n).interfaces = pointers := fun n => hfaces.known
    rw [hknown, State.skip_skip, Nat.add_comm 1]
    exact hdone

/-- In parentheses, what is a whole expression is a stem. -/
theorem stem_parens (hc : c.Matched) (hblocks : Blocks ws) (he : Whole c E pointers e ws n) :
    Stem c E pointers e ((TokenKind.punct, "(") :: (ws ++ [(TokenKind.punct, ")")])) (n + 1) := by
  intro levels s Q hallows hfaces hQ
  have hopen := hfaces.head
  have hfirst : (c.tokenAt s.pos).isPunct "(" = true := isPunct_of_word hopen
  have hkind : (c.tokenAt s.pos).kind = .punct := kind_of_word hopen
  refine reads_operand (fun _ => text_of_word hopen) (by simp [hkind])
    (fun _ => not_looksLikeCast hc hblocks hfaces.shows s.locals) ?_
  simp only [primaryStep, reads_bind, reads_peek, reads_read, hkind, hfirst, if_true]
  rw [reads_take hopen (by decide)]
  refine (he.expression hallows (hfaces.tail.front.imp fun t ht => stands_punct ht (by decide))).imp
    fun e' s' he' => ?_
  obtain ⟨hbare, rfl⟩ := he'
  have hclose : (c.tokenAt ((s.skip 1).skip ws.length).pos).isPunct ")" = true :=
    isPunct_of_word hfaces.tail.back.head
  rw [reads_expect, if_pos hclose, reads_pure, State.next_eq_skip, State.skip_skip, State.skip_skip]
  have hrest := hQ e' c.rounds hbare (Nat.le_add_right _ _)
  rw [List.length_cons, List.length_append, List.length_singleton, Nat.add_comm] at hrest
  exact hrest

end Suffixes

def Operand (c : Context) (E : Stop → Prop) (pointers : List String) (e : Expr)
    (ws : List Word) (n : Nat) : Prop :=
  ∀ (levels : Nat) (s : State), Allows E levels n → Faces c pointers s ws Parts →
    Reads c E (within levels).unaryStep s (Comes e s ws)

section Operators

variable {e l r : Expr} {ws ws' : List Word} {n m : Nat}

theorem Stem.operand (he : Stem c E pointers e ws n) : Operand c E pointers e ws n := by
  intro levels s hallows hfaces
  refine he levels s _ hallows (hfaces.imp fun t ht => ht.1) fun e' fuel hbare hfuel => ?_
  have hrounds := hfaces.length_lt_rounds
  obtain ⟨fuel, rfl⟩ := Nat.exists_eq_succ_of_ne_zero (show fuel ≠ 0 by omega)
  obtain ⟨hcall, hindex, hmember, hincr, hdecr⟩ := hfaces.next.suffixes
  simp only [suffixesFor, reads_bind, reads_peek, State.pos_skip, hcall, hindex, hmember, hincr,
    hdecr, Bool.false_eq_true, if_false, reads_pure]
  exact ⟨hbare, rfl⟩

theorem operand_sign {op : UnOp} (hop : op ∈ UnOp.signs)
    (he : Operand c E pointers e ws n) (p : Pos) :
    Operand c E pointers (.unary op e .before p) ((.punct, op.text) :: ws) (n + 1) := by
  intro levels s hallows hfaces
  have hall : ∀ op ∈ UnOp.signs, UnOp.ofSign? op.text = some op := by decide
  have hkind : (c.tokenAt s.pos).kind = .punct := kind_of_word hfaces.head
  have htext : (c.tokenAt s.pos).text = op.text := text_of_word hfaces.head
  simp only [unaryStep, reads_bind, reads_peek, reads_read, reads_get, hkind, beq_self_eq_true,
    if_true, htext, hall op hop, reads_pure]
  rw [reads_take hfaces.head (by decide)]
  refine (reads_unary_within hallows fun k hk => he k _ hk hfaces.tail).imp fun e' s' he' => ?_
  refine ⟨by rw [bare, bare, he'.1], ?_⟩
  rw [he'.2, State.skip_skip, List.length_cons, Nat.add_comm]

theorem Operand.binary (he : Operand c E pointers e ws n) {levels : Nat}
    (hallows : Allows E levels n) (hfaces : Faces c pointers s ws (Stands operandEnders))
    (k least : Nat) : Reads c E ((within levels).binary (k + 1) least) s (Comes e s ws) := by
  simp only [Exprs.binary, reads_bind, reads_read]
  refine (he levels s hallows (hfaces.imp fun t ht => ht.parts.1)).imp fun e' s' he' => ?_
  obtain ⟨rounds, hrounds⟩ :=
    Nat.exists_eq_succ_of_ne_zero (Nat.ne_of_gt (Nat.zero_lt_of_lt hfaces.length_lt_rounds))
  have hnone : binaryOp? (c.tokenAt s'.pos) = none := by
    rw [he'.2]
    exact hfaces.next.parts.2
  simp only [hrounds, binaryFor, reads_bind, reads_peek, hnone, reads_pure]
  exact he'

def Operation (c : Context) (E : Stop → Prop) (pointers : List String) (e : Expr)
    (ws : List Word) (n : Nat) : Prop :=
  ∀ (levels : Nat) (s : State), Allows E levels n → Faces c pointers s ws (Stands operandEnders) →
    Reads c E ((within levels).binary 10 4) s (Comes e s ws)

theorem Operand.operation (he : Operand c E pointers e ws n) : Operation c E pointers e ws n :=
  fun _ _ hallows hfaces => he.binary hallows hfaces 9 4

/-- An operator that binds tightly enough, with its operands. -/
theorem reads_binary {op : BinOp} (hop : op ≠ .comma) (hl : Operand c E pointers l ws n)
    (hr : Operand c E pointers r ws' m) {levels least : Nat} (hleast : least ≤ op.precedence)
    (hallows : Allows E levels (max n m))
    (hfaces : Faces c pointers s (ws ++ (TokenKind.punct, op.text) :: ws') (Stands operandEnders))
    (k : Nat) (p : Pos) :
    Reads c E ((within levels).binary (k + 2) least) s
      (Comes (.binary op l r p) s (ws ++ (TokenKind.punct, op.text) :: ws')) := by
  have hback := hfaces.back
  have hsome : binaryOp? (c.tokenAt (s.skip ws.length).pos) = some op :=
    (parts_binOp hback.head hop).2
  obtain ⟨rounds, hrounds⟩ : ∃ rounds, c.rounds = rounds + 2 := ⟨c.rounds - 2, by
    have hlt := hback.length_lt_rounds
    rw [List.length_cons] at hlt
    omega⟩
  rw [Exprs.binary]
  simp only [reads_bind, reads_read]
  refine (hl levels s (hallows.mono (Nat.le_max_left _ _))
    (hfaces.front.imp fun t ht => (parts_binOp ht hop).1)).imp fun l' s' hl' => ?_
  obtain ⟨hlbare, rfl⟩ := hl'
  rw [hrounds, binaryFor]
  simp only [reads_bind, reads_peek, hsome, hleast, if_true]
  rw [reads_take hback.head (by decide)]
  refine (hr.binary (hallows.mono (Nat.le_max_right _ _)) hback.tail k _).imp fun r' s' hr' => ?_
  have hnone : binaryOp? (c.tokenAt s'.pos) = none := by
    rw [hr'.2]
    exact hback.tail.next.parts.2
  simp only [binaryFor, reads_bind, reads_peek, hnone, reads_pure]
  refine ⟨by rw [bare, bare, hlbare, hr'.1], ?_⟩
  rw [hr'.2, State.skip_skip, State.skip_skip, List.length_append, List.length_cons, Nat.add_comm 1]

theorem operation_binary {op : BinOp} (hop : op ≠ .comma) (hl : Operand c E pointers l ws n)
    (hr : Operand c E pointers r ws' m) (p : Pos) :
    Operation c E pointers (.binary op l r p) (ws ++ (TokenKind.punct, op.text) :: ws')
      (max n m) := by
  have hleast : 4 ≤ op.precedence := by cases op <;> first | exact absurd rfl hop | decide
  exact fun levels s hallows hfaces => reads_binary hop hl hr hleast hallows hfaces 8 p

def Left (c : Context) (E : Stop → Prop) (pointers : List String) (e : Expr)
    (ws : List Word) (n : Nat) : Prop :=
  ∀ (levels : Nat) (s : State), Allows E levels n → Faces c pointers s ws (Stands leftEnders) →
    Reads c E (within levels).conditionalStep s (Comes e s ws)

theorem Operation.left (h : Operation c E pointers e ws n) :
    Left c E pointers e ws n := by
  intro levels s hallows hfaces
  simp only [conditionalStep, reads_bind, reads_accept]
  refine (h levels s hallows (hfaces.imp fun t ht => ht.mono (List.subset_cons_self _ _))).imp
    fun e' s' he' => ?_
  have hnext : (c.tokenAt s'.pos).isPunct "?" = false := by
    rw [he'.2]
    exact hfaces.next.isPunct (by decide)
  simp only [hnext, Bool.false_eq_true, if_false, reads_pure]
  exact he'

/-- What an assignment operator does not follow is a whole expression. -/
theorem whole_of_conditionalStep (h : ∀ (levels : Nat) (s : State),
      Allows E levels n → Faces c pointers s ws (Stands enders) →
      Reads c E (within levels).conditionalStep s (Comes e s ws)) : Whole c E pointers e ws n := by
  intro levels s hallows hfaces
  simp only [assignmentStep, reads_bind, reads_peek]
  refine (h levels s hallows hfaces).imp fun e' s' he' => ?_
  have hnone : assignOp? (c.tokenAt s'.pos) = none := by
    rw [he'.2]
    exact assignOp?_of_stands hfaces.next
  simp only [hnone, reads_pure]
  exact he'

theorem Left.whole (h : Left c E pointers e ws n) : Whole c E pointers e ws n :=
  whole_of_conditionalStep fun levels s hallows hfaces =>
    h levels s hallows (hfaces.imp fun _ ht => ht.mono (List.subset_append_left _ _))

theorem whole_conditional {q x y : Expr} {ks xs ys : List Word} {k n m : Nat}
    (hq : Operand c E pointers q ks k) (hx : Operand c E pointers x xs n)
    (hy : Operand c E pointers y ys m) (p : Pos) :
    Whole c E pointers (.conditional q x y p) (ks ++ (TokenKind.punct, "?") ::
      (xs ++ (TokenKind.punct, ":") :: ys)) (max k (max n m + 1)) := by
  refine whole_of_conditionalStep fun levels s hallows hfaces => ?_
  have hinner : Allows E levels (max n m + 1) := hallows.mono (Nat.le_max_right _ _)
  simp only [conditionalStep, reads_bind, reads_accept]
  refine (hq.binary (hallows.mono (Nat.le_max_left _ _))
    (hfaces.front.imp fun t ht => stands_punct ht (by decide)) 9 4).imp fun q' s' hq' => ?_
  obtain ⟨hqbare, rfl⟩ := hq'
  have hask : (c.tokenAt (s.skip ks.length).pos).isPunct "?" = true :=
    isPunct_of_word hfaces.back.head
  have hyes := hfaces.back.tail
  simp only [hask, if_true, reads_bind, State.next_eq_skip]
  refine (hx.operation.left.whole.expression (hinner.mono (Nat.succ_le_succ (Nat.le_max_left _ _)))
    (hyes.front.imp fun t ht => stands_punct ht (by decide))).imp fun x' s' hx' => ?_
  obtain ⟨hxbare, rfl⟩ := hx'
  have hcolon : (c.tokenAt (((s.skip ks.length).skip 1).skip xs.length).pos).isPunct ":" = true :=
    isPunct_of_word hyes.back.head
  rw [reads_expect, if_pos hcolon, State.next_eq_skip]
  refine (reads_assignment_within
    (hinner.mono (Nat.succ_le_succ (Nat.le_max_right _ _))) fun j hj =>
    hy.operation.left.whole j _ hj hyes.back.tail).imp fun y' s' hy' => ?_
  refine ⟨by rw [bare, bare, hqbare, hxbare, hy'.1], ?_⟩
  rw [hy'.2]
  simp only [State.skip_skip, List.length_append, List.length_cons]
  congr 1
  omega

theorem whole_assign {op : AssignOp} {t v : Expr} (ht : Left c E pointers t ws n)
    (hv : Whole c E pointers v ws' m) (p : Pos) :
    Whole c E pointers (.assign op t v p) (ws ++ (TokenKind.punct, op.text) :: ws')
      (max n (m + 1)) := by
  intro levels s hallows hfaces
  simp only [assignmentStep, reads_bind, reads_peek]
  refine (ht levels s (hallows.mono (Nat.le_max_left _ _))
    (hfaces.front.imp fun u hu => stands_punct hu ?_)).imp fun t' s' ht' => ?_
  · cases op <;> decide
  obtain ⟨htbare, rfl⟩ := ht'
  have hsome : assignOp? (c.tokenAt (s.skip ws.length).pos) = some op :=
    assignOp?_of_word hfaces.back.head
  simp only [hsome, reads_bind]
  rw [reads_take hfaces.back.head (by decide)]
  refine (reads_assignment_within (hallows.mono (Nat.le_max_right _ _)) fun j hj =>
    hv j _ hj hfaces.back.tail).imp fun v' s' hv' => ?_
  refine ⟨by rw [bare, bare, htbare, hv'.1], ?_⟩
  rw [hv'.2]
  simp only [State.skip_skip, List.length_append, List.length_cons]
  congr 1
  omega

end Operators

/-- A printable expression is read from its words, wherever it may stand. -/
structure Rereads (c : Context) (E : Stop → Prop) (pointers : List String) (e : Expr) : Prop where
  stem : Stem c E pointers e e.tightWords (nested e e.nesting)
  whole : Whole c E pointers e e.words e.nesting
  left : e.isAssign = false → e.isConditional = false → Left c E pointers e e.words e.nesting

theorem Stem.rereads (h : Stem c E pointers e e.words e.nesting) (hloose : e.isLoose = false) :
    Rereads c E pointers e := by
  have hleft := h.operand.operation.left
  refine ⟨?_, hleft.whole, fun _ _ => hleft⟩
  rw [tightWords, enclosed, nested, if_neg (by simp [hloose]), if_neg (by simp [hloose])]
  exact h

theorem Whole.stem (hc : c.Matched) (h : Whole c E pointers e e.words e.nesting)
    (he : Printable pointers e) (hloose : e.isLoose = true) :
    Stem c E pointers e e.tightWords (nested e e.nesting) := by
  rw [tightWords, enclosed, nested, if_pos hloose, if_pos hloose]
  exact stem_parens hc (he.fronted.2 hloose) h

theorem rereads_of_printable (hc : c.Matched) (h : Printable pointers e) :
    Rereads c E pointers e := by
  induction h with
  | name hn hplain => exact (stem_name hn _).rereads rfl
  | literal ht => exact (stem_literal _).rereads rfl
  | member ho hnumber hattr ih => exact (stem_member ih.stem _ _ _).rereads rfl
  | index ho hi iho ihi => exact (stem_index iho.stem ihi.whole _).rereads rfl
  | @call f args p hf hargs hplain ihf ihargs =>
    have hcall :=
      stem_call ihf.stem (fun a ha => (ihargs a ha).whole) (fun a ha => (hargs a ha).begins)
        (hf.isThrough_eq_false hplain args) p
    rw [← wordsAll_eq] at hcall
    exact hcall.rereads rfl
  | @interfaceCall r n args q q' p hr hknown hn hargs ihargs =>
    have hcall :=
      stem_call (stem_member (stem_name hr q) n true q') (fun a ha => (ihargs a ha).whole)
        (fun a ha => (hargs a ha).begins) (isThrough_pointer hknown n args q q') p
    rw [← wordsAll_eq] at hcall
    exact hcall.rereads rfl
  | step hop he ih => exact (stem_step ih.stem hop _).rereads rfl
  | @binary op l r p hop hl hr ihl ihr =>
    have hleft :
        Left c E pointers (.binary op l r p) (Expr.binary op l r p).words
          (Expr.binary op l r p).nesting :=
      (operation_binary hop ihl.stem.operand ihr.stem.operand p).left
    exact ⟨hleft.whole.stem hc (.binary hop hl hr) rfl, hleft.whole, fun _ _ => hleft⟩
  | @conditional k x y p hk hx hy ihk ihx ihy =>
    have hwhole : Whole c E pointers (.conditional k x y p) (Expr.conditional k x y p).words
        (Expr.conditional k x y p).nesting :=
          whole_conditional ihk.stem.operand ihx.stem.operand ihy.stem.operand p
    exact ⟨hwhole.stem hc (.conditional hk hx hy) rfl, hwhole, fun _ h => by cases h⟩
  | @assign op t v p ht hv hassign hconditional iht ihv =>
    have hwhole :
        Whole c E pointers (.assign op t v p) (Expr.assign op t v p).words
          (Expr.assign op t v p).nesting := whole_assign (iht.left hassign hconditional) ihv.whole p
    exact ⟨hwhole.stem hc (.assign ht hv hassign hconditional) rfl, hwhole, fun h => by cases h⟩

end Operands

end Exprs

end Parse

end JniContracts
