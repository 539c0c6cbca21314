import JniContracts.Proofs.Rendering.Trees

/-!
Expressions that are read from source text are sound. Their names are made of words, and their calls
are interface calls where the known pointers say so. Reading an expression does not change which
pointers are known.
-/

namespace JniContracts

open Rendering Lexer

namespace Expr

section Spellings

variable {f e : Expr} {args own : List Expr} {r n : String} {p : Pos}

theorem Sound.strip : {e : Expr} → e.Sound → e.strip.Sound
  | cast t a p, h => Sound.strip (e := a) (h.child (by simp [children]))
  | name .., h | literal .., h | ellipsis .., h | call .., h | member .., h | index .., h
  | unary .., h | binary .., h | conditional .., h | assign .., h | initList .., h
  | verbatim .., h => h

/-- The pointer and the name of an interface call are words of its function expression. -/
theorem Spells.texts (h : Spells f args r n own) (hf : f.Sound) :
    NameText r.toList ∧ WordText n.toList := by
  cases h with
  | @table obj n p r q side q' a own hobj ha =>
    have hobject : obj.strip.Sound := Sound.strip (hf.child (by simp [children]))
    rw [hobj] at hobject
    exact ⟨(hobject.child (c := name r q) (by simp [children])).self, hf.self⟩
  | @pointer obj n p r q own hobj =>
    have hobject : obj.strip.Sound := Sound.strip (hf.child (by simp [children]))
    rw [hobj] at hobject
    exact ⟨hobject.self, hf.self⟩

theorem tight_uniform (e : Expr) : e.uniform.tight = e.tight := by
  rw [tight, tight, enclose_uniform, render_uniform]

def Leads (e : Expr) : Prop := ∃ c rest, e.tight = c :: rest ∧ c ≠ '('

theorem Leads.of_append (hf : f.Leads) (hloose : e.isLoose = false) {s : List Char}
    (h : e.chars = f.tight ++ s) : e.Leads := by
  obtain ⟨c, rest, htight, hc⟩ := hf
  exact ⟨c, rest ++ s, by rw [tight_of_not_loose hloose, h, htight, List.cons_append], hc⟩

theorem leads_call {via : Bool} (h : (call f args via p).Sound) (hf : f.Leads) :
    (call f args via p).Leads := by
  cases via with
  | false => exact hf.of_append rfl (chars_call (fun h => by cases h) p)
  | true =>
    obtain ⟨rn, hs⟩ := Option.isSome_iff_exists.mp (h.self rfl)
    obtain ⟨c, rest, hr, hc, -⟩ := ((spells_of_spelled? hs).texts (h.child (by simp [children]))).1
    have hparen : c ≠ '(' := by
      rintro rfl
      cases hc
    rw [Leads, ← tight_uniform, uniform_spelled hs, tight_of_not_loose rfl,
      chars_call (fun _ => rfl), tight_of_not_loose rfl, chars_member, tight_of_not_loose rfl,
      chars, render, hr]
    exact ⟨c, _, rfl, hparen⟩

theorem head_unOp (op : UnOp) : ∃ c rest, op.text.toList = c :: rest ∧ c ≠ '(' := by
  cases op <;> exact ⟨_, _, rfl, by decide⟩

theorem leads_before (op : UnOp) (e : Expr) (p : Pos) : (unary op e .before p).Leads := by
  obtain ⟨c, rest, htext, hc⟩ := head_unOp op
  rw [Leads, tight_of_not_loose rfl, chars_before, htext]
  exact ⟨c, _, rfl, hc⟩

end Spellings

section Regular

def qualified (w : String) (ws : List String) : String := ws.foldl (fun n w => n ++ "::" ++ w) w

def IsPath (n : String) : Prop :=
  ∃ w ws, n = qualified w ws ∧ (∀ x ∈ w :: ws, WordText x.toList) ∧ ∀ op ∈ wordOps, op.text ≠ w

def isArrow : Expr → Bool
  | member _ _ arrow _ => arrow
  | _ => false

def isThrough (pointers : List String) (f : Expr) (args : List Expr) : Bool :=
  match f.tablePointer? with
  | some r => (args.head?.bind fun a => a.strip.name?) == some r
  | none => f.isArrow && f.namedObject?.any fun r => pointers.contains r || Parse.isHole r

theorem makeCall_eq (pointers : List String) (f : Expr) (args : List Expr) :
    Parse.Exprs.makeCall pointers f args = call f args (isThrough pointers f args) f.pos := by
  simp only [Parse.Exprs.makeCall, isThrough]
  cases htable : f.tablePointer? with
  | some r => rfl
  | none =>
    cases f with
    | member o attr arrow p => cases arrow <;> simp [isArrow]
    | _ => rfl

/-- What is asked of one node: a name is made of words, and a call is made as the pointers say. -/
def IsRegular (pointers : List String) : Expr → Prop
  | name n _ => IsPath n
  | call f args via _ => via = isThrough pointers f args
  | _ => True

def Regular (pointers : List String) (e : Expr) : Prop := ∀ x ∈ e.walk, x.IsRegular pointers

variable {pointers : List String} {e : Expr}

theorem regular_iff :
    e.Regular pointers ↔ e.IsRegular pointers ∧ ∀ x ∈ e.children, x.Regular pointers := forall_walk

theorem Regular.self (h : e.Regular pointers) : e.IsRegular pointers := (regular_iff.mp h).1

theorem Regular.child {x : Expr} (h : e.Regular pointers) (hx : x ∈ e.children) :
    x.Regular pointers :=
  (regular_iff.mp h).2 x hx

def Formed (pointers : List String) (e : Expr) : Prop := e.Sound ∧ e.Regular pointers

theorem formed_node (hsound : e.IsSound) (hregular : e.IsRegular pointers)
    (hparts : ∀ x ∈ e.children, x.Formed pointers) : e.Formed pointers :=
  ⟨sound_iff.mpr ⟨hsound, fun x hx => (hparts x hx).1⟩,
    regular_iff.mpr ⟨hregular, fun x hx => (hparts x hx).2⟩⟩

theorem formed_leaf (hsound : e.IsSound) (hregular : e.IsRegular pointers)
    (hleaf : e.children = []) : e.Formed pointers := formed_node hsound hregular (by simp [hleaf])

end Regular

end Expr

namespace Parse

open Expr

section Texts

theorem nameText_qualified {t w : List Char} (ht : NameText t) (hw : WordText w) :
    NameText (t ++ ':' :: ':' :: w) := by
  obtain ⟨c, rest, rfl, hc, hrest, -⟩ := ht
  obtain ⟨d, tail, rfl, hd, htail⟩ := hw
  refine ⟨c, _, rfl, hc, fun x hx => ?_, fun op hop heq => ?_⟩
  · obtain hx | hx := List.mem_append.mp hx
    · exact hrest x hx
    · simp only [List.mem_cons] at hx
      obtain rfl | rfl | rfl | hx := hx
      · rfl
      · rfl
      · exact isQualifiedChar_of_isNameChar (isNameChar_of_isNameStart hd)
      · exact isQualifiedChar_of_isNameChar (htail x hx)
  · have hall : ∀ op ∈ wordOps, ':' ∉ op.text.toList := by decide
    exact hall op hop (by rw [heq]; simp)

theorem nameText_of_isPath {n : String} (h : IsPath n) : NameText n.toList := by
  obtain ⟨w, ws, rfl, hwords, hops⟩ := h
  obtain ⟨hw, hws⟩ := List.forall_mem_cons.mp hwords
  have hname : NameText w.toList := by
    obtain ⟨x, rest, htext, hx, hrest⟩ := hw
    refine ⟨x, rest, htext, hx, fun d hd => isQualifiedChar_of_isNameChar (hrest d hd),
      fun op hop heq => ?_⟩
    exact hops op hop (String.toList_injective heq)
  clear hwords hops hw
  induction ws generalizing w with
  | nil => exact hname
  | cons x ws ih =>
    obtain ⟨hx, hws⟩ := List.forall_mem_cons.mp hws
    exact ih (w ++ "::" ++ x) hws (by simpa using nameText_qualified hname hx)

/-- A word behind a name makes it longer. -/
theorem isPath_scope {n w : String} (hn : IsPath n) (hw : WordText w.toList) :
    IsPath (n ++ "::" ++ w) := by
  obtain ⟨v, ws, rfl, hwords, hops⟩ := hn
  refine ⟨v, ws ++ [w], by simp [qualified], fun x hx => ?_, hops⟩
  rw [← List.cons_append, List.mem_append, List.mem_singleton] at hx
  obtain hx | rfl := hx
  · exact hwords x hx
  · exact hw

/-- Neighbouring string literals are one. -/
theorem quotedText_joinLiterals {a b : String} (ha : QuotedText '"' a.toList)
    (hb : QuotedText '"' b.toList) : QuotedText '"' (Exprs.joinLiterals a b).toList := by
  obtain ⟨mark, hmark, body, htext, hbody⟩ := ha
  obtain ⟨mark', hmark', body', htext', hbody'⟩ := hb
  obtain ⟨inner, hinner, hpass⟩ := literalBody_inner hbody
  have hopen : b.toList.dropWhile (· != '"') = '"' :: body' := by
    have hall : ∀ mark ∈ marks, mark.all (· != '"') = true := by decide
    rw [htext', List.dropWhile_append_of_pos (List.all_eq_true.mp (hall mark' hmark'))]
    rfl
  have hjoin : (Exprs.joinLiterals a b).toList = mark ++ '"' :: (inner ++ body') := by
    have hlast : (mark ++ '"' :: (inner ++ ['"'])).dropLast = mark ++ '"' :: inner := by
      rw [← List.cons_append, ← List.append_assoc, List.dropLast_concat]
    simp only at hinner
    rw [Exprs.joinLiterals, String.toList_ofList, htext, hinner, hlast, hopen]
    simp
  refine ⟨mark, hmark, inner ++ body', hjoin, ?_⟩
  rw [hpass, hbody']
  rfl

end Texts

section Reading

variable {c : Context} {pointers : List String} {α β : Type} {m : ParseM α} {f : α → ParseM β}
  {Q Q' : α → Prop} {R : β → Prop}

def Keeps (c : Context) (pointers : List String) (m : ParseM α) (Q : α → Prop) : Prop :=
  ∀ s, s.interfaces = pointers → Reads c (fun _ => True) m s fun a s' => s'.interfaces =
      pointers ∧ Q a

theorem Keeps.imp (h : Keeps c pointers m Q) (hQ : ∀ a, Q a → Q' a) : Keeps c pointers m Q' :=
  fun s hs => (h s hs).imp fun a _ ha => ⟨ha.1, hQ a ha.2⟩

theorem Keeps.bind (hm : Keeps c pointers m Q) (hf : ∀ a, Q a → Keeps c pointers (f a) R) :
    Keeps c pointers (m >>= f) R :=
  fun s hs => reads_bind.mpr ((hm s hs).imp fun a s' h => hf a h.2 s' h.1)

theorem keeps_pure {a : α} (h : Q a) : Keeps c pointers (pure a) Q := fun _ hs => ⟨hs, h⟩

theorem keeps_throw {e : Stop} : Keeps c pointers (throw e) Q := fun _ _ => trivial

theorem keeps_failAt {t : Token} {p : Problem} : Keeps c pointers (failAt t p) Q :=
  fun _ _ => trivial

theorem keeps_peekAt (k : Nat) : Keeps c pointers (peekAt k) fun t => ∃ i, t = c.tokenAt i :=
  fun _ hs => ⟨hs, _, rfl⟩

theorem keeps_peek : Keeps c pointers peek fun t => ∃ i, t = c.tokenAt i := keeps_peekAt 0

theorem keeps_read : Keeps c pointers read fun c' => c' = c := fun _ hs => ⟨hs, rfl⟩

theorem keeps_get : Keeps c pointers get fun s => s.interfaces = pointers := fun _ hs => ⟨hs, hs⟩

theorem keeps_moveTo (i : Nat) : Keeps c pointers (moveTo i) fun _ => True :=
  fun _ hs => ⟨hs, trivial⟩

theorem keeps_advance : Keeps c pointers advance fun _ => True := by
  intro s hs
  simp only [advance, reads_bind, reads_peek]
  split <;> exact ⟨hs, trivial⟩

theorem keeps_accept (text : String) : Keeps c pointers (accept text) fun _ => True := by
  intro s hs
  rw [reads_accept]
  split <;> exact ⟨hs, trivial⟩

theorem keeps_expect (text : String) : Keeps c pointers (expect text) fun _ => True := by
  intro s hs
  rw [reads_expect]
  split
  · exact ⟨hs, trivial⟩
  · trivial

theorem keeps_expectName (hs : Spelled c) :
    Keeps c pointers expectName fun t => WordText t.text.toList := by
  intro s hpointers
  rw [reads_expectName]
  split
  · rename_i hname
    have hword := hs.fits s.pos
    rw [beq_iff_eq.mp hname] at hword
    exact ⟨hpointers, hword⟩
  · trivial

theorem keeps_jump : Keeps c pointers jump fun _ => True := by
  refine keeps_get.bind fun _ _ => Keeps.bind (Q := fun _ => True) (keeps_read.bind ?_)
    fun _ _ => keeps_moveTo _
  rintro _ rfl
  split
  · exact keeps_pure trivial
  · exact keeps_throw

theorem isTypeToken_of_looksLikeCast {locals : List String} {i j : Nat}
    (h : c.looksLikeCast locals i = true) (hij : c.partner? i = some j) :
    ∀ t ∈ c.slice (i + 1) j, isTypeToken t = true := by
  have hpartner : c.partnerOf i = j := by rw [Context.partnerOf, hij, Option.getD_some]
  simp only [Context.looksLikeCast, hpartner] at h
  split at h
  · rename_i hinner
    simp [hinner]
  · rename_i first more hinner
    cases hnames : (c.slice (i + 1) j).span fun t => t.isIdent || t.isPunct "::" with
    | mk names rest =>
    cases hmarks : rest.span fun t => t.isPunctOf ["*", "&"] || t.isWordOf pointerQualifiers with
    | mk marks rest' =>
    simp only [hnames, hmarks] at h
    have hrest : rest' = [] := by
      by_contra hne
      simp [hne] at h
    intro t ht
    rw [← append_of_span hnames, ← append_of_span hmarks, hrest, List.append_nil] at ht
    obtain ht | ht := List.mem_append.mp ht
    · have hname := (of_span hnames).1 t ht
      simp only [isTypeToken, Bool.or_eq_true] at hname ⊢
      exact hname.imp_right fun h => isPunctOf_of_isPunct h (by decide)
    · have hmark := (of_span hmarks).1 t ht
      simp only [isTypeToken, Bool.or_eq_true] at hmark ⊢
      obtain hmark | hword := hmark
      · obtain ⟨text, hmem, htext⟩ := isPunct_of_isPunctOf hmark
        exact .inr (isPunctOf_of_isPunct htext (List.mem_cons_of_mem _ hmem))
      · exact .inl (isIdent_of_isWordOf hword)

theorem typeText_of_looksLikeCast (hc : c.Matched) (hs : Spelled c) {locals : List String}
    {i j : Nat} (h : c.looksLikeCast locals i = true) (hij : c.partner? i = some j) :
    TypeText (c.textBetween (i + 1) j).toList := by
  refine (typeText_joinTokens fun t ht => ⟨isTypeToken_of_looksLikeCast h hij t ht, ?_⟩).1
  obtain ⟨k, -, -, rfl⟩ := mem_slice (Nat.le_of_lt (hc.bound hij)) ht
  exact hs.fits k

end Reading

namespace Exprs

variable {c : Context} {g : Exprs} {pointers : List String}

/-- What a reader of operands brings. If it starts with no parenthesis, its text starts with
none. -/
def ReadsOperand (c : Context) (pointers : List String) (m : ParseM Expr) : Prop :=
  ∀ s, s.interfaces = pointers → Reads c (fun _ => True) m s fun e s' => s'.interfaces = pointers ∧
    e.Formed pointers ∧ ((c.tokenAt s.pos).isPunct "(" = false → e.Leads)

theorem ReadsOperand.keeps {m : ParseM Expr} (h : ReadsOperand c pointers m) :
    Keeps c pointers m (Formed pointers) :=
  fun s hs => (h s hs).imp fun _ _ he => ⟨he.1, he.2.1⟩

structure AllFormed (c : Context) (pointers : List String) (g : Exprs) : Prop where
  expression : Keeps c pointers g.expression (Formed pointers)
  assignment : Keeps c pointers g.assignment (Formed pointers)
  conditional : Keeps c pointers g.conditional (Formed pointers)
  unary : ReadsOperand c pointers g.unary
  primary : ∀ s, s.interfaces = pointers → (c.tokenAt s.pos).isIdent = false →
    Reads c (fun _ => True) g.primary s fun e _ => e.Formed pointers

section Lists

variable {seen : List Expr}

theorem argsFor_formed (hg : g.AllFormed c pointers) (fuel : Nat)
    (hseen : ∀ e ∈ seen, e.Formed pointers) :
    Keeps c pointers (g.argsFor fuel seen) fun es => ∀ e ∈ es, e.Formed pointers := by
  induction fuel generalizing seen with
  | zero => exact keeps_throw
  | succ fuel ih =>
    refine hg.assignment.bind fun e he => (keeps_accept _).bind fun closed _ => ?_
    have hall : ∀ x ∈ e :: seen, x.Formed pointers := List.forall_mem_cons.mpr ⟨he, hseen⟩
    split
    · exact keeps_pure fun x hx => hall x (List.mem_reverse.mp hx)
    · exact (keeps_expect _).bind fun _ _ => ih hall

theorem args_formed (hg : g.AllFormed c pointers) :
    Keeps c pointers g.args fun es => ∀ e ∈ es, e.Formed pointers := by
  refine (keeps_accept _).bind fun closed _ => ?_
  split
  · exact keeps_pure (by simp)
  · exact keeps_read.bind fun _ _ => argsFor_formed hg _ (by simp)

theorem designator_keeps (hs : Spelled c) : Keeps c pointers designator fun _ => True := by
  refine keeps_peek.bind fun t _ => ?_
  split
  · exact keeps_advance.bind fun _ _ => (keeps_expectName hs).bind fun _ _ => keeps_expect _
  · split
    · exact keeps_jump.bind fun _ _ => keeps_expect _
    · exact keeps_pure trivial

theorem itemsFor_formed (hs : Spelled c) (hg : g.AllFormed c pointers) (fuel : Nat)
    (hseen : ∀ e ∈ seen, e.Formed pointers) :
    Keeps c pointers (g.itemsFor fuel seen) fun es => ∀ e ∈ es, e.Formed pointers := by
  induction fuel generalizing seen with
  | zero => exact keeps_throw
  | succ fuel ih =>
    refine keeps_peek.bind fun t _ => ?_
    split
    · exact keeps_pure fun x hx => hseen x (List.mem_reverse.mp hx)
    · refine (designator_keeps hs).bind fun _ _ => hg.assignment.bind
        fun e he => (keeps_accept _).bind fun more _ => ?_
      have hall : ∀ x ∈ e :: seen, x.Formed pointers := List.forall_mem_cons.mpr ⟨he, hseen⟩
      split
      · exact ih hall
      · exact keeps_pure fun x hx => hall x (List.mem_reverse.mp hx)

end Lists

section Operands

theorem nameFor_path (hs : Spelled c) (fuel : Nat) {n : String} (hn : IsPath n) :
    Keeps c pointers (nameFor fuel n) IsPath := by
  induction fuel generalizing n with
  | zero => exact keeps_throw
  | succ fuel ih =>
    refine keeps_peek.bind fun t _ => (keeps_peekAt 1).bind ?_
    rintro _ ⟨i, rfl⟩
    split
    · rename_i hscope
      have hword := hs.fits i
      rw [beq_iff_eq.mp (Bool.and_eq_true_iff.mp hscope).2] at hword
      exact keeps_advance.bind fun _ _ => keeps_advance.bind fun _ _ => ih (isPath_scope hn hword)
    · exact keeps_pure hn

theorem stringsFor_quoted (hs : Spelled c) (fuel : Nat) {text : String}
    (htext : QuotedText '"' text.toList) :
    Keeps c pointers (stringsFor fuel text) fun t => QuotedText '"' t.toList := by
  induction fuel generalizing text with
  | zero => exact keeps_throw
  | succ fuel ih =>
    refine keeps_peek.bind ?_
    rintro _ ⟨i, rfl⟩
    split
    · rename_i hkind
      have hnext := hs.fits i
      rw [beq_iff_eq.mp hkind] at hnext
      exact keeps_advance.bind fun _ _ => ih (quotedText_joinLiterals htext hnext)
    · exact keeps_pure htext

theorem leads_name {n : String} (hn : IsPath n) (p : Pos) : (name n p).Leads := by
  obtain ⟨x, rest, htext, hstart, -⟩ := nameText_of_isPath hn
  refine ⟨x, rest, by rw [tight_of_not_loose rfl, chars, render, htext], ?_⟩
  rintro rfl
  cases hstart

theorem leads_literal {text : String} {kind : LiteralKind}
    (h : LiteralText kind text.toList) (p : Pos) : (literal text kind p).Leads := by
  obtain ⟨x, rest, hhead, hx, -⟩ := Readers.head_literalText h
  refine ⟨x, rest, by rw [tight_of_not_loose rfl, chars, render, hhead], ?_⟩
  rintro rfl
  cases hx

theorem primaryStep_formed (hs : Spelled c) (hg : g.AllFormed c pointers) {s : State}
    (hpointers : s.interfaces = pointers)
    (hword : (c.tokenAt s.pos).isIdent = true → ∀ op ∈ wordOps, op.text ≠ (c.tokenAt s.pos).text) :
    Reads c (fun _ => True) g.primaryStep s fun e s' => s'.interfaces = pointers ∧
    e.Formed pointers ∧ ((c.tokenAt s.pos).isPunct "(" = false → e.Leads) := by
  have hfits := hs.fits s.pos
  have hliteral : ∀ (kind : LiteralKind) {text : String} {p : Pos}, LiteralText kind text.toList →
      (literal text kind p).Formed pointers ∧
      ((c.tokenAt s.pos).isPunct "(" = false → (literal text kind p).Leads) :=
    fun kind _ p htext => ⟨formed_leaf htext trivial rfl, fun _ => leads_literal htext p⟩
  simp only [primaryStep, reads_bind, reads_peek, reads_read]
  refine (?_ : Keeps c pointers _ _) s hpointers
  cases hk : (c.tokenAt s.pos).kind with
  | ident =>
    rw [hk] at hfits
    have hpath : IsPath (c.tokenAt s.pos).text := by
      refine ⟨_, [], rfl, fun x hx => ?_, hword (by rw [Token.isIdent, hk]; rfl)⟩
      rw [List.mem_singleton.mp hx]
      exact hfits
    exact keeps_advance.bind fun _ _ => (nameFor_path hs _ hpath).bind fun n hn =>
      keeps_pure ⟨formed_leaf (nameText_of_isPath hn) hn rfl, fun _ => leads_name hn _⟩
  | number =>
    rw [hk] at hfits
    exact keeps_advance.bind fun _ _ => keeps_pure (hliteral .number hfits)
  | char =>
    rw [hk] at hfits
    exact keeps_advance.bind fun _ _ => keeps_pure (hliteral .char hfits)
  | string =>
    rw [hk] at hfits
    exact keeps_advance.bind fun _ _ => (stringsFor_quoted hs _ hfits).bind fun text htext =>
      keeps_pure (hliteral .string htext)
  | punct | eof =>
    dsimp only
    split
    · rename_i hopen
      refine keeps_advance.bind fun _ _ => hg.expression.bind fun e he => (keeps_expect _).bind
        fun _ _ => ?_
      exact keeps_pure ⟨he, fun h => by rw [hopen] at h; cases h⟩
    · split
      · refine keeps_advance.bind fun _ _ => (itemsFor_formed hs hg _ (by simp)).bind
          fun es hes => ?_
        refine (keeps_expect _).bind fun _ _ => keeps_pure
          ⟨formed_node trivial trivial hes, fun _ => ?_⟩
        exact ⟨'\x7b', _, by rw [tight_of_not_loose rfl, chars_initList], by decide⟩
      · split
        · refine keeps_advance.bind fun _ _ => keeps_pure
            ⟨formed_leaf trivial trivial rfl, fun _ => ?_⟩
          exact ⟨'.', ['.', '.'], by rw [tight_of_not_loose rfl, chars, render]; rfl, by decide⟩
        · exact keeps_failAt

theorem isSound_makeCall (interfaces : List String) (f : Expr) (args : List Expr) :
    (makeCall interfaces f args).IsSound := by
  intro hvia
  split at hvia
  · -- through a function table, with the pointer as the first argument
    rename_i r htable
    unfold tablePointer? at htable
    split at htable
    · split at htable
      · rename_i obj n q r' q' side q'' hobj
        cases htable
        have hname : (name r q').name? = some r := rfl
        simp [spelled?, hobj, hname, beq_iff_eq.mp hvia]
      · cases htable
    · cases htable
  · rename_i obj n q htable
    rw [namedObject?_member] at hvia
    cases hobj : obj.strip with
    | name r q' => simp [spelled?, hobj]
    | _ => simp [hobj, name?] at hvia
  · cases hvia

theorem formed_makeCall {f : Expr} {args : List Expr} (hf : f.Formed pointers)
    (hargs : ∀ a ∈ args, a.Formed pointers) : (makeCall pointers f args).Formed pointers := by
  have hsound := isSound_makeCall pointers f args
  rw [makeCall_eq] at hsound ⊢
  exact formed_node hsound rfl (List.forall_mem_cons.mpr ⟨hf, hargs⟩)

theorem suffixesFor_formed (hs : Spelled c) (hg : g.AllFormed c pointers) (fuel : Nat) {e : Expr}
    (he : e.Formed pointers) :
    Keeps c pointers (g.suffixesFor fuel e) fun e' => e'.Formed pointers ∧
    (e.Leads → e'.Leads) := by
  induction fuel generalizing e with
  | zero => exact keeps_throw
  | succ fuel ih =>
    -- behind each suffix the loop goes on
    have again : ∀ {e' : Expr}, e'.Formed pointers → (e.Leads → e'.Leads) →
        Keeps c pointers (g.suffixesFor fuel e') fun x => x.Formed pointers ∧ (e.Leads → x.Leads) :=
        fun h hleads =>
      (ih h).imp fun x hx => ⟨hx.1, fun h => hx.2 (hleads h)⟩
    refine keeps_peek.bind fun t _ => ?_
    split
    · refine keeps_advance.bind fun _ _ => (args_formed hg).bind fun args hargs => keeps_get.bind ?_
      rintro _ rfl
      have hcall := formed_makeCall he hargs
      exact again hcall (leads_call hcall.1)
    · split
      · refine keeps_advance.bind fun _ _ => hg.expression.bind fun i hi => (keeps_expect _).bind
          fun _ _ => ?_
        exact again (formed_node trivial trivial (by simpa [children] using ⟨he, hi⟩)) fun h =>
          h.of_append rfl (chars_index e i e.pos)
      · split
        · refine keeps_advance.bind fun _ _ => (keeps_expectName hs).bind fun attr hattr => ?_
          exact again (formed_node hattr trivial (by simpa [children] using he)) fun h =>
            h.of_append rfl (chars_member e _ _ e.pos)
        · have step : ∀ op : UnOp, op = .incr ∨ op = .decr → Keeps c pointers
              (g.suffixesFor fuel (Expr.unary op e .behind e.pos)) fun x => x.Formed pointers ∧
                (e.Leads → x.Leads) :=
            fun op hop => again (formed_node hop trivial (by simpa [children] using he)) fun h =>
              h.of_append rfl (chars_behind op e e.pos)
          split
          · exact keeps_advance.bind fun _ _ => step .incr (.inl rfl)
          · split
            · exact keeps_advance.bind fun _ _ => step .decr (.inr rfl)
            · exact keeps_pure ⟨he, id⟩

theorem sizeStep_formed (hc : c.Matched) (hs : Spelled c) (hg : g.AllFormed c pointers) {op : UnOp}
    (hop : op ∈ UnOp.sizes) {t : Token} (ht : op.text = t.text) :
    Keeps c pointers (g.sizeStep op t) fun e => e.Formed pointers ∧ e.Leads := by
  refine keeps_advance.bind fun _ _ s₁ hs₁ => ?_
  simp only [reads_bind, reads_peek, reads_read, reads_get, reads_ite, reads_pure, reads_moveTo]
  split
  · rename_i hopen
    have ho := isPunctOf_of_isPunct (l := ["(", "[", "\x7b"]) hopen (by decide)
    obtain ⟨j, hj, hlt⟩ := hc.opener (by rw [Brackets.isSome_closer?, ho])
    rw [reads_partner hj]
    have htext : (t.text ++ "(" ++ c.textBetween (s₁.pos + 1) j ++ ")").toList =
        op.text.toList ++ '(' :: ((c.textBetween (s₁.pos + 1) j).toList ++ [')']) := by
      simp [ht]
    refine ⟨hs₁, formed_leaf ⟨op, hop, _, htext, fun r => ?_⟩ trivial rfl, ?_⟩
    · rw [List.append_assoc]
      exact skim_textBetween hc hs hj hlt r
    · obtain ⟨x, rest, hx, hparen⟩ := head_unOp op
      rw [Leads, tight_of_not_loose rfl, chars, render, htext, hx]
      exact ⟨x, _, rfl, hparen⟩
  · rename_i hopen
    refine (hg.unary s₁ hs₁).imp fun e s₂ he => ⟨he.1, ?_, leads_before op e _⟩
    refine formed_node (fun _ => ?_) trivial (by simpa [children] using he.2.1)
    obtain ⟨x, rest, htight, hx⟩ := he.2.2 (by simpa using hopen)
    simpa [htight] using hx

theorem castStep_formed (hc : c.Matched) (hs : Spelled c) (hg : g.AllFormed c pointers) (t : Token)
    {s : State} (hpointers : s.interfaces = pointers) (hopen : (c.tokenAt s.pos).isPunct "(" = true)
    (hcast : c.looksLikeCast s.locals s.pos = true) :
    Reads c (fun _ => True) (g.castStep t) s fun e s' => s'.interfaces = pointers ∧
    e.Formed pointers := by
  simp only [castStep, reads_bind, reads_read, reads_get, reads_pure, reads_moveTo]
  have ho := isPunctOf_of_isPunct (l := ["(", "[", "\x7b"]) hopen (by decide)
  obtain ⟨j, hj, -⟩ := hc.opener (by rw [Brackets.isSome_closer?, ho])
  rw [reads_partner hj]
  exact (hg.unary.keeps ⟨j + 1, s.locals, s.interfaces⟩ hpointers).imp fun e s₁ he =>
    ⟨he.1, formed_node (typeText_of_looksLikeCast hc hs hcast hj) trivial
      (by simpa [children] using he.2)⟩

theorem before_formed (hg : g.AllFormed c pointers) {op : UnOp} (hop : op ∉ UnOp.sizes) (p : Pos)
    {P : Prop} :
    Keeps c pointers (do pure (Expr.unary op (← g.unary) .before p)) fun e => e.Formed pointers ∧
    (P → e.Leads) :=
  hg.unary.keeps.bind fun e he => keeps_pure
    ⟨formed_node (fun h => absurd h hop) trivial (by simpa [children] using he),
      fun _ => leads_before op e p⟩

theorem text_ne_wordOp {t : Token}
    (hsize : (if t.isIdent then UnOp.ofSize? t.text else none) = none)
    (hnew : ¬t.isWord "new" = true) (hdelete : ¬t.isWord "delete" = true)
    (hident : t.isIdent = true) : ∀ op ∈ wordOps, op.text ≠ t.text := by
  intro op hop htext
  have hkind : t.kind = .ident := by simpa [Token.isIdent] using hident
  rw [wordOps] at hop
  obtain rfl | hop := List.mem_cons.mp hop
  · exact hdelete (by simp [Token.isWord, hkind, ← htext, UnOp.text])
  · obtain rfl | hop := List.mem_cons.mp hop
    · exact hnew (by simp [Token.isWord, hkind, ← htext, UnOp.text])
    · rw [if_pos hident] at hsize
      exact absurd htext (by simpa using List.find?_eq_none.mp hsize op hop)

theorem unaryStep_formed (hc : c.Matched) (hs : Spelled c) (hg : g.AllFormed c pointers) :
    ReadsOperand c pointers g.unaryStep := by
  intro s hpointers
  simp only [unaryStep, reads_bind, reads_peek, reads_read, reads_get]
  split
  · rename_i op hop
    have hsign : op ∉ UnOp.sizes := by
      split at hop
      · have hall : ∀ op ∈ UnOp.signs, op ∉ UnOp.sizes := by decide
        exact hall op (List.mem_of_find?_eq_some hop)
      · cases hop
    exact keeps_advance.bind (fun _ _ => before_formed hg hsign _) s hpointers
  · rename_i op _ hop
    split at hop
    · exact (sizeStep_formed hc hs hg (List.mem_of_find?_eq_some hop)
        (by simpa using List.find?_some hop)).imp (fun e he => ⟨he.1, fun _ => he.2⟩) s hpointers
    · cases hop
  · rename_i hsize
    rw [reads_ite]
    split
    · exact keeps_advance.bind (fun _ _ => before_formed hg (by decide) _) s hpointers
    · rename_i hnew
      rw [reads_ite]
      split
      · refine keeps_advance.bind (fun _ _ => (keeps_accept _).bind fun many _ => ?_) s hpointers
        split
        · exact (keeps_expect _).bind fun _ _ => before_formed hg (by decide) _
        · exact before_formed hg (by decide) _
      · rename_i hdelete
        rw [reads_ite]
        split
        · rename_i hcast
          obtain ⟨hopen, hlooks⟩ := Bool.and_eq_true_iff.mp hcast
          exact (castStep_formed hc hs hg _ hpointers hopen hlooks).imp fun e s₁ he =>
            ⟨he.1, he.2, fun h => by rw [hopen] at h; cases h⟩
        · rw [reads_bind]
          refine (primaryStep_formed hs hg hpointers (text_ne_wordOp hsize hnew hdelete)).imp
            fun e s₁ he => ?_
          exact (suffixesFor_formed hs hg _ he.2.1 s₁ he.1).imp fun e' s₂ he' =>
            ⟨he'.1, he'.2.1, fun h => he'.2.2 (he.2.2 h)⟩

end Operands

section Operations

theorem binaryFor_formed {tighter : Nat → ParseM Expr}
    (ht : ∀ n, Keeps c pointers (tighter n) (Formed pointers)) (least fuel : Nat) {left : Expr}
    (hleft : left.Formed pointers) :
    Keeps c pointers (binaryFor tighter least fuel left) (Formed pointers) := by
  induction fuel generalizing left with
  | zero => exact keeps_throw
  | succ fuel ih =>
    refine keeps_peek.bind fun t _ => ?_
    split
    · split
      · refine keeps_advance.bind fun _ _ => (ht _).bind fun right hright => ih ?_
        exact formed_node trivial trivial (by simpa [children] using ⟨hleft, hright⟩)
      · exact keeps_pure hleft
    · exact keeps_pure hleft

variable (hc : c.Matched) (hs : Spelled c) (hg : g.AllFormed c pointers)
include hc hs hg

theorem binary_formed (levels least : Nat) :
    Keeps c pointers (g.binary levels least) (Formed pointers) := by
  have hunary := (unaryStep_formed hc hs hg).keeps
  induction levels generalizing least with
  | zero => exact hunary
  | succ levels ih =>
    exact hunary.bind fun e he => keeps_read.bind fun _ _ => binaryFor_formed ih _ _ he

theorem conditionalStep_formed : Keeps c pointers g.conditionalStep (Formed pointers) := by
  refine (binary_formed hc hs hg _ _).bind fun cond hcond => (keeps_accept _).bind fun asked _ => ?_
  split
  · refine hg.expression.bind fun yes hyes => (keeps_expect _).bind fun _ _ => hg.assignment.bind
      fun no hno => ?_
    exact keeps_pure (formed_node trivial trivial (by simpa [children] using ⟨hcond, hyes, hno⟩))
  · exact keeps_pure hcond

theorem assignmentStep_formed : Keeps c pointers g.assignmentStep (Formed pointers) := by
  refine (conditionalStep_formed hc hs hg).bind fun left hleft => keeps_peek.bind fun t _ => ?_
  split
  · refine keeps_advance.bind fun _ _ => hg.assignment.bind fun value hvalue => ?_
    exact keeps_pure (formed_node trivial trivial (by simpa [children] using ⟨hleft, hvalue⟩))
  · exact keeps_pure hleft

theorem commasFor_formed (fuel : Nat) {e : Expr} (he : e.Formed pointers) :
    Keeps c pointers (g.commasFor fuel e) (Formed pointers) := by
  induction fuel generalizing e with
  | zero => exact keeps_throw
  | succ fuel ih =>
    refine keeps_peek.bind fun t _ => (keeps_accept _).bind fun comma _ => ?_
    split
    · refine (assignmentStep_formed hc hs hg).bind fun right hright => ih ?_
      exact formed_node trivial trivial (by simpa [children] using ⟨he, hright⟩)
    · exact keeps_pure he

theorem expressionStep_formed : Keeps c pointers g.expressionStep (Formed pointers) :=
  (assignmentStep_formed hc hs hg).bind fun _ he => keeps_read.bind
    fun _ _ => commasFor_formed hc hs hg _ he

theorem AllFormed.deeper : g.deeper.AllFormed c pointers where
  expression := expressionStep_formed hc hs hg
  assignment := assignmentStep_formed hc hs hg
  conditional := conditionalStep_formed hc hs hg
  unary := unaryStep_formed hc hs hg
  primary _ hpointers hident :=
    (primaryStep_formed hs hg hpointers (by simp [hident])).imp fun _ _ he => he.2.1

end Operations

theorem within_formed (hc : c.Matched) (hs : Spelled c) (levels : Nat) :
    (within levels).AllFormed c pointers := by
  induction levels with
  | zero => exact ⟨keeps_throw, keeps_throw, keeps_throw, fun _ _ => trivial, fun _ _ _ => trivial⟩
  | succ levels ih => exact ih.deeper hc hs

end Exprs

end Parse

/-- The expression is read from some source text, from any place in it and with any names known. -/
inductive Expr.IsRead (e : Expr) : Prop where
  | reader {source : String} {types : List String} {c : Parse.Context} {levels : Nat}
      {m : ParseM Expr} {s s' : Parse.State} (hc : Parse.contextOf source types = .ok c)
      (hm : m ∈ [(Parse.Exprs.within levels).expression, (Parse.Exprs.within levels).assignment,
        (Parse.Exprs.within levels).conditional, (Parse.Exprs.within levels).unary])
      (h : (m.run c).run s = .ok (e, s'))
  | braces {source : String} {types : List String} {c : Parse.Context} {levels : Nat}
      {s s' : Parse.State} (hc : Parse.contextOf source types = .ok c)
      (hopen : (c.tokenAt s.pos).isPunct "\x7b" = true)
      (h : ((Parse.Exprs.within levels).primary.run c).run s = .ok (e, s'))

theorem Expr.IsRead.sound {e : Expr} (h : e.IsRead) : e.Sound := by
  have all : ∀ {source types c}, Parse.contextOf source types = .ok c → ∀ levels pointers,
      (Parse.Exprs.within levels).AllFormed c pointers := fun hc levels _ =>
    Parse.Exprs.within_formed (Parse.matched_of_contextOf hc) (spelled_of_contextOf hc) levels
  cases h with
  | @reader source types c levels m s s' hc hm h =>
    have hall := all hc levels s.interfaces
    simp only [List.mem_cons, List.not_mem_nil, or_false] at hm
    obtain rfl | rfl | rfl | rfl := hm
    · exact ((hall.expression s rfl).of_ok h).2.1
    · exact ((hall.assignment s rfl).of_ok h).2.1
    · exact ((hall.conditional s rfl).of_ok h).2.1
    · exact ((hall.unary s rfl).of_ok h).2.1.1
  | @braces source types c levels s s' hc hopen h =>
    have hident : (c.tokenAt s.pos).isIdent = false := by
      simp only [Token.isPunct, Bool.and_eq_true, beq_iff_eq] at hopen
      simp [Token.isIdent, hopen.1]
    exact (((all hc levels s.interfaces).primary s rfl hident).of_ok h).1

theorem Parse.reads_run {α : Type} {c : Parse.Context} {m : ParseM α} {s : Parse.State} :
    Parse.Reads c (fun _ => True) m s fun a s' => (m.run c).run s = .ok (a, s') := by
  unfold Parse.Reads
  split
  · assumption
  · trivial

/-- A text that is one expression. -/
theorem Expr.isRead_of_parse {text : String} {interfaces : List String} {e : Expr}
    (h : Expr.parse text interfaces = .ok e) : e.IsRead := by
  unfold Expr.parse Parse.expressionWithin at h
  cases ht : tokenize text with
  | error f =>
    rw [ht] at h
    cases h
  | ok tokens =>
    cases hc : Parse.Context.ofTokens tokens Parse.defaultInterfaceTypes with
    | error f =>
      simp only [ht, Except.mapError, bind, Except.bind, hc] at h
      cases h
    | ok c =>
      have hcontext : Parse.contextOf text Parse.defaultInterfaceTypes = .ok c := by
        rw [Parse.contextOf, ht]
        exact hc
      have hwhole :
          ∀ s, Parse.Reads c (fun _ => True) (Parse.wholeExpression
            (Parse.Exprs.within Parse.nestingLimit)) s fun a _ => a.IsRead := by
        intro s
        simp only [Parse.wholeExpression, Parse.reads_bind, Parse.reads_accept, Parse.reads_peek,
          Parse.reads_ite, Parse.reads_pure, Parse.reads_failAt]
        refine Parse.reads_run.imp fun a s₁ ha => ?_
        have hread : a.IsRead := .reader hcontext List.mem_cons_self ha
        split <;> split <;> trivial
      simp only [ht, Except.mapError, bind, Except.bind, hc] at h
      split at h
      · cases h
      · rename_i last hrun
        cases h
        exact (hwhole _).of_ok hrun

end JniContracts
