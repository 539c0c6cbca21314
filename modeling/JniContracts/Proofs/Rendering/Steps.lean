import JniContracts.Proofs.Rendering.Reader

/-!
What the readers make of each form of text. A step is told by what the readers for one level less do
with the parts.
-/

namespace JniContracts.Rendering

open Lexer Expr

variable {t : List Char}

def NameText (t : List Char) : Prop :=
  ∃ c rest, t = c :: rest ∧ isNameStart c = true ∧ (∀ d ∈ rest, isQualifiedChar d = true) ∧
    ∀ op ∈ wordOps, op.text.toList ≠ t

def LiteralText : LiteralKind → List Char → Prop
  | .number, t => NumberText t
  | .string, t => QuotedText '"' t
  | .char, t => CharText t

/-- An operator with text in parentheses, which is passed over as a whole. -/
def SizeText (t : List Char) : Prop :=
  ∃ op ∈ UnOp.sizes, ∃ inner, t = op.text.toList ++ '(' :: inner ∧ ∀ r, skim .plain 0 (inner ++ r) =
      some (inner, r)

def Breaks (r : List Char) : Prop := ∀ c ∈ r.head?, isQualifiedChar c = false ∧ c ≠ '\'' ∧ c ≠ '"'

section Forms

theorem isQualifiedChar_of_isNameChar {c : Char} (h : isNameChar c = true) :
    isQualifiedChar c = true := by
  rw [isQualifiedChar, h, Bool.true_or]

theorem Breaks.stops {r : List Char} (h : Breaks r) (hdot : r.head? ≠ some '.') : Stops r := by
  intro c hc
  obtain ⟨hname, htick, -⟩ := h c hc
  rw [isQualifiedChar, Bool.or_eq_false_iff] at hname
  refine ⟨hname.1, ?_, htick⟩
  rintro rfl
  exact hdot hc

theorem opening_eq_none {quote : Char} {cs : List Char}
    (h : ∀ c ∈ cs.head?, c ≠ quote ∧ c ∉ ['u', 'L', 'U']) : opening quote cs = none := by
  cases hopen : opening quote cs with
  | none => rfl
  | some cut =>
    obtain ⟨rfl, mark, hmark, hfirst⟩ :=
      opening_cases (show opening quote cs = some (cut.1, cut.2) from hopen)
    rw [hfirst] at h
    simp only [List.mem_cons, List.not_mem_nil, or_false] at hmark
    obtain rfl | rfl | rfl | rfl | rfl := hmark <;> simp at h

/-- Nor is a word that no quote follows. -/
theorem opening_word {quote : Char} (hquote : quote = '"' ∨ quote = '\'') {w r : List Char}
    (hw : ∀ c ∈ w, isQualifiedChar c = true) (hr : Breaks r) : opening quote (w ++ r) = none := by
  cases hopen : opening quote (w ++ r) with
  | none => rfl
  | some cut =>
    have hqualified : isQualifiedChar quote = false := by obtain rfl | rfl := hquote <;> rfl
    obtain ⟨hsplit, mark, hmark, hfirst⟩ :=
      opening_cases (show opening quote (w ++ r) = some (cut.1, cut.2) from hopen)
    rw [hfirst, List.append_assoc] at hsplit
    have hmarks : ∀ c ∈ mark, isQualifiedChar c = true := by
      simp only [List.mem_cons, List.not_mem_nil, or_false] at hmark
      obtain rfl | rfl | rfl | rfl | rfl := hmark <;> exact List.all_eq_true.mp rfl
    have hstart : ∀ {c tail}, r = c :: tail → isQualifiedChar c = true ∨ c = quote → False := by
      rintro c tail rfl hc
      obtain ⟨hnot, htick, hdouble⟩ := hr c rfl
      obtain hc | rfl := hc
      · rw [hc] at hnot
        cases hnot
      · obtain rfl | rfl := hquote
        · exact hdouble rfl
        · exact htick rfl
    obtain ⟨a, ha, hrest⟩ | ⟨a, ha, hrest⟩ := List.append_eq_append_iff.mp hsplit
    · cases a with
      | nil => exact (hstart (by simpa using hrest) (.inr rfl)).elim
      | cons c a => exact (hstart (by simpa using hrest) (.inl (hmarks c (by simp [ha])))).elim
    · cases a with
      | nil => exact (hstart (by simpa using hrest.symm) (.inr rfl)).elim
      | cons c a =>
        obtain rfl : quote = c := by simpa using (List.cons.inj hrest).1
        rw [hw quote (by simp [ha])] at hqualified
        cases hqualified

theorem number_word {c : Char} {s : List Char} (hc : isNameStart c = true) :
    number (c :: s) = none := by
  cases hnumber : number (c :: s) with
  | none => rfl
  | some cut =>
    obtain ⟨d, rest, htext, hd⟩ := (numberText_of_number hnumber).head
    have hparts : cut.1 ++ cut.2 = c :: s := (parts_number hnumber).2
    rw [htext] at hparts
    obtain rfl : d = c := (List.cons.inj hparts).1
    obtain hd | ⟨rfl, -⟩ := hd
    · rw [not_isDigit_of_isNameStart hc] at hd
      cases hd
    · cases hc

theorem literal?_append {kind : LiteralKind} {r : List Char} (ht : LiteralText kind t)
    (hr : Breaks r) (hdot : kind = .number → r.head? ≠ some '.') :
    literal? (t ++ r) = some (.literal (String.ofList t) kind .origin, r) := by
  cases kind with
  | string =>
    obtain ⟨mark, hmark, body, rfl, hbody⟩ := ht
    have happend := literalBody_append (.inl rfl) hbody r
    rw [literal?, List.append_assoc, List.cons_append, opening_append hmark (.inl rfl)]
    simp [happend]
  | char =>
    have hnone : opening '"' (t ++ r) = none := by
      obtain ⟨mark, hmark, body, rfl, -⟩ := ht
      simp only [marks, List.mem_cons, List.not_mem_nil, or_false] at hmark
      rw [List.append_assoc, List.cons_append]
      generalize body ++ r = rest
      obtain rfl | rfl | rfl | rfl | rfl := hmark <;> cases rest <;> simp [opening]
    rw [literal?, hnone]
    simp [charLiteral_append ht r]
  | number =>
    obtain ⟨c, rest, rfl, hc⟩ := ht.head
    have hhead : ∀ d ∈ (c :: rest ++ r).head?, d ≠ '"' ∧ d ≠ '\'' ∧ d ∉ ['u', 'L', 'U'] := by
      intro d hd
      obtain rfl : c = d := by simpa using hd
      obtain hc | ⟨rfl, -⟩ := hc
      · refine ⟨?_, ?_, fun hmem => ?_⟩
        · rintro rfl
          cases hc
        · rintro rfl
          cases hc
        · simp only [List.mem_cons, List.not_mem_nil, or_false] at hmem
          obtain rfl | rfl | rfl := hmem <;> cases hc
      · decide
    have hstring : opening '"' (c :: rest ++ r) = none :=
      opening_eq_none fun d hd => ⟨(hhead d hd).1, (hhead d hd).2.2⟩
    have hchar : charLiteral (c :: rest ++ r) = none := by
      rw [charLiteral, opening_eq_none fun d hd => ⟨(hhead d hd).2.1, (hhead d hd).2.2⟩]
      rfl
    rw [literal?, hstring]
    simp only [hchar, number_append ht (hr.stops (hdot rfl)), Option.map_some]

end Forms

namespace Readers

variable {g : Readers} {c : Char} {s r : List Char} {e : Expr}

section Tight

theorem sign?_eq_none (h : c ∉ ['+', '-', '&', '*', '!', '~']) : sign? (c :: s) = none := by
  unfold sign?
  split <;> simp_all

def startsAtom (c : Char) : Bool := !(['(', '\x7b', '+', '-', '&', '*', '!', '~'].contains c)

theorem tightStep_literal? (hc : startsAtom c = true)
    (hdots : dropStart? ['.', '.', '.'] (c :: s) = none) (h : literal? (c :: s) = some (e, r)) :
    g.tightStep (c :: s) = g.suffixes e r := by
  simp only [startsAtom, List.contains_eq_mem, Bool.not_eq_true', decide_eq_false_iff_not,
    List.mem_cons, not_or] at hc
  have hsign : sign? (c :: s) = none := sign?_eq_none (by simp [hc])
  simp [tightStep, hc, hsign, hdots, h]

theorem tightStep_word (hc : startsAtom c = true) (hdot : c ≠ '.') (h : literal? (c :: s) = none) :
    g.tightStep (c :: s) = g.wordStep (c :: s) := by
  simp only [startsAtom, List.contains_eq_mem, Bool.not_eq_true', decide_eq_false_iff_not,
    List.mem_cons, not_or] at hc
  have hsign : sign? (c :: s) = none := sign?_eq_none (by simp [hc])
  have hdots : dropStart? ['.', '.', '.'] (c :: s) = none := by simp [dropStart?, Ne.symm hdot]
  simp [tightStep, hc, hsign, hdots, h]

theorem startsAtom_of_isNameChar (h : isNameChar c = true) : startsAtom c = true := by
  simp only [startsAtom, List.contains_eq_mem, Bool.not_eq_true', decide_eq_false_iff_not]
  intro hmem
  simp only [List.mem_cons, List.not_mem_nil, or_false] at hmem
  obtain rfl | rfl | rfl | rfl | rfl | rfl | rfl | rfl := hmem <;> cases h

theorem head_literalText {kind : LiteralKind} (h : LiteralText kind t) :
    ∃ c rest, t = c :: rest ∧ startsAtom c = true ∧
    ∀ s, dropStart? ['.', '.', '.'] (t ++ s) = none := by
  have quoted :
      ∀ {quote mark body}, quote ∈ ['"', '\''] → mark ∈ marks →
      ∃ c rest, mark ++ quote :: body = c :: rest ∧ startsAtom c = true ∧
      ∀ s, dropStart? ['.', '.', '.'] (mark ++ quote :: body ++ s) = none := by
    intro quote mark body hquote hmark
    simp only [marks, List.mem_cons, List.not_mem_nil, or_false] at hmark hquote
    obtain rfl | rfl := hquote <;> obtain rfl | rfl | rfl | rfl | rfl := hmark <;>
      exact ⟨_, _, rfl, rfl, fun s => rfl⟩
  cases kind with
  | string =>
    obtain ⟨mark, hmark, body, rfl, -⟩ := h
    exact quoted (by simp) hmark
  | char =>
    obtain ⟨mark, hmark, body, rfl, -⟩ := h
    exact quoted (by simp) hmark
  | number =>
    obtain ⟨c, rest, rfl, hc | ⟨rfl, d, tail, rfl, hd⟩⟩ := NumberText.head h
    · refine ⟨c, rest, rfl, startsAtom_of_isNameChar (isNameChar_of_isDigit hc), fun s => ?_⟩
      have hdot : '.' ≠ c := by
        rintro rfl
        cases hc
      simp [dropStart?, hdot]
    · have hdot : '.' ≠ d := by
        rintro rfl
        cases hd
      exact ⟨'.', d :: tail, rfl, rfl, fun s => by simp [dropStart?, hdot]⟩

theorem tightStep_literal {kind : LiteralKind} {t : List Char} (ht : LiteralText kind t)
    (hr : Breaks r) (hdot : kind = .number → r.head? ≠ some '.') :
    g.tightStep (t ++ r) = g.suffixes (.literal (String.ofList t) kind .origin) r := by
  obtain ⟨c, rest, rfl, hc, hdots⟩ := head_literalText ht
  exact tightStep_literal? hc (hdots r) (literal?_append ht hr hdot)

theorem span_word {w : List Char} (hne : w ≠ []) (hw : ∀ c ∈ w, isQualifiedChar c = true)
    (hr : ∀ c ∈ r.head?, isQualifiedChar c = false) :
    (w ++ r).span isQualifiedChar = (w, r) ∧ w.isEmpty = false :=
  ⟨span_append hw hr, by simpa using hne⟩

theorem tightStep_name (ht : NameText t) (hr : Breaks r) :
    g.tightStep (t ++ r) = g.suffixes (.name (String.ofList t) .origin) r := by
  obtain ⟨c, rest, rfl, hc, hrest, hops⟩ := ht
  have hname := isNameChar_of_isNameStart hc
  have hw : ∀ d ∈ c :: rest, isQualifiedChar d = true := by
    intro d hd
    obtain rfl | hd := List.mem_cons.mp hd
    · exact isQualifiedChar_of_isNameChar hname
    · exact hrest d hd
  have hliteral : literal? (c :: (rest ++ r)) = none := by
    have hchar : charLiteral (c :: rest ++ r) = none := by
      rw [charLiteral, opening_word (.inr rfl) hw hr]
      rfl
    have hstring := opening_word (.inl rfl) hw hr
    rw [List.cons_append] at hchar hstring
    rw [literal?, hstring]
    simp [hchar, number_word hc]
  have hdot : c ≠ '.' := by
    rintro rfl
    cases hname
  obtain ⟨hspan, hempty⟩ := span_word (by simp) hw fun c hc => (hr c hc).1
  have hop : wordOps.find? (fun op => op.text.toList == c :: rest) = none := by
    rw [List.find?_eq_none]
    intro op hop
    simpa using hops op hop
  rw [List.cons_append, tightStep_word (startsAtom_of_isNameChar hname) hdot hliteral,
    ← List.cons_append, wordStep, hspan]
  simp only [hempty, hop]
  rfl

theorem wordOps_spec :
    ∀ op ∈ wordOps, op.text.toList.all isQualifiedChar = true ∧
    (op.text.toList.head?.any fun c => isNameStart c && !(['u', 'L', 'U', '"', '\''].contains c)) =
      true ∧ wordOps.find? (fun x => x.text.toList == op.text.toList) = some op := by decide

theorem tightStep_wordOp {op : UnOp} (hop : op ∈ wordOps)
    (hr : ∀ c ∈ r.head?, isQualifiedChar c = false) :
    g.tightStep (op.text.toList ++ r) = g.wordOperand op r := by
  obtain ⟨hchars, hhead, hfind⟩ := wordOps_spec op hop
  obtain ⟨hspan, hempty⟩ := span_word (w := op.text.toList)
    (fun hnil => by rw [hnil] at hhead; cases hhead) (List.all_eq_true.mp hchars) hr
  have hstep : g.tightStep (op.text.toList ++ r) = g.wordStep (op.text.toList ++ r) := by
    cases htext : op.text.toList with
    | nil => rw [htext] at hempty; cases hempty
    | cons c rest =>
      rw [htext] at hhead
      obtain ⟨hstart, hmarks⟩ : isNameStart c = true ∧ c ∉ ['u', 'L', 'U', '"', '\''] := by
        simpa using hhead
      have hopening : ∀ quote ∈ ['"', '\''], opening quote (c :: (rest ++ r)) = none := by
        intro quote hquote
        refine opening_eq_none fun d hd => ?_
        obtain rfl : c = d := by simpa using hd
        constructor
        · rintro rfl
          exact hmarks (by simp only [List.mem_cons] at hquote ⊢; tauto)
        · exact fun hmem => hmarks (by simp only [List.mem_cons] at hmem ⊢; tauto)
      have hliteral : literal? (c :: (rest ++ r)) = none := by
        rw [literal?, hopening '"' (by simp)]
        simp [charLiteral, hopening '\'' (by simp), number_word hstart]
      have hname := isNameChar_of_isNameStart hstart
      have hdot : c ≠ '.' := by
        rintro rfl
        cases hname
      exact tightStep_word (startsAtom_of_isNameChar hname) hdot hliteral
  rw [hstep, wordStep, hspan]
  simp only [hempty, hfind]
  rfl

theorem tightStep_keyword {op : UnOp} (hop : op ∈ wordOps)
    (hs : ∀ c ∈ (op.gap.toList ++ s).head?, isQualifiedChar c = false ∧ c ≠ '(')
    (h : g.tight s = some (e, r)) :
    g.tightStep (op.text.toList ++ (op.gap.toList ++ s)) =
    some (.unary op e .before .origin, r) := by
  have hdrop : (op.gap.toList ++ s).drop op.gap.length = s := by
    rw [← String.length_toList]
    exact List.drop_left
  rw [tightStep_wordOp hop fun c hc => (hs c hc).1, wordOperand, hdrop, h]
  · rfl
  · intro tail htail
    exact (hs '(' (by rw [htail]; rfl)).2 rfl

theorem tightStep_verbatim (ht : SizeText t) :
    g.tightStep (t ++ r) = g.suffixes (.verbatim (String.ofList t) .origin) r := by
  obtain ⟨op, hop, inner, rfl, hskim⟩ := ht
  have hword : op ∈ wordOps := List.mem_cons_of_mem _ (List.mem_cons_of_mem _ hop)
  rw [List.append_assoc, List.cons_append, tightStep_wordOp hword (by simp; rfl),
    wordOperand, hskim]

theorem signs_spec :
    ∀ op ∈ UnOp.signs, (op.text.toList.head?.any fun c => c != '(' && c != '\x7b') = true :=
  by decide

theorem sign?_append {op : UnOp} (hop : op ∈ UnOp.signs) (hplus : op = .plus → s.head? ≠ some '+')
    (hneg : op = .neg → s.head? ≠ some '-') : sign? (op.text.toList ++ s) = some (op, s) := by
  simp only [UnOp.signs, List.mem_cons, List.not_mem_nil, or_false] at hop
  obtain rfl | rfl | rfl | rfl | rfl | rfl | rfl | rfl := hop
  · rfl
  · rfl
  · rfl
  · rfl
  · have hplus := hplus rfl
    show sign? ('+' :: s) = some (.plus, s)
    unfold sign?
    split <;> simp_all
  · have hneg := hneg rfl
    show sign? ('-' :: s) = some (.neg, s)
    unfold sign?
    split <;> simp_all
  · rfl
  · rfl

theorem tightStep_sign {op : UnOp} (hop : op ∈ UnOp.signs) (hplus : op = .plus → s.head? ≠ some '+')
    (hneg : op = .neg → s.head? ≠ some '-') (h : g.tight s = some (e, r)) :
    g.tightStep (op.text.toList ++ s) = some (.unary op e .before .origin, r) := by
  have hsign := sign?_append hop hplus hneg
  have hhead := signs_spec op hop
  cases htext : op.text.toList with
  | nil => rw [htext] at hhead; cases hhead
  | cons c rest =>
    rw [htext] at hsign hhead
    obtain ⟨hparen, hbrace⟩ : c ≠ '(' ∧ c ≠ '\x7b' := by simpa using hhead
    rw [List.cons_append] at hsign ⊢
    simp [tightStep, hparen, hbrace, hsign, h]

theorem type?_append (ht : TypeText t) : type? (t ++ ')' :: s) = some (t, s) := by
  have hspan : (t ++ ')' :: s).span isTypeChar = (t, ')' :: s) := span_append ht.1 (by simp; rfl)
  simp only [type?, hspan, ht.2]
  rfl

theorem tightStep_cast (ht : TypeText t) (h : g.tight s = some (e, r)) :
    g.tightStep ('(' :: (t ++ ')' :: s)) = some (.cast (String.ofList t) e .origin, r) := by
  simp [tightStep, parenthesis, type?_append ht, h]

theorem tightStep_paren (htype : type? s = none) (h : g.loose true s = some (e, ')' :: r)) :
    g.tightStep ('(' :: s) = g.suffixes e r := by
  simp [tightStep, parenthesis, htype, h]

theorem tightStep_initList {es : List Expr} (h : g.list '\x7d' s = some (es, r)) :
    g.tightStep ('\x7b' :: s) = g.suffixes (.initList es .origin) r := by
  simp [tightStep, h]

theorem tightStep_ellipsis :
    g.tightStep ('.' :: '.' :: '.' :: s) = g.suffixes (.ellipsis .origin) s := by
  simp [tightStep, sign?, dropStart?]

end Tight

section Suffixes

variable {ps : List String}

theorem suffixesStep_call {args : List Expr} (h : g.list ')' s = some (args, r)) :
    g.suffixesStep ps e ('(' :: s) =
    g.suffixes (.call e args (e.pointer?.any ps.contains) .origin) r := by
  simp [suffixesStep, h]

theorem suffixesStep_index {i : Expr} (h : g.loose true s = some (i, ']' :: r)) :
    g.suffixesStep ps e ('[' :: s) = g.suffixes (.index e i .origin) r := by
  simp [suffixesStep, h]

theorem suffixesStep_member {w : List Char} (hw : ∀ c ∈ w, isNameChar c = true)
    (hr : ∀ c ∈ r.head?, isNameChar c = false) (arrow : Bool) :
    g.suffixesStep ps e ((if arrow then ['-', '>'] else ['.']) ++ (w ++ r)) =
      g.suffixes (.member e (String.ofList w) arrow .origin) r := by
  have hspan : (w ++ r).span isNameChar = (w, r) := span_append hw hr
  cases arrow <;> simp only [Bool.false_eq_true, if_true, if_false, List.cons_append,
    List.nil_append, suffixesStep, hspan]

theorem suffixesStep_end (hr : ∀ c ∈ r.head?, c ∈ [')', ']', '\x7d', ',', ' ']) :
    g.suffixesStep ps e r = some (e, r) := by
  unfold suffixesStep
  split <;> simp_all

end Suffixes

section Loose

variable {a b : Expr} {commas : Bool}

theorem operator?_append {op : String} (hop : ' ' ∉ op.toList) :
    operator? (' ' :: (op.toList ++ ' ' :: s)) = some (op, s) := by
  have hspan : (op.toList ++ ' ' :: s).span (· != ' ') = (op.toList, ' ' :: s) :=
    span_append (fun c hc => bne_iff_ne.mpr fun h => hop (h ▸ hc)) (by simp)
  simp only [operator?, hspan, String.ofList_toList]

theorem operator?_eq_none (h : r.head? ≠ some ' ') : operator? r = none := by
  unfold operator?
  split
  · exact absurd rfl h
  · rfl

theorem joined_comma (h : g.tight s = some (b, r)) :
    g.joined true a (',' :: ' ' :: s) = some (.binary .comma a b .origin, r) := by
  simp [joined, h]

theorem binOps_spec (op : BinOp) (h : op ≠ .comma) : ' ' ∉ op.text.toList ∧ op.text ≠ "?" ∧
    BinOp.ofText? op.text = some op := by
  cases op with
  | comma => exact absurd rfl h
  | _ => decide

theorem joined_binary {op : BinOp} (hop : op ≠ .comma) (h : g.tight s = some (b, r)) :
    g.joined commas a (' ' :: (op.text.toList ++ ' ' :: s)) = some (.binary op a b .origin, r) := by
  obtain ⟨hchars, hmark, htext⟩ := binOps_spec op hop
  rw [joined, operator?_append hchars]
  · simp [hmark, htext, h]
  · simp

theorem joined_conditional {no : Expr} {s' : List Char}
    (h : g.tight s = some (b, ' ' :: ':' :: ' ' :: s')) (h' : g.tight s' = some (no, r)) :
    g.joined commas a (' ' :: '?' :: ' ' :: s) = some (.conditional a b no .origin, r) := by
  have hmark : operator? (' ' :: '?' :: ' ' :: s) = some ("?", s) :=
    @operator?_append _ "?" (by decide)
  have hcolon : operator? (' ' :: ':' :: ' ' :: s') = some (":", s') :=
    @operator?_append _ ":" (by decide)
  rw [joined, hmark]
  · simp [h, hcolon, h']
  · simp

/-- Nothing that goes on with an expression, unless it is an assignment. -/
def Closes (commas : Bool) (r : List Char) : Prop :=
  ∀ (g : Readers) (a : Expr), g.joined commas a r = some (a, r)

def Ends (commas : Bool) (r : List Char) : Prop :=
  ∀ c ∈ r.head?, c ∈ [')', ']', '\x7d'] ∨ c = ',' ∧ commas = false

theorem Ends.head_ne_blank (h : Ends commas r) : r.head? ≠ some ' ' := by
  intro hblank
  obtain hc | ⟨hc, -⟩ := h ' ' hblank
  · exact absurd hc (by decide)
  · exact absurd hc (by decide)

theorem Ends.closes (h : Ends commas r) : Closes commas r := by
  intro g a
  unfold joined
  split
  · obtain hc | ⟨-, rfl⟩ := h ',' rfl
    · exact absurd hc (by decide)
    · rfl
  · rw [operator?_eq_none h.head_ne_blank]

theorem assignOps_spec (op : AssignOp) : ' ' ∉ op.text.toList ∧ op.text ≠ "?" ∧
    BinOp.ofText? op.text = none ∧ AssignOp.ofText? op.text = some op := by
  cases op <;> decide

theorem closes_assign (op : AssignOp) (s : List Char) :
    Closes commas (' ' :: (op.text.toList ++ ' ' :: s)) := by
  intro g a
  obtain ⟨hchars, hmark, hnone, -⟩ := assignOps_spec op
  rw [joined, operator?_append hchars]
  · simp [hmark, hnone]
  · simp

theorem looseStep_simple (h : g.simple commas s = some (a, r)) (hr : Ends commas r) :
    g.looseStep commas s = some (a, r) := by
  simp [looseStep, h, operator?_eq_none hr.head_ne_blank]

theorem looseStep_assign {op : AssignOp} {v : Expr} {s' : List Char}
    (h : g.simple commas s = some (a, ' ' :: (op.text.toList ++ ' ' :: s')))
    (hv : g.loose commas s' = some (v, r)) :
    g.looseStep commas s = some (.assign op a v .origin, r) := by
  obtain ⟨hchars, -, -, htext⟩ := assignOps_spec op
  simp [looseStep, h, operator?_append hchars, htext, hv]

end Loose

section Lists

variable {close : Char} {es : List Expr} {s' : List Char}

theorem listStep_nil : g.listStep close (close :: s) = some ([], s) := by
  simp [listStep]

theorem listStep_last (hs : s.head? ≠ some close) (hclose : close ≠ ',')
    (h : g.loose false s = some (e, close :: r)) : g.listStep close s = some ([e], r) := by
  simp only [listStep, beq_iff_eq, hs, if_false, h]
  split
  · simp_all
  · simp_all
  · simp_all

theorem listStep_cons (hs : s.head? ≠ some close) (h : g.loose false s = some (e, ',' :: ' ' :: s'))
    (h' : g.list close s' = some (es, r)) : g.listStep close s = some (e :: es, r) := by
  simp [listStep, hs, h, h']

end Lists

end Readers

end JniContracts.Rendering
