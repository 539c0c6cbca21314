import JniContracts.Proofs.Rendering.Steps

/-!
Texts as words. A word is the kind and the text of a token. A text that is put together from texts
of words, with blanks where two of them would run together, is cut into these words again.
-/

namespace JniContracts

variable {cs rest : List Char} {c : Char}

abbrev Word := TokenKind × String

def Token.word (t : Token) : Word := (t.kind, t.text)

namespace Lexer

open Rendering

/-- The lexer takes the words from a text and comes to the rest of it. Only blanks stand between the
words. -/
inductive Cuts : List Char → List Word → List Char → Prop
  | done (cs : List Char) : Cuts cs [] cs
  | word {kind : TokenKind} {cs text rest rest' : List Char} {ws : List Word}
      (h : lexeme cs = .ok (.token kind, text, rest)) (hrest : Cuts rest ws rest') :
      Cuts cs ((kind, String.ofList text) :: ws) rest'
  | gap {c : Char} {cs text rest rest' : List Char} {ws : List Word}
      (h : lexeme (c :: cs) = .ok (.gap, text, rest)) (hrest : Cuts rest ws rest') :
      Cuts (c :: cs) ws rest'

variable {ws : List Word}

theorem Cuts.append {cs' cs'' : List Char} {ws' : List Word} (h : Cuts cs ws cs')
    (h' : Cuts cs' ws' cs'') : Cuts cs (ws ++ ws') cs'' := by
  induction h with
  | done cs => exact h'
  | word h _ ih => exact .word h (ih h')
  | gap h _ ih => exact .gap h (ih h')

section Scanning

variable {cs : List Char}

theorem length_of_lexeme {cs text : List Char} {l : Lexeme}
    (h : lexeme (c :: cs) = .ok (l, text, rest)) : rest.length ≤ cs.length := by
  obtain ⟨hne, hparts⟩ := (taken_of_lexeme (by simp) h).parts
  have hlength := congrArg List.length (show text ++ rest = c :: cs from hparts)
  have hpos : 0 < text.length := List.length_pos_iff.mpr hne
  simp only [List.length_append, List.length_cons] at hlength
  omega

theorem scan_of_cuts (h : Cuts cs ws []) (fuel : Nat) (hfuel : cs.length ≤ fuel) (p : Pos)
    (seen : List Token) :
    ∃ (ts : List Token) (q : Pos), scan fuel false p seen cs =
      .ok (seen.reverse ++ ts ++ [⟨.eof, "", q⟩]) ∧ ts.map Token.word = ws := by
  generalize hend : ([] : List Char) = rest at h
  induction h generalizing fuel p seen with
  | done cs =>
    subst hend
    refine ⟨[], p, ?_, rfl⟩
    cases fuel <;> simp [scan]
  | @word kind cs text rest rest' ws h _ ih =>
    cases cs with
    | nil => cases h
    | cons c cs =>
      have hless := length_of_lexeme h
      cases fuel with
      | zero => simp at hfuel
      | succ fuel =>
        obtain ⟨ts, q, hscan, hwords⟩ := ih fuel (by simp only [List.length_cons] at hfuel; omega)
          (along p text) (⟨kind, String.ofList text, p⟩ :: seen) hend
        refine ⟨⟨kind, String.ofList text, p⟩ :: ts, q, ?_, by simp [hwords, Token.word]⟩
        simp [scan, h, hscan]
  | @gap c cs text rest rest' ws h _ ih =>
    have hless := length_of_lexeme h
    cases fuel with
    | zero => simp at hfuel
    | succ fuel =>
      obtain ⟨ts, q, hscan, hwords⟩ :=
        ih fuel (by simp only [List.length_cons] at hfuel; omega) (along p text) seen hend
      have hfresh : (Lexeme.gap == Lexeme.newline) = false := rfl
      exact ⟨ts, q, by simpa [scan, h, Lexeme.passed, hfresh] using hscan, hwords⟩

theorem span_of_head {p : Char → Bool} (h : ∀ c ∈ cs.head?, p c = false) :
    cs.span p = ([], cs) := by
  have hspan : ([] ++ cs).span p = ([], cs) := span_append (by simp) h
  exact hspan

theorem directive?_eq_none (h : c ∉ [' ', '\t', '#']) : directive? (c :: cs) = none := by
  simp only [List.mem_cons, List.not_mem_nil, or_false, not_or] at h
  have hspan : (c :: cs).span (fun c => c == ' ' || c == '\t') = ([], c :: cs) :=
    span_of_head (by simp [h])
  unfold directive?
  rw [hspan]
  simp [h]

theorem isGap_of_taken {cut : Cut} (h : Taken (c :: cs) .gap cut) : isGap c = true := by
  cases h with
  | gap d rest hcs hd =>
    cases hcs
    exact hd

/-- A text that starts with a word, and with no directive, has the words as its tokens. -/
theorem tokenize_of_cuts {source : String} (h : Cuts source.toList ws [])
    (hstart : ∀ c ∈ source.toList.head?, isGap c = false ∧ c ≠ '#') :
    ∃ (ts : List Token) (q : Pos), tokenize source = .ok (ts ++ [⟨.eof, "", q⟩]) ∧
    ts.map Token.word = ws := by
  rw [tokenize]
  generalize source.toList = cs at h hstart
  generalize hend : ([] : List Char) = rest at h
  cases h with
  | done cs =>
    subst hend
    exact ⟨[], _, rfl, rfl⟩
  | @word kind cs text rest rest' ws h hrest =>
    subst hend
    cases cs with
    | nil => cases h
    | cons c cs =>
      obtain ⟨hgap, hhash⟩ := hstart c rfl
      have hblank : c ∉ [' ', '\t', '#'] := by
        simp only [List.mem_cons, List.not_mem_nil, or_false, not_or]
        refine ⟨?_, ?_, hhash⟩ <;> (rintro rfl; cases hgap)
      obtain ⟨ts, q, hscan, hwords⟩ := scan_of_cuts hrest cs.length (length_of_lexeme h)
        (along ⟨1, 1⟩ text) [⟨kind, String.ofList text, ⟨1, 1⟩⟩]
      refine ⟨⟨kind, String.ofList text, ⟨1, 1⟩⟩ :: ts, q, ?_, by simp [hwords, Token.word]⟩
      simp [scan, directive?_eq_none hblank, h, hscan]
  | @gap c cs text rest rest' ws h hrest =>
    have hgap := isGap_of_taken (taken_of_lexeme (by simp) h)
    rw [(hstart c rfl).1] at hgap
    cases hgap

end Scanning

section Forms

def Solid (cs : List Char) : Prop :=
  ∀ c rest, cs = c :: rest → c ≠ '\n' ∧ isGap c = false ∧
    (c = '/' → ∀ d ∈ rest.head?, d ≠ '/' ∧ d ≠ '*')

theorem solid_of_head (h : c ∉ ['\n', '/'] ∧ isGap c = false) : Solid (c :: cs) := by
  rintro d rest ⟨⟩
  simp only [List.mem_cons, List.not_mem_nil, or_false, not_or] at h
  exact ⟨h.1.1, h.2, fun hc => absurd hc h.1.2⟩

/-- The text starts with a token: with one of the forms, and with none that comes before it. -/
inductive Opens (cs : List Char) : TokenKind → Cut → Prop
  | string {first body : List Char} {cut : Cut} (hopening : opening '"' cs = some (first, body))
      (hbody : literalBody '"' body = some cut) : Opens cs .string (inFront first cut)
  | char {cut : Cut} (hopening : opening '"' cs = none) (hcut : charLiteral cs = some cut) :
      Opens cs .char cut
  | number {cut : Cut} (hopening : opening '"' cs = none) (hchar : charLiteral cs = none)
      (hcut : number cs = some cut) : Opens cs .number cut
  | ident {cut : Cut} (hopening : opening '"' cs = none) (hchar : charLiteral cs = none)
      (hnumber : number cs = none) (hcut : identifier cs = some cut) : Opens cs .ident cut
  | punct {cut : Cut} (hopening : opening '"' cs = none) (hchar : charLiteral cs = none)
      (hnumber : number cs = none) (hident : identifier cs = none)
      (hcut : punctuator cs = some cut) : Opens cs .punct cut

theorem lexeme_of_opens {kind : TokenKind} {cut : Cut} (hsolid : Solid (c :: cs))
    (h : Opens (c :: cs) kind cut) : lexeme (c :: cs) = .ok (.token kind, cut) := by
  obtain ⟨hline, hgap, hslash⟩ := hsolid c cs rfl
  rw [lexeme]
  · cases h with
    | string hopening hbody => simp only [hgap, hopening, hbody, Bool.false_eq_true, if_false]
    | char hopening hcut => simp only [hgap, hopening, hcut, Bool.false_eq_true, if_false]
    | number hopening hchar hcut =>
      simp only [hgap, hopening, hchar, hcut, Bool.false_eq_true, if_false]
    | ident hopening hchar hnumber hcut =>
      simp only [hgap, hopening, hchar, hnumber, hcut, Bool.false_eq_true, if_false]
    | punct hopening hchar hnumber hident hcut =>
      simp only [hgap, hopening, hchar, hnumber, hident, hcut, Bool.false_eq_true, if_false]
  · exact hline
  · rintro rest hc rfl
    exact absurd rfl (hslash hc '/' rfl).1
  · rintro rest hc rfl
    exact absurd rfl (hslash hc '*' rfl).2

end Forms

end Lexer

def LiteralKind.token : LiteralKind → TokenKind
  | number => .number
  | string => .string
  | char => .char

namespace Lexer

open Rendering

variable {kind : LiteralKind}

section Forms

variable {p : String} {r : List Char}

theorem opens_of_literal? {t : String} {p : Pos}
    (h : literal? cs = some (.literal t kind p, rest)) : Opens cs kind.token (t.toList, rest) := by
  unfold literal? at h
  split at h
  · rename_i first body hopening
    obtain ⟨cut, hbody, hcut⟩ := Option.map_eq_some_iff.mp h
    cases hcut
    rw [String.toList_ofList]
    exact .string hopening hbody
  · rename_i hopening
    split at h
    · rename_i cut hchar
      cases h
      rw [String.toList_ofList]
      exact .char hopening hchar
    · rename_i hchar
      obtain ⟨cut, hnumber, hcut⟩ := Option.map_eq_some_iff.mp h
      cases hcut
      rw [String.toList_ofList]
      exact .number hopening hchar hnumber

theorem solid_of_isNameChar (h : isNameChar c = true) : Solid (c :: cs) := by
  refine solid_of_head ⟨fun hmem => ?_, ?_⟩
  · simp only [List.mem_cons, List.not_mem_nil, or_false] at hmem
    obtain rfl | rfl := hmem <;> cases h
  · by_contra hgap
    simp only [isGap, Bool.not_eq_false, Bool.or_eq_true, beq_iff_eq] at hgap
    obtain (((rfl | rfl) | rfl) | rfl) | rfl := hgap <;> cases h

theorem start_literalText {t : List Char} (h : LiteralText kind t) :
    ∃ c rest, t = c :: rest ∧ (isNameChar c = true ∨ c ∈ ['.', '"', '\'']) := by
  have quoted : ∀ {quote mark body}, quote ∈ ['"', '\''] → mark ∈ marks →
      ∃ c rest, mark ++ quote :: body = c :: rest ∧
      (isNameChar c = true ∨ c ∈ ['.', '"', '\'']) := by
    intro quote mark body hquote hmark
    simp only [marks, List.mem_cons, List.not_mem_nil, or_false] at hmark
    obtain rfl | rfl | rfl | rfl | rfl := hmark
    · exact ⟨_, _, rfl, .inr (List.mem_cons_of_mem _ hquote)⟩
    all_goals exact ⟨_, _, rfl, .inl rfl⟩
  cases kind with
  | string =>
    obtain ⟨mark, hmark, body, rfl, -⟩ := h
    exact quoted (by simp) hmark
  | char =>
    obtain ⟨mark, hmark, body, rfl, -⟩ := h
    exact quoted (by simp) hmark
  | number =>
    obtain ⟨c, rest, rfl, hc | ⟨rfl, -⟩⟩ := NumberText.head h
    · exact ⟨c, rest, rfl, .inl (isNameChar_of_isDigit hc)⟩
    · exact ⟨'.', rest, rfl, .inr List.mem_cons_self⟩

theorem lexeme_literal {t : List Char} (ht : LiteralText kind t) (hr : Breaks r)
    (hdot : kind = .number → r.head? ≠ some '.') :
    lexeme (t ++ r) = .ok (.token kind.token, t, r) := by
  have hopens := opens_of_literal? (literal?_append ht hr hdot)
  rw [String.toList_ofList] at hopens
  obtain ⟨c, rest, rfl, hc | hc⟩ := start_literalText ht
  · exact lexeme_of_opens (solid_of_isNameChar hc) hopens
  · refine lexeme_of_opens (solid_of_head ?_) hopens
    simp only [List.mem_cons, List.not_mem_nil, or_false] at hc
    obtain rfl | rfl | rfl := hc <;> exact ⟨by simp, rfl⟩

theorem lexeme_word {t : List Char} (ht : WordText t) (hr : ∀ c ∈ r.head?, isNameChar c = false)
    (hopen : ∀ quote ∈ ['"', '\''], opening quote (t ++ r) = none) :
    lexeme (t ++ r) = .ok (.token .ident, t, r) := by
  obtain ⟨c, rest, rfl, hc, hrest⟩ := ht
  have hchar : charLiteral (c :: rest ++ r) = none := by
    rw [charLiteral, hopen '\'' (by simp)]
    rfl
  have hident : identifier (c :: rest ++ r) = some (c :: rest, r) := by
    rw [List.cons_append, identifier, if_pos hc, span_append hrest hr]
    rfl
  exact lexeme_of_opens (solid_of_isNameChar (isNameChar_of_isNameStart hc))
    (.ident (hopen '"' (by simp)) hchar (number_word hc) hident)

def Alone (p : String) (r : List Char) : Prop :=
  ∀ q ∈ punctuators, q.toList <+: p.toList ++ r → q.toList.length ≤ p.toList.length

theorem dropStart?_eq_some {p : List Char} : dropStart? p cs = some rest ↔ p ++ rest = cs := by
  refine ⟨append_of_dropStart?, ?_⟩
  rintro rfl
  induction p with
  | nil => rfl
  | cons c p ih => simpa [dropStart?] using ih

theorem punctuator_append (hp : p ∈ punctuators) (hr : Alone p r) :
    punctuator (p.toList ++ r) = some (p.toList, r) := by
  have hsorted : punctuators.Pairwise fun a b => b.toList.length ≤ a.toList.length := by decide
  have hself : dropStart? p.toList (p.toList ++ r) = some r := dropStart?_eq_some.mpr rfl
  cases hfound : punctuator (p.toList ++ r) with
  | none =>
    have hnone := List.findSome?_eq_none_iff.mp hfound p hp
    simp [hself] at hnone
  | some cut =>
    -- the first that fits is at least as long, and no longer one fits
    obtain ⟨front, q, back, hlist, hcut, hfront⟩ := List.findSome?_eq_some_iff.mp hfound
    obtain ⟨rest, hrest, rfl⟩ := Option.map_eq_some_iff.mp hcut
    have happend := dropStart?_eq_some.mp hrest
    have hle := hr q (by rw [hlist]; simp) ⟨rest, happend⟩
    have hge : p.toList.length ≤ q.toList.length := by
      rw [hlist] at hp hsorted
      obtain hp | hp := List.mem_append.mp hp
      · have hnone := hfront p hp
        simp [hself] at hnone
      · obtain rfl | hp := List.mem_cons.mp hp
        · exact Nat.le_refl _
        · exact (List.pairwise_cons.mp (List.pairwise_append.mp hsorted).2.1).1 p hp
    obtain ⟨htext, rfl⟩ := List.append_inj happend (Nat.le_antisymm hle hge)
    rw [htext]

theorem alone_of_head (h : ∀ c ∈ r.head?, ∀ q ∈ punctuators, ¬ p.toList ++ [c] <+: q.toList) :
    Alone p r := by
  intro q hq hinitial
  by_contra hlong
  cases r with
  | nil =>
    rw [List.append_nil] at hinitial
    exact hlong hinitial.length_le
  | cons c r =>
    refine h c rfl q hq ?_
    have hcons : p.toList ++ [c] <+: p.toList ++ c :: r := ⟨r, by simp⟩
    exact List.prefix_of_prefix_length_le hcons hinitial (by simp; omega)

theorem alone_of_final (hp : p ∈ ["(", ")", "[", "]", ",", "?", "++", "--", "::"]) (r : List Char) :
    Alone p r := by
  have hall :
      ∀ p ∈ ["(", ")", "[", "]", ",", "?", "++", "--", "::"],
      ∀ q ∈ punctuators, p.toList <+: q.toList → q.toList.length ≤ p.toList.length := by decide
  refine alone_of_head fun c _ q hq hinitial => ?_
  have hle := hall p hp q hq ((List.prefix_append _ _).trans hinitial)
  have hlt := hinitial.length_le
  rw [List.length_append, List.length_singleton] at hlt
  omega

theorem alone_of_not_mem (hc : ∀ q ∈ punctuators, c ∉ q.toList) (r : List Char) :
    Alone p (c :: r) := by
  refine alone_of_head fun d hd q hq hinitial => ?_
  obtain rfl : c = d := by simpa using hd
  exact hc q hq (hinitial.subset (by simp))

theorem alone_of_blank (p : String) (r : List Char) : Alone p (' ' :: r) :=
  alone_of_not_mem (by decide) r

theorem alone_of_isNameChar (p : String) (hc : isNameChar c = true) (r : List Char) :
    Alone p (c :: r) := by
  have hall : ∀ q ∈ punctuators, q.toList.all (fun c => !isNameChar c) = true := by decide
  refine alone_of_not_mem (fun q hq hmem => ?_) r
  have hnot := List.all_eq_true.mp (hall q hq) c hmem
  simp [hc] at hnot

def isSign : List Char → Bool
  | [] => false
  | c :: tail => !isNameChar c && !(['\n', '"', '\''].contains c) && !isGap c &&
    tail.head?.all fun d => !isDigit d && (c != '/' || d != '/' && d != '*')

/-- A text that starts with a punctuator starts with no word and no literal. A point is that of a
number only in front of a digit, and a slash that of a comment only in front of another or of a
star. -/
theorem head_punctuator (hp : p ∈ punctuators) : ∃ c tail, p.toList = c :: tail ∧
    isNameChar c = false ∧ c ∉ ['\n', '"', '\''] ∧ isGap c = false ∧
    ∀ d ∈ tail.head?, isDigit d = false ∧ (c = '/' → d ≠ '/' ∧ d ≠ '*') := by
  have hall : ∀ p ∈ punctuators, isSign p.toList = true := by decide
  have h := hall p hp
  cases htext : p.toList with
  | nil =>
    rw [htext] at h
    cases h
  | cons c tail =>
    rw [htext] at h
    simp only [isSign, Bool.and_eq_true, Bool.or_eq_true, Bool.not_eq_true', bne_iff_ne,
      List.contains_eq_mem, decide_eq_false_iff_not, Option.all_eq_true] at h
    obtain ⟨⟨⟨hname, hmem⟩, hgap⟩, hsecond⟩ := h
    exact ⟨c, tail, rfl, hname, hmem, hgap,
      fun d hd => ⟨(hsecond d hd).1, fun hc => (hsecond d hd).2.resolve_left (· hc)⟩⟩

theorem lexeme_punct (hp : p ∈ punctuators) (hr : Alone p r)
    (hdot : p = "." → ∀ c ∈ r.head?, isDigit c = false)
    (hslash : p = "/" → ∀ c ∈ r.head?, c ≠ '/' ∧ c ≠ '*') :
    lexeme (p.toList ++ r) = .ok (.token .punct, p.toList, r) := by
  have hcut := punctuator_append hp hr
  obtain ⟨c, tail, htext, hname, hmem, hgap, htail⟩ := head_punctuator hp
  have hstart : isNameStart c = false := by
    by_contra h
    rw [isNameChar_of_isNameStart (Bool.of_not_eq_false h)] at hname
    cases hname
  -- the character behind the first one belongs to the punctuator, or is the first of the rest
  have hsecond :
      ∀ d ∈ (tail ++ r).head?, (c = '.' → isDigit d = false) ∧ (c = '/' → d ≠ '/' ∧ d ≠ '*') := by
    intro d hd
    cases tail with
    | nil =>
      refine ⟨fun hc => hdot (String.toList_injective (by rw [htext, hc]; rfl)) d hd, fun hc => ?_⟩
      exact hslash (String.toList_injective (by rw [htext, hc]; rfl)) d hd
    | cons x tail => exact ⟨fun _ => (htail d hd).1, (htail d hd).2⟩
  rw [htext, List.cons_append] at hcut ⊢
  simp only [List.mem_cons, List.not_mem_nil, or_false, not_or] at hmem
  have hopening : ∀ quote ∈ ['"', '\''], opening quote (c :: (tail ++ r)) = none := by
    intro quote hquote
    refine opening_eq_none fun d hd => ?_
    obtain rfl : c = d := by simpa using hd
    simp only [List.mem_cons, List.not_mem_nil, or_false] at hquote ⊢
    refine ⟨?_, ?_⟩
    · obtain rfl | rfl := hquote
      · exact hmem.2.1
      · exact hmem.2.2
    · rintro (rfl | rfl | rfl) <;> cases hname
  have hchar : charLiteral (c :: (tail ++ r)) = none := by
    rw [charLiteral, hopening '\'' (by simp)]
    rfl
  have hnumber : number (c :: (tail ++ r)) = none := by
    cases hfound : number (c :: (tail ++ r)) with
    | none => rfl
    | some cut =>
      obtain ⟨d, rest, hd, hdigit⟩ := (numberText_of_number hfound).head
      have hparts : cut.1 ++ cut.2 = c :: (tail ++ r) := (parts_number hfound).2
      rw [hd] at hparts
      obtain ⟨rfl, hrest⟩ := List.cons.inj hparts
      obtain hdigit | ⟨rfl, x, more, rfl, hx⟩ := hdigit
      · rw [isNameChar_of_isDigit hdigit] at hname
        cases hname
      · have hnot := (hsecond x (by rw [← hrest]; rfl)).1 rfl
        rw [hx] at hnot
        cases hnot
  have hident : identifier (c :: (tail ++ r)) = none := by simp [identifier, hstart]
  refine lexeme_of_opens ?_ (.punct (hopening '"' (by simp)) hchar hnumber hident hcut)
  rintro d rest ⟨⟩
  exact ⟨hmem.1, hgap, fun hc d hd => (hsecond d hd).2 hc⟩

end Forms

section Cuts

variable {r rest : List Char} {ws : List Word}

theorem Cuts.ofLiteral {t : String} (ht : LiteralText kind t.toList) (hr : Breaks r)
    (hdot : kind = .number → r.head? ≠ some '.') (h : Cuts r ws rest) :
    Cuts (t.toList ++ r) ((kind.token, t) :: ws) rest := by
  have hword := Cuts.word (lexeme_literal ht hr hdot) h
  rwa [String.ofList_toList] at hword

theorem Cuts.ofWord {t : String} (ht : WordText t.toList) (hr : ∀ c ∈ r.head?, isNameChar c = false)
    (hopen : ∀ quote ∈ ['"', '\''], opening quote (t.toList ++ r) = none) (h : Cuts r ws rest) :
    Cuts (t.toList ++ r) ((.ident, t) :: ws) rest := by
  have hword := Cuts.word (lexeme_word ht hr hopen) h
  rwa [String.ofList_toList] at hword

theorem Cuts.ofPunct {p : String} (hp : p ∈ punctuators) (hplain : p ≠ "." ∧ p ≠ "/")
    (hr : Alone p r) (h : Cuts r ws rest) : Cuts (p.toList ++ r) ((.punct, p) :: ws) rest := by
  have hword :=
    Cuts.word
      (lexeme_punct hp hr (fun hdot => absurd hdot hplain.1) fun hslash => absurd hslash hplain.2) h
  rwa [String.ofList_toList] at hword

theorem Cuts.ofPoint (hr : ∀ c ∈ r.head?, isNameStart c = true) (h : Cuts r ws rest) :
    Cuts ('.' :: r) ((.punct, ".") :: ws) rest := by
  have halone : Alone "." r := alone_of_head fun c hc q hq hinitial => by
    have hall : ∀ q ∈ punctuators, q.toList.all (fun c => !isNameChar c) = true := by decide
    have hnot := List.all_eq_true.mp (hall q hq) c (hinitial.subset (by simp))
    simp [isNameChar_of_isNameStart (hr c hc)] at hnot
  exact .word (lexeme_punct (p := ".") (by decide) halone
    (fun _ c hc => not_isDigit_of_isNameStart (hr c hc)) fun hslash => absurd hslash (by decide)) h

theorem Cuts.ofGap (hr : ∀ c ∈ r.head?, isGap c = false) (h : Cuts r ws rest) :
    Cuts (' ' :: r) ws rest := by
  have hspan : r.span isGap = ([], r) := span_of_head hr
  have hlexeme : lexeme (' ' :: r) = .ok (.gap, [' '], r) := by
    rw [lexeme, hspan]
    · rfl
    all_goals simp
  exact .gap hlexeme h

theorem Cuts.ofSpaced {p : String} (hp : p ∈ punctuators) (hr : ∀ c ∈ r.head?, isGap c = false)
    (h : Cuts r ws rest) : Cuts (' ' :: (p.toList ++ ' ' :: r)) ((.punct, p) :: ws) rest := by
  have hblank : Cuts (' ' :: r) ws rest := .ofGap hr h
  have hspace : ∀ c ∈ (' ' :: r).head?, c = ' ' := by simp
  have hpunct :=
    Cuts.word (lexeme_punct hp (alone_of_blank p r) (fun _ c hc => by rw [hspace c hc]; rfl)
      fun _ c hc => by rw [hspace c hc]; decide) hblank
  rw [String.ofList_toList] at hpunct
  refine .ofGap (fun c hc => ?_) hpunct
  obtain ⟨d, tail, htext, -, -, hgap, -⟩ := head_punctuator hp
  rw [htext] at hc
  obtain rfl : d = c := by simpa using hc
  exact hgap

end Cuts

end Lexer

end JniContracts
