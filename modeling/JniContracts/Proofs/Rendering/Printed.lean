import JniContracts.Parse.Expr
import JniContracts.Proofs.Rendering.Parsed
import JniContracts.Proofs.Rendering.RoundTrip
import JniContracts.Proofs.Words

/-!
Expressions whose text says all of their structure, and the words of that text.
-/

namespace JniContracts

open Lexer Rendering Parse

namespace Expr

def pathOf (n : String) : List String := (Text.runs (· == ':') n.toList).map String.ofList

theorem toList_qualified (w : String) (ws : List String) :
    (qualified w ws).toList = w.toList ++ ws.flatMap fun w => ':' :: ':' :: w.toList := by
  induction ws generalizing w with
  | nil => simp [qualified]
  | cons x ws ih =>
    have hstep : qualified w (x :: ws) = qualified (w ++ "::" ++ x) ws := rfl
    rw [hstep, ih]
    simp

section Runs

variable {sep : Char → Bool}

theorem runs_append {w rest : List Char} (hne : w ≠ []) (hw : ∀ c ∈ w, sep c = false)
    (hrest : rest.head?.all sep = true) : Text.runs sep (w ++ rest) = w :: Text.runs sep rest := by
  induction w with
  | nil => exact absurd rfl hne
  | cons c w ih =>
    have hc := hw c List.mem_cons_self
    cases w with
    | nil =>
      rw [List.singleton_append, Text.runs, if_neg (by simp [hc]), hrest]
    | cons d w =>
      have hd : ((d :: w ++ rest).head?.all sep) = false := by simp [hw d (by simp)]
      rw [List.cons_append, Text.runs, if_neg (by simp [hc]), hd,
        ih (by simp) fun x hx => hw x (List.mem_cons_of_mem _ hx)]

theorem runs_skip {c : Char} {cs : List Char} (hc : sep c = true) :
    Text.runs sep (c :: cs) = Text.runs sep cs := by
  rw [Text.runs, if_pos hc]

end Runs

theorem pathOf_qualified {w : String} {ws : List String} (h : ∀ x ∈ w :: ws, WordText x.toList) :
    pathOf (qualified w ws) = w :: ws := by
  have hcolon : ∀ {x : List Char}, WordText x → x ≠ [] ∧ ∀ c ∈ x, (c == ':') = false := by
    rintro x ⟨c, rest, rfl, hc, hrest⟩
    refine ⟨by simp, fun d hd => ?_⟩
    have hname : isNameChar d = true := by
      obtain rfl | hd := List.mem_cons.mp hd
      · exact isNameChar_of_isNameStart hc
      · exact hrest d hd
    by_contra heq
    obtain rfl : d = ':' := by simpa using heq
    cases hname
  have hruns : ∀ (w : String) (ws : List String), (∀ x ∈ w :: ws, WordText x.toList) →
      Text.runs (· == ':') (w.toList ++ ws.flatMap fun w => ':' :: ':' :: w.toList) =
        (w :: ws).map String.toList := by
    intro w ws
    induction ws generalizing w with
    | nil =>
      intro h
      obtain ⟨hne, hw⟩ := hcolon (h w List.mem_cons_self)
      have hlast : Text.runs (· == ':') (w.toList ++ []) = w.toList :: Text.runs (· == ':') [] :=
        runs_append hne hw rfl
      simpa [Text.runs] using hlast
    | cons x ws ih =>
      intro h
      obtain ⟨hne, hw⟩ := hcolon (h w List.mem_cons_self)
      rw [List.flatMap_cons, List.cons_append, List.cons_append, runs_append hne hw (by simp),
        runs_skip (by simp), runs_skip (by simp), ih x fun y hy => h y (List.mem_cons_of_mem _ hy)]
      rfl
  rw [pathOf, toList_qualified, hruns w ws h, List.map_map]
  exact (List.map_congr_left fun x _ => String.ofList_toList).trans (List.map_id _)

def scopeWords (ws : List String) : List Word := ws.flatMap fun w => [(.punct, "::"), (.ident, w)]

theorem length_scopeWords (ws : List String) : (scopeWords ws).length = 2 * ws.length := by
  induction ws with
  | nil => rfl
  | cons w ws ih =>
    simp only [scopeWords, List.flatMap_cons, List.length_append, List.length_cons,
      List.length_nil] at ih ⊢
    omega

def pathWords (n : String) : List Word :=
  match pathOf n with
  | [] => []
  | w :: ws => (.ident, w) :: scopeWords ws

theorem pathWords_qualified {w : String} {ws : List String} (h : ∀ x ∈ w :: ws, WordText x.toList) :
    pathWords (qualified w ws) = (.ident, w) :: scopeWords ws := by
  rw [pathWords, pathOf_qualified h]

def enclosed (e : Expr) (ws : List Word) : List Word :=
  if e.isLoose then (TokenKind.punct, "(") :: (ws ++ [(TokenKind.punct, ")")]) else ws

def commaWords : List (List Word) → List Word
  | [] => []
  | [ws] => ws
  | ws :: rest => ws ++ (TokenKind.punct, ",") :: commaWords rest

mutual
/-- The words of the text of an expression. Nothing is said of casts, lists in braces and verbatim
text. -/
def words : Expr → List Word
  | name n _ => pathWords n
  | literal t k _ => [(k.token, t)]
  | ellipsis _ => [(.punct, "...")]
  | call f args _ _ =>
    enclosed f f.words ++ (TokenKind.punct, "(") ::
        (commaWords (wordsAll args) ++ [(TokenKind.punct, ")")])
  | member o attr arrow _ =>
    enclosed o o.words ++ [(TokenKind.punct, if arrow then "->" else "."), (TokenKind.ident, attr)]
  | index o i _ =>
    enclosed o o.words ++ (TokenKind.punct, "[") :: (i.words ++ [(TokenKind.punct, "]")])
  | unary op e .behind _ => enclosed e e.words ++ [(TokenKind.punct, op.text)]
  | unary op e .before _ => (.punct, op.text) :: enclosed e e.words
  | binary op l r _ => enclosed l l.words ++ (TokenKind.punct, op.text) :: enclosed r r.words
  | conditional c x y _ =>
    enclosed c c.words ++ (TokenKind.punct, "?") ::
        (enclosed x x.words ++ (TokenKind.punct, ":") :: enclosed y y.words)
  | assign op t v _ => t.words ++ (TokenKind.punct, op.text) :: v.words
  | cast .. | initList .. | verbatim .. => []

def wordsAll : List Expr → List (List Word)
  | [] => []
  | e :: es => e.words :: wordsAll es
end

theorem wordsAll_eq (es : List Expr) : wordsAll es = es.map words := by
  induction es with
  | nil => rfl
  | cons e es ih => rw [wordsAll, ih, List.map_cons]

def tightWords (e : Expr) : List Word := enclosed e e.words

def isConditional : Expr → Bool
  | conditional .. => true
  | _ => false

/-- Expressions with one reading. Interface calls go through a pointer that is known as one, and
other calls do not. -/
inductive Printable (pointers : List String) : Expr → Prop
  | name {n p} (hn : IsPath n) (hplain : ∀ w ∈ pathOf n, w ∉ pointerQualifiers) :
      Printable pointers (name n p)
  | literal {t k p} (ht : LiteralText k t.toList) : Printable pointers (literal t k p)
  | member {o attr arrow p} (ho : Printable pointers o) (hnumber : o.isNumber = false)
      (hattr : WordText attr.toList) : Printable pointers (member o attr arrow p)
  | index {o i p} (ho : Printable pointers o) (hi : Printable pointers i) :
      Printable pointers (index o i p)
  | call {f args p} (hf : Printable pointers f) (hargs : ∀ a ∈ args, Printable pointers a)
      (hplain : ∀ r, f.pointer? = some r → r ∉ pointers ∧ isHole r = false) :
      Printable pointers (call f args false p)
  | interfaceCall {r n args q q' p} (hr : IsPath r) (hknown : r ∈ pointers ∨ isHole r = true)
      (hn : WordText n.toList) (hargs : ∀ a ∈ args, Printable pointers a) :
      Printable pointers (call (.member (.name r q) n true q') args true p)
  | step {op e p} (hop : op = .incr ∨ op = .decr) (he : Printable pointers e) :
      Printable pointers (unary op e .behind p)
  | binary {op l r p} (hop : op ≠ .comma) (hl : Printable pointers l) (hr : Printable pointers r) :
      Printable pointers (binary op l r p)
  | conditional {c x y p} (hc : Printable pointers c) (hx : Printable pointers x)
      (hy : Printable pointers y) : Printable pointers (conditional c x y p)
  | assign {op t v p} (ht : Printable pointers t) (hv : Printable pointers v)
      (hassign : t.isAssign = false) (hconditional : t.isConditional = false) :
      Printable pointers (assign op t v p)

section Cuts

variable {pointers : List String} {e : Expr} {r cs : List Char} {ws : List Word} {number : Bool}

def Firm (cs : List Char) : Prop := ∃ c rest, cs = c :: rest ∧ isGap c = false ∧ c ≠ '#'

theorem Firm.append (h : Firm cs) (r : List Char) : Firm (cs ++ r) := by
  obtain ⟨c, rest, rfl, hc⟩ := h
  exact ⟨c, rest ++ r, rfl, hc⟩

theorem Firm.head (h : Firm cs) : ∀ c ∈ cs.head?, isGap c = false ∧ c ≠ '#' := by
  obtain ⟨c, rest, rfl, hc⟩ := h
  intro d hd
  obtain rfl : c = d := by simpa using hd
  exact hc

theorem firm_of_isNameChar {c : Char} {rest : List Char} (h : isNameChar c = true) :
    Firm (c :: rest) := by
  have hsolid : Solid (c :: rest) := solid_of_isNameChar h
  refine ⟨c, rest, rfl, (hsolid c rest rfl).2.1, ?_⟩
  rintro rfl
  cases h

/-- A text is cut into words in front of whatever does not go on with it. -/
structure CutsInto (cs : List Char) (ws : List Word) (number : Bool) : Prop where
  firm : Firm cs
  cuts : ∀ r, Breaks r → (number = true → r.head? ≠ some '.') → Cuts (cs ++ r) ws r

theorem isQualifiedChar_of_wordText {w : List Char} (h : WordText w) :
    ∀ c ∈ w, isQualifiedChar c = true := by
  obtain ⟨c, rest, rfl, hc, hrest⟩ := h
  intro d hd
  obtain rfl | hd := List.mem_cons.mp hd
  · exact isQualifiedChar_of_isNameChar (isNameChar_of_isNameStart hc)
  · exact isQualifiedChar_of_isNameChar (hrest d hd)

theorem cuts_word {w : String} (hw : WordText w.toList) (hr : Breaks r) :
    Cuts (w.toList ++ r) [(.ident, w)] r := by
  refine .ofWord hw (fun c hc => (Bool.or_eq_false_iff.mp (hr c hc).1).1)
    (fun quote hquote => ?_) (.done r)
  exact opening_word (by simpa using hquote) (isQualifiedChar_of_wordText hw) hr

theorem cuts_qualified (w : String) (ws : List String) (hwords : ∀ x ∈ w :: ws, WordText x.toList)
    (hr : Breaks r) :
    Cuts (w.toList ++ ((ws.flatMap fun w => ':' :: ':' :: w.toList) ++ r))
      ((.ident, w) :: scopeWords ws) r := by
  induction ws generalizing w with
  | nil => exact cuts_word (hwords w List.mem_cons_self) hr
  | cons x ws ih =>
    -- no quote follows the word, since only words and colons stand up to the end of the name
    have hopen : ∀ quote ∈ ['"', '\''], opening quote
        (w.toList ++ (((x :: ws).flatMap fun w => ':' :: ':' :: w.toList) ++ r)) = none := by
      intro quote hquote
      rw [← List.append_assoc]
      refine opening_word (by simpa using hquote) (fun c hc => ?_) hr
      obtain hc | hc := List.mem_append.mp hc
      · exact isQualifiedChar_of_wordText (hwords w List.mem_cons_self) c hc
      · obtain ⟨y, hy, hc⟩ := List.mem_flatMap.mp hc
        simp only [List.mem_cons] at hc
        obtain rfl | rfl | hc := hc
        · rfl
        · rfl
        · exact isQualifiedChar_of_wordText (hwords y (List.mem_cons_of_mem _ hy)) c hc
    refine .ofWord (hwords w List.mem_cons_self) (fun c hc => ?_) hopen ?_
    · obtain rfl : ':' = c := by simpa using hc
      rfl
    · have hrest := ih x fun y hy => hwords y (List.mem_cons_of_mem _ hy)
      have hcolons :=
        Cuts.ofPunct (p := "::") (by decide) (by decide) (alone_of_final (by decide) _) hrest
      simpa [scopeWords] using hcolons

theorem cuts_path {n : String} (hn : IsPath n) : CutsInto n.toList (pathWords n) false := by
  obtain ⟨w, ws, rfl, hwords, -⟩ := hn
  constructor
  · obtain ⟨c, rest, htext, hc, -⟩ := hwords w List.mem_cons_self
    rw [toList_qualified, htext]
    exact firm_of_isNameChar (isNameChar_of_isNameStart hc)
  · intro r hr _
    rw [pathWords_qualified hwords, toList_qualified, List.append_assoc]
    exact cuts_qualified w ws hwords hr

theorem cuts_literal {t : String} {k : LiteralKind} {p : Pos} (ht : LiteralText k t.toList) :
    CutsInto t.toList [(k.token, t)] (literal t k p).isNumber := by
  constructor
  · obtain ⟨c, rest, htext, hc | hc⟩ := start_literalText ht
    · rw [htext]
      exact firm_of_isNameChar hc
    · refine ⟨c, rest, htext, ?_⟩
      simp only [List.mem_cons, List.not_mem_nil, or_false] at hc
      obtain rfl | rfl | rfl := hc <;> exact ⟨rfl, by simp⟩
  · intro r hr hdot
    exact .ofLiteral ht hr (fun hk => hdot (by rw [hk]; rfl)) (.done r)

theorem CutsInto.of_number (h : CutsInto cs ws number) : CutsInto cs ws true :=
  ⟨h.firm, fun r hr hdot => h.cuts r hr fun _ => hdot rfl⟩

/-- A loose expression may end with a number. -/
def CutsWhole (e : Expr) : Prop := CutsInto e.chars e.words (e.isLoose || e.isNumber)

def CutsTight (e : Expr) : Prop := CutsInto e.tight e.tightWords e.isNumber

theorem CutsWhole.tight (h : CutsWhole e) : CutsTight e := by
  rw [CutsWhole] at h
  rw [CutsTight, tightWords, enclosed]
  cases hloose : e.isLoose with
  | false =>
    rw [hloose, Bool.false_or] at h
    rw [tight_of_not_loose hloose]
    exact h
  | true =>
    rw [tight_of_loose hloose]
    refine ⟨⟨'(', _, rfl, by decide⟩, fun r hr _ => ?_⟩
    have hclose :=
      Cuts.ofPunct (p := ")") (by decide) (by decide) (alone_of_final (by decide) r) (.done r)
    have hinner := (h.cuts (')' :: r) (breaks_cons (by decide)) (by simp)).append hclose
    have hopen :=
      Cuts.ofPunct (p := "(") (by decide) (by decide) (alone_of_final (by decide) _) hinner
    simpa using hopen

theorem binOp_mem_punctuators (op : BinOp) : op.text ∈ punctuators := by
  cases op <;> decide

theorem assignOp_mem_punctuators (op : AssignOp) : op.text ∈ punctuators := by
  cases op <;> decide

theorem CutsInto.spaced {cs cs' : List Char} {ws' : List Word} {number' : Bool} {p : String}
    (h : CutsInto cs ws number) (hp : p ∈ punctuators) (h' : CutsInto cs' ws' number') :
    CutsInto (cs ++ ' ' :: (p.toList ++ ' ' :: cs')) (ws ++ (TokenKind.punct, p) :: ws') true := by
  refine ⟨h.firm.append _, fun r hr hdot => ?_⟩
  have hrest :=
    Cuts.ofSpaced hp (fun c hc => ((h'.firm.append r).head c hc).1) (h'.of_number.cuts r hr hdot)
  have hall := (h.cuts _ (breaks_cons (c := ' ') (by decide)) (by simp)).append hrest
  simpa using hall

theorem CutsInto.behind {cs tail : List Char} {tailWords : List Word} (h : CutsInto cs ws number)
    (htail : ∀ r, Breaks r → Breaks (tail ++ r) ∧ (number = true → (tail ++ r).head? ≠ some '.') ∧
      Cuts (tail ++ r) tailWords r) (b : Bool) : CutsInto (cs ++ tail) (ws ++ tailWords) b := by
  refine ⟨h.firm.append _, fun r hr _ => ?_⟩
  obtain ⟨hbreaks, hdot, hcuts⟩ := htail r hr
  rw [List.append_assoc]
  exact (h.cuts _ hbreaks hdot).append hcuts

theorem cuts_list {es : List Expr} (h : ∀ e ∈ es, CutsWhole e) (r : List Char) :
    Cuts (listChars es ++ ')' :: r) (commaWords (es.map words) ++ [(TokenKind.punct, ")")]) r := by
  have hclose :=
    Cuts.ofPunct (p := ")") (by decide) (by decide) (alone_of_final (by decide) r) (.done r)
  induction es with
  | nil => exact hclose
  | cons e es ih =>
    have he := h e List.mem_cons_self
    cases es with
    | nil => exact (he.cuts (')' :: r) (breaks_cons (by decide)) (by simp)).append hclose
    | cons e' es =>
      have hrest := ih fun x hx => h x (List.mem_cons_of_mem _ hx)
      have hfirm : Firm (listChars (e' :: es) ++ ')' :: r) := by
        have hfirst := (h e' (by simp)).firm
        cases es with
        | nil => exact hfirst.append _
        | cons e'' es => exact (hfirst.append _).append _
      have hgap := Cuts.ofGap (fun c hc => (hfirm.head c hc).1) hrest
      have hcomma :=
        Cuts.ofPunct (p := ",") (by decide) (by decide) (alone_of_final (by decide) _) hgap
      have hall := (he.cuts _ (breaks_cons (c := ',') (by decide)) (by simp)).append hcomma
      rw [listChars, List.map_cons, List.map_cons, commaWords]
      · simpa using hall
      · simp
      · simp

theorem cuts_call {args : List Expr} (h : CutsInto cs ws number) (hargs : ∀ a ∈ args, CutsWhole a) :
    CutsInto (cs ++ '(' :: (listChars args ++ [')'])) (ws ++ (TokenKind.punct, "(") ::
      (commaWords (wordsAll args) ++ [(TokenKind.punct, ")")])) false := by
  refine h.behind (fun r hr => ⟨breaks_cons (by decide), by simp, ?_⟩) false
  rw [wordsAll_eq]
  have hopen :=
    Cuts.ofPunct (p := "(") (by decide) (by decide) (alone_of_final (by decide) _)
      (cuts_list hargs r)
  simpa using hopen

theorem cuts_member {attr : String} (h : CutsInto cs ws false) (arrow : Bool)
    (hattr : WordText attr.toList) :
    CutsInto (cs ++ ((if arrow then ['-', '>'] else ['.']) ++ attr.toList))
      (ws ++ [(TokenKind.punct, if arrow then "->" else "."), (TokenKind.ident, attr)]) false := by
  refine h.behind (fun r hr => ⟨?_, by simp, ?_⟩) false
  · cases arrow <;> exact breaks_cons (by decide)
  · have hword := cuts_word hattr hr
    obtain ⟨c, rest, htext, hc, -⟩ := hattr
    rw [htext] at hword ⊢
    cases arrow with
    | true =>
      exact Cuts.ofPunct (p := "->") (by decide) (by decide)
        (alone_of_isNameChar _ (isNameChar_of_isNameStart hc) _) hword
    | false =>
      refine Cuts.ofPoint (fun d hd => ?_) hword
      obtain rfl : c = d := by simpa using hd
      exact hc

theorem Printable.cuts (h : Printable pointers e) : CutsWhole e := by
  induction h with
  | name hn hplain => exact cuts_path hn
  | literal ht => exact cuts_literal ht
  | @member o attr arrow p ho hnumber hattr ih =>
    have htight := ih.tight
    rw [CutsTight, hnumber] at htight
    rw [CutsWhole, chars_member]
    exact cuts_member htight arrow hattr
  | @index o i p ho hi iho ihi =>
    rw [CutsWhole, chars_index]
    refine iho.tight.behind (fun r hr => ⟨breaks_cons (by decide), by simp, ?_⟩) _
    have hclose :=
      Cuts.ofPunct (p := "]") (by decide) (by decide) (alone_of_final (by decide) r) (.done r)
    have hinner := (ihi.cuts (']' :: r) (breaks_cons (by decide)) (by simp)).append hclose
    have hopen :=
      Cuts.ofPunct (p := "[") (by decide) (by decide) (alone_of_final (by decide) _) hinner
    simpa using hopen
  | @call f args p hf hargs hplain ihf ihargs =>
    rw [CutsWhole, chars_call (fun h => by cases h)]
    exact cuts_call ihf.tight ihargs
  | @interfaceCall r n args q q' p hr hknown hn hargs ihargs =>
    have hmember : CutsTight (.member (.name r q) n true q') := by
      rw [CutsTight, tight_of_not_loose rfl, chars_member, tight_of_not_loose rfl]
      exact cuts_member (cuts_path hr) true hn
    rw [CutsWhole, chars_call (fun _ => rfl)]
    exact cuts_call hmember ihargs
  | @step op e p hop he ih =>
    rw [CutsWhole, chars_behind]
    refine ih.tight.behind (fun r hr => ?_) _
    obtain rfl | rfl := hop
    · exact ⟨breaks_cons (by decide), by simp [UnOp.text],
        Cuts.ofPunct (p := "++") (by decide) (by decide) (alone_of_final (by decide) r) (.done r)⟩
    · exact ⟨breaks_cons (by decide), by simp [UnOp.text],
        Cuts.ofPunct (p := "--") (by decide) (by decide) (alone_of_final (by decide) r) (.done r)⟩
  | @binary op l r p hop hl hr ihl ihr =>
    rw [CutsWhole, chars_binary hop]
    exact ihl.tight.spaced (binOp_mem_punctuators op) ihr.tight
  | @conditional c x y p hc hx hy ihc ihx ihy =>
    have hlater := ihx.tight.spaced (p := ":") (by decide) ihy.tight
    have hall := ihc.tight.spaced (p := "?") (by decide) hlater
    rw [CutsWhole, chars_conditional]
    exact hall
  | @assign op t v p ht hv hassign hconditional iht ihv =>
    rw [CutsWhole, chars_assign]
    exact CutsInto.spaced iht (assignOp_mem_punctuators op) ihv

end Cuts

end Expr

end JniContracts
