import JniContracts.Source.Lexer
import Mathlib.Data.List.TakeDrop

/-!
What a lexeme takes from a text. Every alternative splits the text in front of it into the lexeme
and the rest, and at a character it takes at least that one.
-/

namespace JniContracts.Lexer

variable {cs : List Char} {cut : Cut}

def Parts (cs : List Char) (cut : Cut) : Prop := cut.1 ++ cut.2 = cs

theorem Parts.more {cs : List Char} {cut : Cut} (c : Char) (h : Parts cs cut) :
    Parts (c :: cs) (more c cut) := congrArg (c :: ·) h

theorem Parts.inFront {cs : List Char} {cut : Cut} (first : List Char) (h : Parts cs cut) :
    Parts (first ++ cs) (inFront first cut) :=
  (List.append_assoc first cut.1 cut.2).trans (congrArg (first ++ ·) h)

section Spans

variable {α : Type} {p : α → Bool}

theorem append_of_span {cs ds rest : List α} (h : cs.span p = (ds, rest)) : ds ++ rest = cs := by
  rw [List.span_eq_takeWhile_dropWhile] at h
  obtain ⟨rfl, rfl⟩ := Prod.mk.inj h
  exact List.takeWhile_append_dropWhile

theorem span_append {ds rest : List α} (hds : ∀ c ∈ ds, p c = true)
    (hrest : ∀ c ∈ rest.head?, p c = false) : (ds ++ rest).span p = (ds, rest) := by
  have hstop : rest.takeWhile p = [] ∧ rest.dropWhile p = rest := by
    cases rest with
    | nil => exact ⟨rfl, rfl⟩
    | cons c rest => simp [hrest c rfl]
  rw [List.span_eq_takeWhile_dropWhile, List.takeWhile_append_of_pos hds,
    List.dropWhile_append_of_pos hds, hstop.1, hstop.2, List.append_nil]

theorem of_span {cs ds rest : List α} (h : cs.span p = (ds, rest)) :
    (∀ c ∈ ds, p c = true) ∧ ∀ c ∈ rest.head?, p c = false := by
  rw [List.span_eq_takeWhile_dropWhile] at h
  obtain ⟨rfl, rfl⟩ := Prod.mk.inj h
  refine ⟨fun c hc => List.all_eq_true.mp List.all_takeWhile c hc, fun c hc => ?_⟩
  have hhead := List.head?_dropWhile_not p cs
  rw [hc] at hhead
  simpa using hhead

end Spans

theorem parts_span (p : Char → Bool) (cs : List Char) : Parts cs (cs.span p) := append_of_span rfl

theorem parts_commentBody (h : commentBody cs = some cut) : Parts cs cut := by
  fun_induction commentBody cs generalizing cut with
  | case1 => cases h
  | case2 rest => cases h; rfl
  | case3 c rest _ ih =>
    obtain ⟨inner, hinner, rfl⟩ := Option.map_eq_some_iff.mp h
    exact (ih hinner).more c

theorem parts_literalBody {quote : Char} (h : literalBody quote cs = some cut) : Parts cs cut := by
  fun_induction literalBody quote cs generalizing cut with
  | case1 => cases h
  | case2 c rest ih =>
    obtain ⟨inner, hinner, rfl⟩ := Option.map_eq_some_iff.mp h
    exact ((ih hinner).more c).more '\\'
  | case3 => cases h; rfl
  | case4 => cases h
  | case5 c rest _ _ _ ih =>
    obtain ⟨inner, hinner, rfl⟩ := Option.map_eq_some_iff.mp h
    exact (ih hinner).more c

theorem opening_cases {quote : Char} {cs first rest : List Char}
    (h : opening quote cs = some (first, rest)) :
    cs = first ++ rest ∧ ∃ mark ∈ [[], ['u', '8'], ['L'], ['u'], ['U']],
    first = mark ++ [quote] := by
  fun_cases opening quote cs <;> simp_all [opening]
  all_goals grind

theorem charLiteral_cases (h : charLiteral cs = some cut) :
    ∃ first rest inner, opening '\'' cs = some (first, rest) ∧ rest.head? ≠ some '\'' ∧
      literalBody '\'' rest = some inner ∧ cut = inFront first inner := by
  simp only [charLiteral, Option.bind_eq_bind, Option.bind_eq_some_iff] at h
  obtain ⟨opened, hopened, h⟩ := h
  split at h
  · cases h
  · rename_i hhead
    obtain ⟨inner, hinner, rfl⟩ := Option.map_eq_some_iff.mp h
    exact ⟨opened.1, opened.2, inner, hopened, by simpa using hhead, hinner, rfl⟩

theorem parts_exponent (cs : List Char) : Parts cs (exponent cs) := by
  fun_cases exponent cs with
  | case2 e rest _ sign digits hsign ds after _ hspan =>
    have hrest : sign ++ digits = rest := by
      split at hsign <;> cases hsign <;> rfl
    simp [Parts, ← hrest, ← append_of_span hspan]
  | case1 | case3 | case4 => rfl

theorem parts_numberSuffix (cs : List Char) : Parts cs (numberSuffix cs) := parts_span _ cs

theorem parts_scaled (cs : List Char) : Parts cs (scaled cs) := by
  have h := (parts_numberSuffix (exponent cs).2).inFront (exponent cs).1
  rwa [parts_exponent cs] at h

theorem parts_decimalNumber (h : decimalNumber cs = some cut) : cut.1 ≠ [] ∧ Parts cs cut := by
  fun_cases decimalNumber cs with
  | case1 rest _ hspan => simp only [decimalNumber, hspan, reduceCtorEq] at h
  | case2 rest ds after hds hspan =>
    obtain rfl : inFront ('.' :: ds) (scaled after) = cut := by
      simpa only [decimalNumber, hspan, Option.some.injEq] using h
    have hfront := (parts_scaled after).inFront ('.' :: ds)
    rw [List.cons_append, append_of_span hspan] at hfront
    exact ⟨by simp [inFront], hfront⟩
  | case3 c rest hdot hc ds after fs tail hfs hds =>
    obtain rfl : inFront (c :: ds ++ '.' :: fs) (scaled tail) = cut := by
      simpa only [decimalNumber, hc, hds, hfs, if_true, Option.some.injEq] using h
    have hfront := (parts_scaled tail).inFront (c :: ds ++ '.' :: fs)
    rw [List.append_assoc, List.cons_append, List.cons_append, append_of_span hfs,
      append_of_span hds] at hfront
    exact ⟨by simp [inFront], hfront⟩
  | case4 c rest hdot hc ds after hafter hds =>
    obtain rfl : inFront (c :: ds) (scaled after) = cut := by
      simpa only [decimalNumber, hc, hds, if_true, Option.some.injEq] using h
    have hfront := (parts_scaled after).inFront (c :: ds)
    rw [List.cons_append, append_of_span hds] at hfront
    exact ⟨by simp [inFront], hfront⟩
  | case5 c rest hdot hc => simp [decimalNumber, hc] at h
  | case6 => cases h

theorem parts_number (h : number cs = some cut) : cut.1 ≠ [] ∧ Parts cs cut := by
  fun_cases number cs with
  | case1 x rest hx _ hspan =>
    exact parts_decimalNumber (by simpa only [number, hx, hspan, if_true] using h)
  | case2 x rest hx ds after hds hspan =>
    obtain rfl : inFront ('0' :: x :: ds) (numberSuffix after) = cut := by
      simpa only [number, hx, hspan, if_true, Option.some.injEq] using h
    have hfront := (parts_numberSuffix after).inFront ('0' :: x :: ds)
    rw [List.cons_append, List.cons_append, append_of_span hspan] at hfront
    exact ⟨by simp [inFront], hfront⟩
  | case3 x rest hx =>
    exact parts_decimalNumber (by simpa [number, hx] using h)
  | case4 cs hcs =>
    rw [number] at h
    · exact parts_decimalNumber h
    · exact hcs

theorem identifier_cases (h : identifier cs = some cut) :
    ∃ c rest, cs = c :: rest ∧ isNameStart c = true ∧ cut = more c (rest.span isNameChar) := by
  fun_cases identifier cs with
  | case1 c rest hc => exact ⟨c, rest, rfl, hc, by simpa [identifier, hc, eq_comm] using h⟩
  | case2 c rest hc => simp [identifier, hc] at h
  | case3 => cases h

theorem append_of_dropStart? {p cs rest : List Char} (h : dropStart? p cs = some rest) :
    p ++ rest = cs := by
  fun_induction dropStart? p cs <;> simp_all

theorem punctuator_cases (h : punctuator cs = some cut) :
    (∃ p ∈ punctuators, p.toList = cut.1) ∧ Parts cs cut := by
  obtain ⟨p, hp, h⟩ := List.exists_of_findSome?_eq_some h
  obtain ⟨rest, hrest, rfl⟩ := Option.map_eq_some_iff.mp h
  exact ⟨⟨p, hp, rfl⟩, append_of_dropStart? hrest⟩

/-- One step of the lexer at the start of a text, by the alternative that was taken. -/
inductive Taken (cs : List Char) : Lexeme → Cut → Prop
  | newline (rest : List Char) (hcs : cs = '\n' :: rest) : Taken cs .newline (['\n'], rest)
  | lineComment (rest : List Char) (hcs : cs = '/' :: '/' :: rest) :
      Taken cs .lineComment (inFront ['/', '/'] (rest.span (· != '\n')))
  | blockComment (rest : List Char) (cut : Cut) (hcs : cs = '/' :: '*' :: rest)
      (hbody : commentBody rest = some cut) : Taken cs .blockComment (inFront ['/', '*'] cut)
  | gap (c : Char) (rest : List Char) (hcs : cs = c :: rest) (hc : isGap c = true) :
      Taken cs .gap (more c (rest.span isGap))
  | string (first body : List Char) (cut : Cut) (hopening : opening '"' cs = some (first, body))
      (hbody : literalBody '"' body = some cut) : Taken cs (.token .string) (inFront first cut)
  | char (cut : Cut) (hcut : charLiteral cs = some cut) : Taken cs (.token .char) cut
  | number (cut : Cut) (hcut : number cs = some cut) : Taken cs (.token .number) cut
  | ident (cut : Cut) (hcut : identifier cs = some cut) : Taken cs (.token .ident) cut
  | punct (cut : Cut) (hcut : punctuator cs = some cut) : Taken cs (.token .punct) cut

theorem taken_of_lexeme {l : Lexeme} (hcs : cs ≠ []) (h : lexeme cs = .ok (l, cut)) :
    Taken cs l cut := by
  unfold lexeme at h
  split at h
  · exact absurd rfl hcs
  · cases h
    exact .newline _ rfl
  · cases h
    exact .lineComment _ rfl
  · split at h
    · cases h
      exact .blockComment _ _ rfl ‹_›
    · cases h
  · split at h
    · cases h
      exact .gap _ _ rfl ‹_›
    · split at h
      · split at h
        · cases h
          exact .string _ _ _ ‹_› ‹_›
        · cases h
      · split at h
        · cases h
          exact .char _ ‹_›
        · split at h
          · cases h
            exact .number _ ‹_›
          · split at h
            · cases h
              exact .ident _ ‹_›
            · split at h
              · cases h
                exact .punct _ ‹_›
              · cases h

theorem Taken.parts {l : Lexeme} (h : Taken cs l cut) : cut.1 ≠ [] ∧ Parts cs cut := by
  cases h with
  | newline rest hcs => exact ⟨by simp, hcs.symm⟩
  | lineComment rest hcs =>
    subst hcs
    exact ⟨by simp [Lexer.inFront], (parts_span _ rest).inFront ['/', '/']⟩
  | blockComment rest cut hcs hbody =>
    subst hcs
    exact ⟨by simp [Lexer.inFront], (parts_commentBody hbody).inFront ['/', '*']⟩
  | gap c rest hcs _ =>
    subst hcs
    exact ⟨by simp [Lexer.more], (parts_span _ rest).more c⟩
  | string first body cut hopening hbody =>
    obtain ⟨rfl, mark, -, rfl⟩ := opening_cases hopening
    exact ⟨by simp [Lexer.inFront], (parts_literalBody hbody).inFront _⟩
  | char cut hcut =>
    obtain ⟨first, rest, inner, hopening, -, hinner, rfl⟩ := charLiteral_cases hcut
    obtain ⟨rfl, mark, -, rfl⟩ := opening_cases hopening
    exact ⟨by simp [Lexer.inFront], (parts_literalBody hinner).inFront _⟩
  | number cut hcut => exact parts_number hcut
  | ident cut hcut =>
    obtain ⟨c, rest, rfl, -, rfl⟩ := identifier_cases hcut
    exact ⟨by simp [Lexer.more], (parts_span _ rest).more c⟩
  | punct cut hcut =>
    obtain ⟨⟨p, hp, htext⟩, hparts⟩ := punctuator_cases hcut
    have hne : ∀ p ∈ punctuators, p.toList ≠ [] := by decide
    exact ⟨htext ▸ hne p hp, hparts⟩

/-- In a directive a backslash takes the next character with it, and a line end stands behind
one. -/
def continued : List Char → Bool
  | [] => true
  | '\\' :: _ :: rest => continued rest
  | c :: rest => c != '\\' && c != '\n' && continued rest

theorem directiveBody_cases (cs : List Char) :
    ∃ text rest, directiveBody cs = (text, rest) ∧ cs = text ++ rest ∧ continued text = true ∧
      (rest.head? ∈ [none, some '\n'] ∨ rest = ['\\']) := by
  fun_induction directiveBody cs with
  | case1 => exact ⟨[], [], rfl, rfl, rfl, by simp⟩
  | case2 c rest ih =>
    obtain ⟨text, tail, hbody, rfl, hcont, hend⟩ := ih
    exact ⟨'\\' :: c :: text, tail, by rw [hbody]; rfl, rfl, hcont, hend⟩
  | case3 c rest hnot hc =>
    refine ⟨[], c :: rest, rfl, rfl, rfl, ?_⟩
    cases rest <;> simp_all [or_comm]
  | case4 c rest _ hc ih =>
    obtain ⟨text, tail, hbody, rfl, hcont, hend⟩ := ih
    refine ⟨c :: text, tail, by rw [hbody]; rfl, rfl, ?_, hend⟩
    simp at hc
    rw [continued]
    · simp_all
    · grind

theorem directive?_cases (h : directive? cs = some cut) :
    ∃ gap text, cut.1 = gap ++ '#' :: text ∧ cs = gap ++ '#' :: (text ++ cut.2) ∧
      (∀ c ∈ gap, c = ' ' ∨ c = '\t') ∧ continued text = true ∧
      (cut.2.head? ∈ [none, some '\n'] ∨ cut.2 = ['\\']) := by
  unfold directive? at h
  split at h
  · rename_i gap rest hspan
    cases h
    obtain ⟨text, tail, hbody, rfl, hcont, hend⟩ := directiveBody_cases rest
    refine ⟨gap, text, by simp [inFront, hbody], ?_, ?_,
      hcont, by simpa [hbody, inFront] using hend⟩
    · simp [hbody, inFront, append_of_span hspan]
    · intro c hc
      simpa using (of_span hspan).1 c hc
  · cases h

end JniContracts.Lexer
