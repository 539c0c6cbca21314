import JniContracts.Proofs.Lexemes
import Mathlib.Data.List.Basic
import Mathlib.Data.List.Induction

/-!
Where the tokens of a text stand. The texts of the tokens and what is skipped between them make up
the source, and the place of a token is counted over what stands in front of it. A literal that goes
on over a line end is the exception: its lines are not counted, so every token behind it is placed
too high.
-/

namespace JniContracts

/-- The place of what follows `front`: one line more than there are line ends, and one column more
than there are characters behind the last of them. -/
def Pos.behind (front : List Char) : Pos :=
  ⟨front.count '\n' + 1, (front.reverse.takeWhile (· != '\n')).length + 1⟩

namespace Lexer

theorem after_append (p : Pos) (front back : List Char) :
    after p (front ++ back) = after (after p front) back := by
  induction front generalizing p with
  | nil => rfl
  | cons c front ih => exact ih _

theorem after_start (front : List Char) : after ⟨1, 1⟩ front = Pos.behind front := by
  induction front using List.reverseRecOn with
  | nil => rfl
  | append_singleton front c ih =>
    rw [after_append, ih]
    by_cases hc : c = '\n' <;> simp [after, Pos.behind, hc, List.count_append]

theorem after_of_not_mem {text : List Char} (p : Pos) (h : '\n' ∉ text) :
    after p text = along p text := by
  induction text generalizing p with
  | nil => rfl
  | cons c text ih =>
    obtain ⟨hc, htext⟩ : c ≠ '\n' ∧ '\n' ∉ text := by simpa [eq_comm] using h
    rw [after, ih _ htext]
    simp [along, hc, Nat.add_assoc, Nat.add_comm 1]

/-- The text as the lexer counts a token: on one line. -/
def flat (text : List Char) : List Char := text.map fun c => if c = '\n' then ' ' else c

theorem not_mem_flat (text : List Char) : '\n' ∉ flat text := by
  rw [flat, List.mem_map]
  rintro ⟨c, -, hc⟩
  split at hc
  · cases hc
  · contradiction

theorem after_flat (p : Pos) (text : List Char) : after p (flat text) = along p text := by
  rw [after_of_not_mem p (not_mem_flat text)]
  simp [along, flat]

theorem flat_eq_self {text : List Char} (h : '\n' ∉ text) : flat text = text := by
  refine (List.map_congr_left fun c hc => ?_).trans (List.map_id text)
  have hne : c ≠ '\n' := fun heq => h (heq ▸ hc)
  rw [if_neg hne, id]

/-- From the first text one gets to the second without passing a token. The flag says that no token
stands in front on the line, and only there a directive can start. -/
inductive Skips : Bool → List Char → List Char → Prop
  | stay {fresh : Bool} {cs : List Char} : Skips fresh cs cs
  | blank {fresh : Bool} {c : Char} {cs rest : List Char} (hc : isGap c = true)
      (h : Skips fresh cs rest) : Skips fresh (c :: cs) rest
  | newline {fresh : Bool} {cs rest : List Char} (h : Skips true cs rest) :
      Skips fresh ('\n' :: cs) rest
  | lineComment {fresh : Bool} {text cs rest : List Char} (htext : '\n' ∉ text)
      (hend : cs.head? ∈ [none, some '\n']) (h : Skips fresh cs rest) :
      Skips fresh ('/' :: '/' :: (text ++ cs)) rest
  | blockComment {fresh : Bool} {text cs rest : List Char} (htext : ¬ ['*', '/'] <:+: text)
      (h : Skips fresh cs rest) : Skips fresh ('/' :: '*' :: (text ++ '*' :: '/' :: cs)) rest
  | directive {gap text cs rest : List Char} (hgap : ∀ c ∈ gap, c = ' ' ∨ c = '\t')
      (htext : continued text = true) (hend : cs.head? ∈ [none, some '\n'] ∨ cs = ['\\'])
      (h : Skips true cs rest) : Skips true (gap ++ '#' :: (text ++ cs)) rest

theorem Skips.blanks {fresh : Bool} {gap cs rest : List Char} (hgap : ∀ c ∈ gap, isGap c = true)
    (h : Skips fresh cs rest) : Skips fresh (gap ++ cs) rest := by
  induction gap with
  | nil => exact h
  | cons c gap ih =>
    exact .blank (hgap c List.mem_cons_self) (ih fun c hc => hgap c (List.mem_cons_of_mem _ hc))

theorem commentBody_cases {cs : List Char} {cut : Cut} (h : commentBody cs = some cut) :
    ∃ text, cut.1 = text ++ ['*', '/'] ∧ ¬ ['*', '/'] <:+: text := by
  fun_induction commentBody cs generalizing cut with
  | case1 => cases h
  | case2 rest =>
    cases h
    exact ⟨[], rfl, by simp⟩
  | case3 c rest hnot ih =>
    obtain ⟨inner, hinner, rfl⟩ := Option.map_eq_some_iff.mp h
    obtain ⟨text, htext, hnone⟩ := ih hinner
    refine ⟨c :: text, congrArg (c :: ·) htext, fun hinfix => ?_⟩
    obtain hstart | hinside := List.infix_cons_iff.mp hinfix
    · obtain ⟨rfl, tail, rfl⟩ := List.cons_prefix_cons.mp hstart
      have hparts : inner.1 ++ inner.2 = rest := parts_commentBody hinner
      rw [htext] at hparts
      exact hnot _ rfl hparts.symm
    · exact hnone hinside

theorem Taken.skips {cs : List Char} {l : Lexeme} {cut : Cut} (h : Taken cs l cut)
    (hl : ∀ kind, l ≠ .token kind) :
    (∀ p, l.passed p cut.1 = after p cut.1) ∧
    ∀ fresh rest, Skips (fresh || l == .newline) cut.2 rest → Skips fresh cs rest := by
  have same : ∀ fresh, l ≠ .newline → (fresh || l == .newline) = fresh :=
    fun fresh hl => by simp [hl]
  cases h with
  | newline rest hcs =>
    subst hcs
    exact ⟨fun p => rfl, fun fresh tail hskips => .newline (by simpa using hskips)⟩
  | lineComment rest hcs =>
    subst hcs
    cases hspan : rest.span (· != '\n') with
    | mk text tail =>
      obtain ⟨htext, htail⟩ := of_span hspan
      have hnone : '\n' ∉ text := fun hmem => by simpa using htext _ hmem
      refine ⟨fun p => (after_of_not_mem p ?_).symm, fun fresh rest' hskips => ?_⟩
      · simpa [inFront] using hnone
      · rw [← append_of_span hspan]
        rw [same fresh (by simp)] at hskips
        refine .lineComment hnone ?_ hskips
        cases tail with
        | nil => simp
        | cons c tail =>
          have hc := htail c rfl
          simpa using hc
  | blockComment rest body hcs hbody =>
    subst hcs
    refine ⟨fun p => rfl, fun fresh tail hskips => ?_⟩
    obtain ⟨text, htext, hnone⟩ := commentBody_cases hbody
    have hparts : body.1 ++ body.2 = rest := parts_commentBody hbody
    rw [htext, List.append_assoc] at hparts
    rw [← hparts]
    rw [same fresh (by simp)] at hskips
    exact .blockComment hnone hskips
  | gap c rest hcs hc =>
    subst hcs
    cases hspan : rest.span isGap with
    | mk text tail =>
      have htext := (of_span hspan).1
      have hnone : '\n' ∉ c :: text := fun hmem => by
        obtain rfl | hmem := List.mem_cons.mp hmem
        · cases hc
        · cases htext _ hmem
      refine ⟨fun p => (after_of_not_mem p hnone).symm, fun fresh rest' hskips => ?_⟩
      rw [← append_of_span hspan]
      rw [same fresh (by simp)] at hskips
      exact .blank hc (.blanks htext hskips)
  | string | char | number | ident | punct => exact absurd rfl (hl _)

structure Piece where
  skipped : List Char
  token : Token

namespace Piece

def text (x : Piece) : List Char := x.skipped ++ x.token.text.toList

def counted (x : Piece) : List Char := x.skipped ++ flat x.token.text.toList

/-- Each token stands behind what is skipped from the end of the one before, and its place is
counted from there. -/
def Placed : Bool → Pos → List Piece → Prop
  | _, _, [] => True
  | fresh, p, x :: rest =>
    Skips fresh (x.text ++ rest.flatMap text) (x.token.text.toList ++ rest.flatMap text) ∧
      x.token.pos = after p x.skipped ∧ Placed false (after p x.counted) rest

theorem Placed.at {fresh : Bool} {p : Pos} {before rest : List Piece} {x : Piece}
    (h : Placed fresh p (before ++ x :: rest)) :
    Skips (before.isEmpty && fresh) (x.text ++ rest.flatMap text) (x.token.text.toList ++
      rest.flatMap text) ∧ x.token.pos = after p (before.flatMap counted ++ x.skipped) := by
  induction before generalizing fresh p with
  | nil => exact ⟨h.1, h.2.1⟩
  | cons y before ih =>
    obtain ⟨hskips, hpos⟩ := ih h.2.2
    rw [Bool.and_false] at hskips
    rw [List.flatMap_cons, List.append_assoc, after_append]
    exact ⟨hskips, hpos⟩

def Yields (fresh : Bool) (p : Pos) (cs : List Char) (tokens : List Token) : Prop :=
  ∃ x rest, (x :: rest).map token = tokens ∧ (x :: rest).flatMap text = cs ∧
    Placed fresh p (x :: rest)

theorem Yields.nothing (fresh : Bool) (p : Pos) : Yields fresh p [] [⟨.eof, "", p⟩] :=
  ⟨⟨[], ⟨.eof, "", p⟩⟩, [], rfl, rfl, .stay, rfl, trivial⟩

theorem Yields.token {fresh : Bool} {p : Pos} {cs : List Char} {tokens : List Token}
    (kind : TokenKind) (text : List Char) (h : Yields false (along p text) cs tokens) :
    Yields fresh p (text ++ cs) (⟨kind, String.ofList text, p⟩ :: tokens) := by
  obtain ⟨x, rest, rfl, rfl, hplaced⟩ := h
  refine ⟨⟨[], ⟨kind, String.ofList text, p⟩⟩, x :: rest, rfl, by simp [Piece.text], ?_, rfl, ?_⟩
  · exact .stay
  · simpa [counted, after_flat] using hplaced

theorem Yields.skip {fresh fresh' : Bool} {p : Pos} {text cs : List Char} {tokens : List Token}
    (hskip : ∀ rest, Skips fresh' cs rest → Skips fresh (text ++ cs) rest)
    (h : Yields fresh' (after p text) cs tokens) : Yields fresh p (text ++ cs) tokens := by
  obtain ⟨x, rest, rfl, rfl, hskips, hpos, hrest⟩ := h
  refine ⟨⟨text ++ x.skipped, x.token⟩, rest, rfl, ?_, ?_, ?_, ?_⟩
  · simp [Piece.text]
  · simpa [Piece.text] using hskip _ (by simpa using hskips)
  · rw [after_append]
    exact hpos
  · simpa [counted, after_append] using hrest

end Piece

theorem yields_of_scan {tokens : List Token} (fuel : Nat) (fresh : Bool) (p : Pos)
    (seen : List Token) (cs : List Char) (hfuel : cs.length ≤ fuel)
    (h : scan fuel fresh p seen cs = .ok tokens) :
    ∃ found, tokens = seen.reverse ++ found ∧ Piece.Yields fresh p cs found := by
  induction fuel generalizing fresh p seen cs with
  | zero =>
    obtain rfl : cs = [] := List.eq_nil_of_length_eq_zero (by omega)
    cases h
    exact ⟨_, List.reverse_cons, .nothing fresh p⟩
  | succ fuel ih =>
    cases cs with
    | nil =>
      cases h
      exact ⟨_, List.reverse_cons, .nothing fresh p⟩
    | cons c cs =>
      have shorter :
          ∀ {text rest : List Char}, text ≠ [] → text ++ rest = c :: cs → rest.length ≤ fuel := by
        intro text rest hne hparts
        have hlength := congrArg List.length hparts
        have hpos := List.length_pos_iff.mpr hne
        simp only [List.length_append, List.length_cons] at hlength hfuel
        omega
      rw [scan] at h
      · split at h
        · -- directives are looked for at the start of a line only
          rename_i text rest hdirective
          cases fresh with
          | false => cases hdirective
          | true =>
            obtain ⟨gap, body, htext, hcs, hgap, hbody, hend⟩ := directive?_cases hdirective
            simp only at htext hcs hend
            have hparts : text ++ rest = c :: cs := by simp [hcs, htext]
            obtain ⟨found, rfl, hfound⟩ := ih _ _ _ rest (shorter (by simp [htext]) hparts) h
            refine ⟨found, rfl, ?_⟩
            rw [← hparts]
            refine hfound.skip fun tail hskips => ?_
            rw [hparts, hcs]
            exact .directive hgap hbody hend hskips
        · split at h
          · cases h
          · rename_i kind text rest hlexeme
            obtain ⟨hne, hparts⟩ := (taken_of_lexeme (by simp) hlexeme).parts
            obtain ⟨found, rfl, hfound⟩ := ih _ _ _ rest (shorter hne hparts) h
            rw [List.reverse_cons, ← List.append_cons]
            refine ⟨_, rfl, ?_⟩
            rw [← hparts]
            exact hfound.token kind text
          · rename_i l text rest hl hlexeme
            have htaken := taken_of_lexeme (by simp) hlexeme
            obtain ⟨hne, hparts⟩ := htaken.parts
            obtain ⟨hpassed, hskips⟩ := htaken.skips hl
            obtain ⟨found, rfl, hfound⟩ := ih _ _ _ rest (shorter hne hparts) h
            refine ⟨found, rfl, ?_⟩
            rw [← hparts]
            refine Piece.Yields.skip (fun tail htail => ?_) (hpassed p ▸ hfound)
            rw [hparts]
            exact hskips fresh tail htail
      · simp

theorem Piece.counted_eq_text {before : List Piece} (h : ∀ y ∈ before, '\n' ∉ y.token.text.toList) :
    before.flatMap counted = before.flatMap text :=
  List.flatMap_congr fun y hy => congrArg (y.skipped ++ ·) (flat_eq_self (h y hy))

/-- The lines of tokens are what the counted text lacks. -/
theorem Piece.count_counted (before : List Piece) :
    (before.flatMap counted).count '\n' + (before.flatMap (·.token.text.toList)).count '\n' =
      (before.flatMap text).count '\n' := by
  induction before with
  | nil => rfl
  | cons y before ih =>
    have hflat := List.count_eq_zero.mpr (not_mem_flat y.token.text.toList)
    simp only [List.flatMap_cons, List.count_append, counted, text, hflat]
    omega

end Lexer

open Lexer in
/-- A text is made of its tokens and what is skipped in front of each. A token is at the line and
the column of its first character in the source if no token in front of it runs over a line end, and
only then. -/
theorem token_places {source : String} {tokens : List Token} (h : tokenize source = .ok tokens) :
    ∃ pieces : List Piece, pieces.map (·.token) = tokens ∧
      pieces.flatMap Piece.text = source.toList ∧
      ∀ before x rest, pieces = before ++ x :: rest →
        Skips before.isEmpty (x.text ++ rest.flatMap Piece.text)
          (x.token.text.toList ++ rest.flatMap Piece.text) ∧
        (x.token.pos = Pos.behind (before.flatMap Piece.text ++ x.skipped) ↔
          ∀ y ∈ before, '\n' ∉ y.token.text.toList) := by
  obtain ⟨found, htokens, first, pieces, hfound, hsource, hplaced⟩ :=
    yields_of_scan _ _ _ _ _ (Nat.le_refl _) h
  refine ⟨first :: pieces, hfound.trans htokens.symm, hsource, fun before x rest hpieces => ?_⟩
  rw [hpieces] at hplaced
  obtain ⟨hskips, hpos⟩ := hplaced.at
  rw [after_start] at hpos
  refine ⟨by simpa using hskips, fun htrue y hy hmem => ?_, fun hnone => ?_⟩
  · have hline := congrArg Pos.line (hpos.symm.trans htrue)
    have hcount := Piece.count_counted before
    have hpositive : 0 < (before.flatMap (·.token.text.toList)).count '\n' :=
      List.count_pos_iff.mpr (List.mem_flatMap.mpr ⟨y, hy, hmem⟩)
    simp only [Pos.behind, List.count_append] at hline
    omega
  · rw [hpos, Piece.counted_eq_text hnone]

def literalOnTwoLines : String := "\"a\\\nb\" c"

/-- The name stands on the second line and is placed on the first. -/
theorem token_place_behind_literal :
    tokenize literalOnTwoLines =
      .ok [⟨.string, "\"a\\\nb\"", ⟨1, 1⟩⟩, ⟨.ident, "c", ⟨1, 8⟩⟩, ⟨.eof, "", ⟨1, 9⟩⟩] ∧
    literalOnTwoLines.toList = "\"a\\\nb\" ".toList ++ "c".toList ∧
    Pos.behind "\"a\\\nb\" ".toList = ⟨2, 4⟩ := by decide +kernel

theorem token_places_twoLines :
    tokenize literalOnTwoLines =
      .ok [⟨.string, "\"a\\\nb\"", ⟨1, 1⟩⟩, ⟨.ident, "c", ⟨1, 8⟩⟩, ⟨.eof, "", ⟨1, 9⟩⟩] ∧
    ∃ pieces : List Lexer.Piece, pieces.flatMap Lexer.Piece.text = literalOnTwoLines.toList ∧
      ∀ before x rest, pieces = before ++ x :: rest →
        (x.token.pos = Pos.behind (before.flatMap Lexer.Piece.text ++ x.skipped) ↔
          ∀ y ∈ before, '\n' ∉ y.token.text.toList) := by
  have htokens : tokenize literalOnTwoLines =
      .ok [⟨.string, "\"a\\\nb\"", ⟨1, 1⟩⟩, ⟨.ident, "c", ⟨1, 8⟩⟩, ⟨.eof, "", ⟨1, 9⟩⟩] := by
      decide +kernel
  obtain ⟨pieces, -, hsource, hplaces⟩ := token_places htokens
  exact ⟨htokens, pieces, hsource, fun before x rest hpieces => (hplaces before x rest hpieces).2⟩

end JniContracts
