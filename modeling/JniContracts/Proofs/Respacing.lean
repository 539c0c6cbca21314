import JniContracts.Proofs.Gathering
import JniContracts.Proofs.Words

/-!
Spacing between tokens. The texts of tokens, put together with single blanks, are cut into the same
tokens again: a blank goes on with no token, and the first token of a text starts no directive.
-/

namespace JniContracts

namespace Lexer

open Rendering

def SetOff (r : List Char) : Prop := ∀ c ∈ r.head?, c = ' '

theorem SetOff.breaks {r : List Char} (h : SetOff r) : Breaks r := by
  intro c hc
  rw [h c hc]
  exact ⟨rfl, by decide, by decide⟩

theorem fits_cases {kind : TokenKind} {t : List Char} (hkind : kind ≠ .eof) (ht : Fits kind t) :
    (kind = .ident ∧ WordText t) ∨
    (∃ literal : LiteralKind, kind = literal.token ∧ LiteralText literal t) ∨
    kind = .punct ∧ ∃ p ∈ punctuators, p.toList = t := by
  cases kind with
  | ident => exact .inl ⟨rfl, ht⟩
  | number => exact .inr (.inl ⟨.number, rfl, ht⟩)
  | string => exact .inr (.inl ⟨.string, rfl, ht⟩)
  | char => exact .inr (.inl ⟨.char, rfl, ht⟩)
  | punct => exact .inr (.inr ⟨rfl, ht⟩)
  | eof => exact absurd rfl hkind

/-- A text that has the form of a kind of token is read as one where it is set off. -/
theorem lexeme_of_fits {kind : TokenKind} {t r : List Char} (hkind : kind ≠ .eof) (ht : Fits kind t)
    (hr : SetOff r) : lexeme (t ++ r) = .ok (.token kind, t, r) := by
  obtain ⟨rfl, hword⟩ | ⟨literal, rfl, hliteral⟩ | ⟨rfl, p, hp, rfl⟩ := fits_cases hkind ht
  · have hname : ∀ c ∈ t, isQualifiedChar c = true := by
      obtain ⟨c, rest, rfl, hc, hrest⟩ := hword
      intro d hd
      obtain rfl | hd := List.mem_cons.mp hd
      · exact isQualifiedChar_of_isNameChar (isNameChar_of_isNameStart hc)
      · exact isQualifiedChar_of_isNameChar (hrest d hd)
    refine lexeme_word hword (fun c hc => by rw [hr c hc]; rfl)
      fun quote hquote => opening_word ?_ hname hr.breaks
    simpa using hquote
  · exact lexeme_literal hliteral hr.breaks fun _ hc => absurd (hr '.' hc) (by decide)
  · have halone : Alone p r := by
      cases r with
      | nil => exact alone_of_head fun c hc => by cases hc
      | cons c r =>
        cases hr c rfl
        exact alone_of_blank p r
    exact lexeme_punct hp halone (fun _ c hc => by rw [hr c hc]; rfl) fun _ c hc => by
      rw [hr c hc]; decide

theorem head_of_fits {kind : TokenKind} {t : List Char} (hkind : kind ≠ .eof) (ht : Fits kind t) :
    ∃ c rest, t = c :: rest ∧ isGap c = false := by
  obtain ⟨rfl, c, rest, rfl, hc, -⟩ | ⟨literal, rfl, hliteral⟩ | ⟨rfl, p, hp, rfl⟩ :=
    fits_cases hkind ht
  · exact ⟨c, rest, rfl, (solid_of_isNameChar (isNameChar_of_isNameStart hc) c rest rfl).2.1⟩
  · obtain ⟨c, rest, rfl, hc | hc⟩ := start_literalText hliteral
    · exact ⟨c, rest, rfl, (solid_of_isNameChar hc c rest rfl).2.1⟩
    · refine ⟨c, rest, rfl, ?_⟩
      simp only [List.mem_cons, List.not_mem_nil, or_false] at hc
      obtain rfl | rfl | rfl := hc <;> rfl
  · obtain ⟨c, rest, htext, -, -, hgap, -⟩ := head_punctuator hp
    exact ⟨c, rest, htext, hgap⟩

theorem head_spaced (text : String) (texts : List String) (h : text.toList ≠ []) :
    (" ".intercalate (text :: texts)).toList.head? = text.toList.head? := by
  cases texts with
  | nil => rw [String.intercalate_singleton]
  | cons u us =>
    rw [String.intercalate_cons_cons, String.toList_append, String.toList_append, List.append_assoc,
      List.head?_append_of_ne_nil _ h]

theorem cuts_spaced {ts : List Token} (h : ∀ t ∈ ts, t.kind ≠ .eof ∧ Fits t.kind t.text.toList) :
    Cuts (" ".intercalate (ts.map Token.text)).toList (ts.map Token.word) [] := by
  induction ts with
  | nil => exact .done []
  | cons t ts ih =>
    obtain ⟨hkind, hfits⟩ := h t List.mem_cons_self
    have hrest := ih fun u hu => h u (List.mem_cons_of_mem _ hu)
    have hword : ∀ {r : List Char}, SetOff r → Cuts r (ts.map Token.word) [] →
        Cuts (t.text.toList ++ r) (t.word :: ts.map Token.word) [] := by
      intro r hr hcuts
      have hcut := Cuts.word (lexeme_of_fits hkind hfits hr) hcuts
      rwa [String.ofList_toList] at hcut
    cases ts with
    | nil =>
      rw [List.map_singleton, String.intercalate_singleton, ← List.append_nil t.text.toList]
      exact hword (fun c hc => by cases hc) (.done [])
    | cons u us =>
      obtain ⟨hkind', hfits'⟩ := h u (by simp)
      obtain ⟨d, rest, htext, hd⟩ := head_of_fits hkind' hfits'
      have hnext :
          ∀ c ∈ (" ".intercalate ((u :: us).map Token.text)).toList.head?, isGap c = false := by
        rw [List.map_cons, head_spaced _ _ (by simp [htext]), htext]
        rintro c ⟨⟩
        exact hd
      rw [List.map_cons, List.map_cons, String.intercalate_cons_cons, String.toList_append,
        String.toList_append, List.append_assoc]
      exact hword (fun c hc => by simpa using hc.symm) (.ofGap hnext hrest)

theorem ne_hash_of_directive? {c : Char} {cs : List Char} (h : directive? (c :: cs) = none) :
    c ≠ '#' := by
  rintro rfl
  have hspan : ('#' :: cs).span (fun c => c == ' ' || c == '\t') = ([], '#' :: cs) :=
    span_of_head (by simp)
  rw [directive?, hspan] at h
  cases h

theorem seen_of_scan {tokens : List Token} (fuel : Nat) (fresh : Bool) (p : Pos) (seen : List Token)
    (cs : List Char) (h : scan fuel fresh p seen cs = .ok tokens) : seen.reverse <+: tokens := by
  induction fuel generalizing fresh p seen cs with
  | zero =>
    cases h
    exact ⟨_, List.reverse_cons.symm⟩
  | succ fuel ih =>
    cases cs with
    | nil =>
      cases h
      exact ⟨_, List.reverse_cons.symm⟩
    | cons c cs =>
      rw [scan] at h
      · split at h
        · exact ih _ _ _ _ h
        · split at h
          · cases h
          · have hmore := ih _ _ _ _ h
            rw [List.reverse_cons] at hmore
            exact (List.prefix_append _ _).trans hmore
          · exact ih _ _ _ _ h
      · simp

/-- A number sign at the start of a line belongs to a directive, so no text has one as its first
token. -/
theorem first_of_scan {tokens : List Token} (fuel : Nat) (p : Pos) (cs : List Char)
    (h : scan fuel true p [] cs = .ok tokens) :
    ∀ t ∈ tokens.head?, t.text.toList.head? ≠ some '#' := by
  induction fuel generalizing p cs with
  | zero =>
    cases h
    rintro t ⟨⟩
    simp
  | succ fuel ih =>
    cases cs with
    | nil =>
      cases h
      rintro t ⟨⟩
      simp
    | cons c cs =>
      rw [scan] at h
      · split at h
        · exact ih _ _ h
        · rename_i hdirective
          split at h
          · cases h
          · rename_i kind text rest hlexeme
            obtain ⟨hne, hparts⟩ := (taken_of_lexeme (by simp) hlexeme).parts
            obtain ⟨later, rfl⟩ := seen_of_scan _ _ _ _ _ h
            rintro t ⟨⟩
            rw [String.toList_ofList]
            cases text with
            | nil => exact absurd rfl hne
            | cons d text =>
              obtain ⟨rfl, -⟩ := List.cons.inj hparts
              simpa using ne_hash_of_directive? hdirective
          · exact ih _ _ h
      · simp

end Lexer

/-- Every text that is read as tokens can be written with single blanks between them: the texts of
its tokens, joined so, are read again, as tokens of the same kinds and texts. -/
theorem tokenize_respaced {source : String} {tokens : List Token}
    (h : tokenize source = .ok tokens) :
    ∃ front q again q', tokens = front ++ [⟨.eof, "", q⟩] ∧
      tokenize (" ".intercalate (front.map Token.text)) = .ok (again ++ [⟨.eof, "", q'⟩]) ∧
      again.map Token.word = front.map Token.word := by
  obtain ⟨front, q, rfl, hfits⟩ := Lexer.fits_of_scan _ _ _ [] _ (by simp) h
  refine ⟨front, q, ?_⟩
  have hstart :
      ∀ c ∈ (" ".intercalate (front.map Token.text)).toList.head?, Lexer.isGap c = false ∧
      c ≠ '#' := by
    cases front with
    | nil => simp
    | cons t front =>
      obtain ⟨hkind, ht⟩ := hfits t List.mem_cons_self
      obtain ⟨c, rest, htext, hc⟩ := Lexer.head_of_fits hkind ht
      have hhash := Lexer.first_of_scan _ _ _ h t rfl
      rw [List.map_cons, Lexer.head_spaced _ _ (by simp [htext])]
      rw [htext] at hhash ⊢
      rintro d ⟨⟩
      exact ⟨hc, by simpa using hhash⟩
  obtain ⟨again, q', htokens, hwords⟩ := Lexer.tokenize_of_cuts (Lexer.cuts_spaced hfits) hstart
  exact ⟨again, q', rfl, htokens, hwords⟩

def crowded : String := "#define A 1\nint x=a+++b; // ++\n/* # */f(L\"é\",.5e-3,p->q)#B"

theorem tokenize_respaced_crowded : ∃ tokens, tokenize crowded = .ok tokens ∧
    ∃ front q again q', tokens = front ++ [⟨.eof, "", q⟩] ∧
      tokenize (" ".intercalate (front.map Token.text)) = .ok (again ++ [⟨.eof, "", q'⟩]) ∧
      again.map Token.word = front.map Token.word := by
  obtain ⟨tokens, h, -⟩ :=
    exists_of_any (x := tokenize crowded) (p := fun _ => true) (by decide +kernel)
  exact ⟨tokens, h, tokenize_respaced h⟩

end JniContracts
