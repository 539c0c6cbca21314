import JniContracts.Proofs.Rendering.Rereading

/-!
Texts that are one expression: what is read from the words of a text is read from the text.
-/

namespace JniContracts

open Rendering Lexer

namespace Brackets

def BalancedWords (ws : List Word) : Prop := ∀ ts : List Token, ts.map Token.word = ws → Balanced ts

section Words

variable {ws ws' : List Word}

theorem BalancedWords.nil : BalancedWords [] := by
  intro ts hts
  rw [List.map_eq_nil_iff.mp hts]
  exact .nil

theorem BalancedWords.append (h : BalancedWords ws) (h' : BalancedWords ws') :
    BalancedWords (ws ++ ws') := by
  intro ts hts
  obtain ⟨front, back, rfl, hfront, hback⟩ := List.map_eq_append_iff.mp hts
  exact (h front hfront).append (h' back hback)

def isInert (w : Word) : Bool :=
  !(w.1 == .punct && (["(", "[", "\x7b"].contains w.2 || [")", "]", "\x7d"].contains w.2))

theorem BalancedWords.cons {w : Word} (hw : isInert w = true) (h : BalancedWords ws) :
    BalancedWords (w :: ws) := by
  intro ts hts
  obtain ⟨t, rest, rfl, rfl, hrest⟩ := List.map_eq_cons_iff.mp hts
  simp only [isInert, Token.word, Bool.and_or_distrib_left, Bool.not_or, Bool.and_eq_true,
    Bool.not_eq_true'] at hw
  refine .token ?_ hw.2 (h rest hrest)
  rw [← Option.not_isSome_iff_eq_none, isSome_closer?, Bool.not_eq_true]
  exact hw.1

theorem balancedWords_of_inert (h : ∀ w ∈ ws, isInert w = true) : BalancedWords ws := by
  induction ws with
  | nil => exact .nil
  | cons w ws ih =>
    exact .cons (h w List.mem_cons_self) (ih fun v hv => h v (List.mem_cons_of_mem _ hv))

theorem BalancedWords.group (h : BalancedWords ws) {o e : String}
    (hpair : (o, e) ∈ [("(", ")"), ("[", "]")]) :
    BalancedWords ((TokenKind.punct, o) :: (ws ++ [(TokenKind.punct, e)])) := by
  intro ts hts
  obtain ⟨t, rest, rfl, ht, hrest⟩ := List.map_eq_cons_iff.mp hts
  obtain ⟨inner, back, rfl, hinner, hback⟩ := List.map_eq_append_iff.mp hrest
  obtain ⟨u, none', rfl, hu, hnil⟩ := List.map_eq_cons_iff.mp hback
  rw [List.map_eq_nil_iff.mp hnil]
  have hkind : t.kind = .punct ∧ u.kind = .punct := ⟨congrArg Prod.fst ht, congrArg Prod.fst hu⟩
  have htext : t.text = o ∧ u.text = e := ⟨congrArg Prod.snd ht, congrArg Prod.snd hu⟩
  have hboth : (o = "(" ∧ e = ")") ∨ (o = "[" ∧ e = "]") := by simpa using hpair
  refine .group (closer?_eq_some.mpr ⟨hkind.1, ?_⟩) ?_ (h inner hinner) .nil
  · rw [htext.1, htext.2]
    exact hboth.imp_right .inl
  · rw [isCloser, Token.isPunctOf, hkind.2, htext.2]
    obtain ⟨-, rfl⟩ | ⟨-, rfl⟩ := hboth <;> rfl

theorem balancedWords_comma {lists : List (List Word)} (h : ∀ ws ∈ lists, BalancedWords ws) :
    BalancedWords (Expr.commaWords lists) := by
  induction lists with
  | nil => exact .nil
  | cons ws lists ih =>
    have hws := h ws List.mem_cons_self
    have hrest := ih fun v hv => h v (List.mem_cons_of_mem _ hv)
    cases lists with
    | nil => exact hws
    | cons v lists => exact hws.append (.cons rfl hrest)

end Words

end Brackets

namespace Parse

section WholeTexts

variable {c : Context} {pointers : List String} {text : String} {ws : List Word}

theorem tokens_of_contextOf {source : String} {types : List String} {tokens : List Token}
    (h : contextOf source types = .ok c) (ht : tokenize source = .ok tokens) :
    c.tokens = tokens.toArray := by
  rw [contextOf, ht] at h
  simp only [bind, Except.bind, Context.ofTokens] at h
  split at h
  · cases h
  · cases h
    rfl

theorem shows_of_tokens {ts : List Token} {i : Nat}
    (h : ∀ k t, ts[k]? = some t → c.tokenAt (i + k) = t) : c.Shows i (ts.map Token.word) := by
  induction ts generalizing i with
  | nil => trivial
  | cons t ts ih =>
    refine ⟨congrArg Token.word (h 0 t rfl), ih fun k u hk => ?_⟩
    have htoken := h (k + 1) u hk
    rwa [← Nat.add_assoc, Nat.add_right_comm] at htoken

/-- A text that is cut into words with balanced brackets has a context, in which the words stand up
to the end of input. -/
theorem context_of_words (hcuts : Cuts text.toList ws [])
    (hstart : ∀ c ∈ text.toList.head?, isGap c = false ∧ c ≠ '#')
    (hbalanced : Brackets.BalancedWords ws) (types pointers : List String) :
    ∃ c, contextOf text types = .ok c ∧ Faces c pointers ⟨0, [], pointers⟩ ws (·.kind = .eof) := by
  obtain ⟨ts, q, htokens, rfl⟩ := tokenize_of_cuts hcuts hstart
  have hall : Brackets.Balanced (ts ++ [⟨.eof, "", q⟩]) :=
    (hbalanced ts rfl).append (.token rfl rfl .nil)
  obtain ⟨c, hc⟩ := (contextOf_ok_iff types).mpr ⟨_, htokens, hall⟩
  have hc' := tokens_of_contextOf hc htokens
  have hat : ∀ k t, (ts ++ [⟨.eof, "", q⟩])[k]? = some t → c.tokenAt k = t := fun k t hk =>
    c.tokenAt_eq (by rw [hc', List.getElem?_toArray, hk])
  refine ⟨c, hc, shows_of_tokens fun k t hk => ?_, ?_, rfl, ?_⟩
  · rw [Nat.zero_add]
    exact hat k t (by rw [List.getElem?_append_left (List.getElem?_eq_some_iff.mp hk).1, hk])
  · simp [hc']
  · rw [Nat.zero_add, List.length_map, hat ts.length ⟨.eof, "", q⟩ (by simp)]

theorem expressionWithin_of_error {levels : Nat} {text : String} {f : Fault}
    (h : contextOf text defaultInterfaceTypes = .error f) :
    expressionWithin levels text pointers = .error (.fault f) := by
  unfold contextOf at h
  unfold expressionWithin
  cases ht : tokenize text with
  | error f' =>
    rw [ht] at h
    cases h
    rfl
  | ok tokens =>
    rw [ht] at h
    simp only [bind, Except.bind] at h
    simp only [Except.mapError, bind, Except.bind, h]

theorem expressionWithin_of_context {levels : Nat} {text : String}
    (h : contextOf text defaultInterfaceTypes = .ok c) :
    expressionWithin levels text pointers =
    (((wholeExpression (Exprs.within levels)).run c).run ⟨0, [], pointers⟩).map Prod.fst := by
  unfold contextOf at h
  unfold expressionWithin
  cases ht : tokenize text with
  | error f =>
    rw [ht] at h
    cases h
  | ok tokens =>
    rw [ht] at h
    simp only [bind, Except.bind] at h
    simp only [Except.mapError, bind, Except.bind, h]
    cases ((wholeExpression (Exprs.within levels)).run c).run ⟨0, [], pointers⟩ with
    | error f => rfl
    | ok r => rfl

/-- What is read from the words of a text is read from the text, unless they nest too deeply. -/
theorem expressionWithin_of_whole {e : Expr} {n : Nat} (hcuts : Cuts text.toList ws [])
    (hstart : ∀ c ∈ text.toList.head?, isGap c = false ∧ c ≠ '#')
    (hbalanced : Brackets.BalancedWords ws)
    (hwhole : ∀ {c E}, c.Matched → Exprs.Whole c E pointers e ws n) (levels : Nat) :
    (∀ e', expressionWithin levels text pointers = .ok e' → e'.bare = e.bare) ∧
    ∀ stop, expressionWithin levels text pointers = .error stop → stop = .tooDeep ∧ levels ≤ n := by
  obtain ⟨c, hc, hfaces⟩ := context_of_words hcuts hstart hbalanced defaultInterfaceTypes pointers
  have hallows : Exprs.Allows (fun stop => stop = .tooDeep ∧ levels ≤ n) levels (n + 1) := by
    by_cases hle : levels ≤ n
    · exact .inr ⟨rfl, hle⟩
    · exact .inl (Nat.lt_of_not_le hle)
  have hend : (c.tokenAt (0 + ws.length)).kind = .eof := hfaces.next
  have hreads :
      Reads c (fun stop => stop = .tooDeep ∧ levels ≤ n) (wholeExpression (Exprs.within levels))
        ⟨0, [], pointers⟩ fun e' _ => e'.bare = e.bare := by
    simp only [wholeExpression, reads_bind, reads_accept, reads_peek, reads_ite, reads_pure,
      reads_failAt]
    refine ((hwhole (matched_of_contextOf hc)).expression hallows
      (hfaces.imp fun t ht => .inl ht)).imp fun e' s' he' => ?_
    obtain ⟨hbare, rfl⟩ := he'
    have hsemicolon : (c.tokenAt (0 + ws.length)).isPunct ";" = false := by
      rw [Token.isPunct, hend]; rfl
    have heof : (c.tokenAt (0 + ws.length)).isEof = true := by rw [Token.isEof, hend]; rfl
    simp only [State.pos_skip, hsemicolon, heof, Bool.false_eq_true, if_false, if_true]
    exact hbare
  rw [expressionWithin_of_context hc]
  cases hrun : ((wholeExpression (Exprs.within levels)).run c).run ⟨0, [], pointers⟩ with
  | error stop =>
    constructor
    · intro e' he'
      cases he'
    · intro stop' hstop
      cases hstop
      exact hreads.of_error hrun
  | ok r =>
    constructor
    · intro e' he'
      cases he'
      exact hreads.of_ok hrun
    · intro stop hstop
      cases hstop

end WholeTexts

end Parse

end JniContracts
