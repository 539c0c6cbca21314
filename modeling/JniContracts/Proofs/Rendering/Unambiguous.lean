import JniContracts.Proofs.Rendering.WholeTexts

/-!
Printing and reading. An expression that was read, and whose text has one reading, is read again
from its text: the same expression up to places, with its interface calls spelled through the
pointer.
-/

namespace JniContracts

open Rendering Lexer

namespace Expr

mutual
/-- Built from names without qualifiers of pointers, literals, members of what is no number,
indexing, calls, steps behind, operators other than the comma, conditionals, and assignments to what
is neither an assignment nor a conditional. Of an interface call through a function table only the
own arguments count. -/
def isUnambiguous : Expr → Bool
  | name n _ => (pathOf n).all fun w => !Parse.pointerQualifiers.contains w
  | literal .. => true
  | member o _ _ _ => o.isUnambiguous && !o.isNumber
  | index o i _ => o.isUnambiguous && i.isUnambiguous
  | call f args via _ =>
    if via && f.tablePointer?.isSome then ((unambiguousAll args).drop 1).all id
    else f.isUnambiguous && (unambiguousAll args).all id
  | unary op e .behind _ => (op == .incr || op == .decr) && e.isUnambiguous
  | binary op l r _ => op != .comma && l.isUnambiguous && r.isUnambiguous
  | conditional c x y _ => c.isUnambiguous && x.isUnambiguous && y.isUnambiguous
  | assign _ t v _ => t.isUnambiguous && v.isUnambiguous && !t.isAssign && !t.isConditional
  | ellipsis .. | unary _ _ .before _ | cast .. | initList .. | verbatim .. => false

def unambiguousAll : List Expr → List Bool
  | [] => []
  | e :: es => e.isUnambiguous :: unambiguousAll es
end

def isKnownCall (pointers : List String) : Expr → Bool
  | call f _ true _ => f.receiver?.all fun r => pointers.contains r || Parse.isHole r
  | _ => true

theorem unambiguousAll_eq (es : List Expr) : unambiguousAll es = es.map isUnambiguous := by
  induction es with
  | nil => rfl
  | cons e es ih => rw [unambiguousAll, ih, List.map_cons]

section Uniform

variable {pointers : List String} {e f : Expr} {args own : List Expr} {r n : String}

theorem isNumber_uniform (e : Expr) : e.uniform.isNumber = e.isNumber := by
  cases e with
  | call f args via p => exact apply_uniform_call isNumber fun _ _ => rfl
  | literal t k p => cases k <;> rfl
  | _ => rfl

theorem isAssign_uniform (e : Expr) : e.uniform.isAssign = e.isAssign := by
  cases e with
  | call f args via p => exact apply_uniform_call isAssign fun _ _ => rfl
  | _ => rfl

theorem isConditional_uniform (e : Expr) : e.uniform.isConditional = e.isConditional := by
  cases e with
  | call f args via p => exact apply_uniform_call isConditional fun _ _ => rfl
  | _ => rfl

theorem isArrow_uniform (e : Expr) : e.uniform.isArrow = e.isArrow := by
  cases e with
  | call f args via p => exact apply_uniform_call isArrow fun _ _ => rfl
  | _ => rfl

theorem isThrough_uniform (pointers : List String) (f : Expr) (args : List Expr) :
    isThrough pointers f.uniform (args.map uniform) = isThrough pointers f args := by
  rw [isThrough, isThrough, tablePointer?_uniform, namedObject?_uniform, isArrow_uniform,
    head?_bind_uniform]

/-- What is called through a name that is no interface pointer. -/
theorem unknown_of_isThrough (h : isThrough pointers f args = false) (hr : f.pointer? = some r) :
    r ∉ pointers ∧ Parse.isHole r = false := by
  obtain ⟨q, n, q', rfl⟩ := pointer?_eq_some hr
  by_contra hknown
  rw [not_and_or, not_not, Bool.not_eq_false] at hknown
  rw [isThrough_pointer hknown] at h
  cases h

theorem Regular.strip : {e : Expr} → e.Regular pointers → e.strip.Regular pointers
  | cast t a p, h => Regular.strip (e := a) (h.child (by simp [children]))
  | name .., h | literal .., h | ellipsis .., h | call .., h | member .., h | index .., h
  | unary .., h | binary .., h | conditional .., h | assign .., h | initList .., h
  | verbatim .., h => h

theorem Spells.isPath (h : Spells f args r n own) (hf : f.Regular pointers) : IsPath r := by
  cases h with
  | @table obj n p r q side q' a own hobj ha =>
    have hobject : obj.strip.Regular pointers := Regular.strip (hf.child (by simp [children]))
    rw [hobj] at hobject
    exact (hobject.child (x := name r q) (by simp [children])).self
  | @pointer obj n p r q own hobj =>
    have hobject : obj.strip.Regular pointers := Regular.strip (hf.child (by simp [children]))
    rw [hobj] at hobject
    exact hobject.self

/-- What was read and is unambiguous can be printed and read, once its interface calls go through
the pointer. -/
theorem printable_uniform (hsound : e.Sound) (hregular : e.Regular pointers)
    (hknown : ∀ x ∈ e.walk, x.isKnownCall pointers = true) (h : e.isUnambiguous = true) :
    Printable pointers e.uniform := by
  induction e using child_induction with
  | step e ih =>
    have part : ∀ x ∈ e.children, x.isUnambiguous = true → Printable pointers x.uniform :=
      fun x hx =>
      ih x hx (hsound.child hx) (hregular.child hx) fun y hy => hknown y (mem_walk_child hx hy)
    cases e with
    | name n p => exact .name hregular.self (by simpa [isUnambiguous] using h)
    | literal t k p => exact .literal hsound.self
    | member o attr arrow p =>
      simp only [isUnambiguous, Bool.and_eq_true, Bool.not_eq_true'] at h
      exact .member (part o (by simp [children]) h.1) (by rw [isNumber_uniform, h.2]) hsound.self
    | index o i p =>
      simp only [isUnambiguous, Bool.and_eq_true] at h
      exact .index (part o (by simp [children]) h.1) (part i (by simp [children]) h.2)
    | unary op x side p =>
      cases side with
      | before => simp [isUnambiguous] at h
      | behind =>
        simp only [isUnambiguous, Bool.and_eq_true, Bool.or_eq_true, beq_iff_eq] at h
        exact .step h.1 (part x (by simp [children]) h.2)
    | binary op l r p =>
      simp only [isUnambiguous, Bool.and_eq_true, bne_iff_ne] at h
      exact .binary h.1.1 (part l (by simp [children]) h.1.2) (part r (by simp [children]) h.2)
    | conditional c x y p =>
      simp only [isUnambiguous, Bool.and_eq_true] at h
      exact .conditional (part c (by simp [children]) h.1.1) (part x (by simp [children]) h.1.2)
        (part y (by simp [children]) h.2)
    | assign op t v p =>
      simp only [isUnambiguous, Bool.and_eq_true, Bool.not_eq_true'] at h
      exact .assign (part t (by simp [children]) h.1.1.1) (part v (by simp [children]) h.1.1.2)
        (by rw [isAssign_uniform, h.1.2]) (by rw [isConditional_uniform, h.2])
    | call f args via p =>
      have hf : f ∈ (call f args via p).children := List.mem_cons_self
      have hargs :
          ∀ own, own ⊆ args → (∀ a ∈ own, a.isUnambiguous = true) →
          ∀ a ∈ own.map uniform, Printable pointers a := by
        intro own hown hall a ha
        obtain ⟨x, hx, rfl⟩ := List.mem_map.mp ha
        exact part x (List.mem_cons_of_mem _ (hown hx)) (hall x hx)
      simp only [isUnambiguous, unambiguousAll_eq] at h
      rcases spelled_or_plain f args via with ⟨r, n, rfl, hs⟩ | hplain
      · have hspells := spells_of_spelled? hs
        have hcall := hknown _ (mem_walk_self _)
        rw [isKnownCall, hspells.receiver?, Option.all_some, Bool.or_eq_true,
          List.contains_iff_mem] at hcall
        rw [uniform_spelled hs]
        refine .interfaceCall (hspells.isPath (hregular.child hf)) hcall
          (hspells.texts (hsound.child hf)).2 (hargs _ (List.drop_subset _ _) ?_)
        rw [repeated]
        cases htable : f.tablePointer?.isSome with
        | true =>
          simp only [htable, Bool.and_self, if_true, ← List.map_drop, List.all_map,
            List.all_eq_true] at h
          exact h
        | false =>
          simp only [htable, Bool.and_false, Bool.false_eq_true, if_false, Bool.and_eq_true] at h
          simpa using h.2
      · obtain rfl : via = false := by
          by_contra hvia
          have hspelled := hsound.self (Bool.of_not_eq_false hvia)
          rw [hplain (Bool.of_not_eq_false hvia)] at hspelled
          cases hspelled
        simp only [Bool.false_and, Bool.false_eq_true, if_false, Bool.and_eq_true] at h
        rw [uniform_plain hplain]
        refine .call (part f hf h.1) (hargs args (List.Subset.refl _) (by simpa using h.2))
          fun r hr => ?_
        have hthrough : false = isThrough pointers f args := hregular.self
        rw [← isThrough_uniform] at hthrough
        exact unknown_of_isThrough hthrough.symm hr
    | ellipsis p | cast t x p | initList es p | verbatim t p => simp [isUnambiguous] at h

end Uniform

end Expr

namespace Brackets

section Printed

open Expr

variable {pointers : List String} {e : Expr}

theorem balancedWords_path {n : String} (hn : IsPath n) : BalancedWords (pathWords n) := by
  refine balancedWords_of_inert fun w hw => ?_
  obtain ⟨v, rest, hwords, hparts, -⟩ := fronted_path hn
  rw [hwords] at hw
  have hpart := hparts w hw
  simp only [Word.isNamePart, Bool.or_eq_true, beq_iff_eq] at hpart
  obtain hpart | rfl := hpart
  · simp [isInert, hpart]
  · rfl

theorem BalancedWords.tight (h : BalancedWords e.words) : BalancedWords e.tightWords := by
  rw [tightWords, enclosed]
  split
  · exact h.group (by simp)
  · exact h

theorem balancedWords_of_printable (h : Printable pointers e) : BalancedWords e.words := by
  induction h with
  | name hn hplain => exact balancedWords_path hn
  | @literal t k p ht => exact .cons (by cases k <;> rfl) .nil
  | @member o attr arrow p ho hnumber hattr ih =>
    exact ih.tight.append (.cons (by cases arrow <;> rfl) (.cons rfl .nil))
  | index ho hi iho ihi => exact iho.tight.append (ihi.group (by simp))
  | @call f args p hf hargs hplain ihf ihargs =>
    have hlist : BalancedWords (commaWords (wordsAll args)) := by
      rw [wordsAll_eq]
      exact balancedWords_comma (by simpa using ihargs)
    exact ihf.tight.append (hlist.group (by simp))
  | @interfaceCall r n args q q' p hr hknown hn hargs ihargs =>
    have hlist : BalancedWords (commaWords (wordsAll args)) := by
      rw [wordsAll_eq]
      exact balancedWords_comma (by simpa using ihargs)
    have hmember : BalancedWords (pathWords r ++ [(TokenKind.punct, "->"), (TokenKind.ident, n)]) :=
      (balancedWords_path hr).append (.cons rfl (.cons rfl .nil))
    exact hmember.append (hlist.group (by simp))
  | step hop he ih =>
    refine ih.tight.append (.cons ?_ .nil)
    obtain rfl | rfl := hop <;> rfl
  | @binary op l r p hop hl hr ihl ihr =>
    exact ihl.tight.append (.cons (by cases op <;> rfl) ihr.tight)
  | conditional hc hx hy ihc ihx ihy =>
    exact ihc.tight.append (.cons rfl (ihx.tight.append (.cons rfl ihy.tight)))
  | @assign op t v p ht hv hassign hconditional iht ihv =>
    exact iht.append (.cons (by cases op <;> rfl) ihv)

end Printed

end Brackets

namespace Parse

open Expr

section Printed

variable {c : Context} {pointers : List String} {e : Expr}

/-- What is read as an expression by itself is sound, and its names and calls are as the pointers
say. -/
theorem sound_and_regular {levels : Nat} {text : String}
    (h : expressionWithin levels text pointers = .ok e) : e.Sound ∧ e.Regular pointers := by
  cases hc : contextOf text defaultInterfaceTypes with
  | error f =>
    rw [expressionWithin_of_error hc] at h
    cases h
  | ok c =>
    have hall : (Exprs.within levels).AllFormed c pointers :=
      Exprs.within_formed (matched_of_contextOf hc) (spelled_of_contextOf hc) levels
    have hwhole : Reads c (fun _ => True) (wholeExpression (Exprs.within levels)) ⟨0, [], pointers⟩
        fun e _ => e.Sound ∧ e.Regular pointers := by
      simp only [wholeExpression, reads_bind, reads_accept, reads_peek, reads_ite, reads_pure,
        reads_failAt]
      refine (hall.expression _ rfl).imp fun a s' ha => ?_
      have hboth : a.Sound ∧ a.Regular pointers := ha.2
      split <;> split <;> first | exact hboth | trivial
    rw [expressionWithin_of_context hc] at h
    cases hrun : ((wholeExpression (Exprs.within levels)).run c).run ⟨0, [], pointers⟩ with
    | error f =>
      rw [hrun] at h
      cases h
    | ok r =>
      rw [hrun] at h
      cases h
      exact hwhole.of_ok hrun

/-- A printable expression is read from its text, unless the text nests too deeply. -/
theorem reads_printed (h : Printable pointers e) (levels : Nat) :
    (∀ e', expressionWithin levels e.render pointers = .ok e' → e'.bare = e.bare) ∧
    ∀ stop, expressionWithin levels e.render pointers = .error stop →
    stop = .tooDeep ∧ levels ≤ e.nesting := by
  have hcuts := h.cuts
  rw [CutsWhole] at hcuts
  have hall : Cuts (e.render.toList ++ []) e.words [] := hcuts.cuts [] (by simp [Breaks]) (by simp)
  rw [List.append_nil] at hall
  exact expressionWithin_of_whole hall hcuts.firm.head (Brackets.balancedWords_of_printable h)
    (fun hc => (Exprs.rereads_of_printable hc h).whole) levels

/-- An expression that was read, is unambiguous and calls the interface through known pointers is
read again from its text, as far as the text does not nest too deeply: the same expression up to
places, with its interface calls spelled through the pointer. Nothing else stops the reader. -/
theorem expressionWithin_render {levels : Nat} {text : String}
    (h : expressionWithin levels text pointers = .ok e) (hclear : e.isUnambiguous = true)
    (hknown : ∀ x ∈ e.walk, x.isKnownCall pointers = true) (levels' : Nat) :
    (e.uniform.nesting < levels' → ∃ e', expressionWithin levels' e.render pointers = .ok e') ∧
    (∀ e', expressionWithin levels' e.render pointers = .ok e' → e'.bare = e.uniform.bare) ∧
    ∀ stop, expressionWithin levels' e.render pointers = .error stop → stop = .tooDeep := by
  obtain ⟨hsound, hregular⟩ := sound_and_regular h
  have hprinted := reads_printed (printable_uniform hsound hregular hknown hclear) levels'
  rw [render_uniform] at hprinted
  refine ⟨fun hlevels => ?_, hprinted.1, fun stop hstop => (hprinted.2 stop hstop).1⟩
  cases hread : expressionWithin levels' e.render pointers with
  | ok e' => exact ⟨e', rfl⟩
  | error stop =>
    have hdeep := (hprinted.2 stop hread).2
    omega

def operatorText : String := "x[i ? 1 : 2] = (*env)->Get(env, (a + b) * c, n = m)->f++"

theorem expressionWithin_render_nested :
    ∃ e e', Expr.parse operatorText ["env"] = .ok e ∧
    e.render = "x[i ? 1 : 2] = env->Get((a + b) * c, n = m)->f++" ∧
    Expr.parse e.render ["env"] = .ok e' ∧ e'.bare = e.uniform.bare := by
  obtain ⟨e, he, hcond⟩ := exists_of_any (x := Expr.parse operatorText ["env"])
    (p := fun e => decide (e.isUnambiguous = true ∧ (∀ x ∈ e.walk, x.isKnownCall ["env"] = true) ∧
      e.uniform.nesting <
        nestingLimit ∧ e.render = "x[i ? 1 : 2] = env->Get((a + b) * c, n = m)->f++"))
      (by decide +kernel)
  obtain ⟨hclear, hknown, hnesting, hrender⟩ := of_decide_eq_true hcond
  have hread := expressionWithin_render he hclear hknown nestingLimit
  obtain ⟨e', he'⟩ := hread.1 hnesting
  exact ⟨e, e', he, hrender, he', hread.2.1 e' he'⟩

end Printed

end Parse

end JniContracts
