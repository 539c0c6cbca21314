import Mathlib.Order.Filter.AtTopBot.Basic
import JniContracts.Proofs.Rendering.Trees

/-!
Reading back what was rendered. An expression is read in four ways, as it stands in a larger one: as
a part, as the stem of what is appended to it, as what an assignment takes on its left, and as a
whole.
-/

namespace JniContracts.Rendering

open Filter Lexer Expr Readers

variable {ps : List String} {e a b : Expr} {s r r' : List Char}

/-- What holds from some number of levels on does not depend on a few levels more. -/
theorem eventually_deeper {P : Nat → Prop} (k : Nat) :
    (∀ᶠ n in atTop, P (n + k)) ↔ ∀ᶠ n in atTop, P n := by
  rw [← eventually_map (m := (· + k)), map_add_atTop_eq_nat]

def Parted (r : List Char) : Prop := ∀ c ∈ r.head?, c ∈ [')', ']', '\x7d', ',', ' ']

theorem Parted.breaks (h : Parted r) : Breaks r := by
  intro c hc
  have hmem := h c hc
  simp only [List.mem_cons, List.not_mem_nil, or_false] at hmem
  obtain rfl | rfl | rfl | rfl | rfl := hmem <;> decide

theorem Parted.head_ne_dot (h : Parted r) : r.head? ≠ some '.' :=
  fun hdot => absurd (h '.' hdot) (by decide)

theorem parted_cons {c : Char} (hc : c ∈ [')', ']', '\x7d', ',', ' ']) : Parted (c :: r) := by
  intro d hd
  obtain rfl : c = d := by simpa using hd
  exact hc

theorem breaks_cons {c : Char} (hc : isQualifiedChar c = false ∧ c ≠ '\'' ∧ c ≠ '"') :
    Breaks (c :: r) := by
  intro d hd
  obtain rfl : c = d := by simpa using hd
  exact hc

theorem Readers.Ends.parted {commas : Bool} (h : Ends commas r) : Parted r := by
  intro c hc
  obtain hclose | ⟨rfl, -⟩ := h c hc
  · simp only [List.mem_cons, List.not_mem_nil, or_false] at hclose ⊢
    tauto
  · decide

theorem ends_close {c : Char} (hc : c ∈ [')', ']', '\x7d']) (commas : Bool) (r : List Char) :
    Ends commas (c :: r) := by
  intro d hd
  obtain rfl : c = d := by simpa using hd
  exact .inl hc

def Reaches (ps : List String) (s : List Char) (e : Expr) (r : List Char) : Prop :=
  ∃ k, ∀ᶠ n in atTop, (within ps (n + k)).tight s = (within ps n).suffixes e r

theorem Reaches.start (h : ∀ᶠ n in atTop, (within ps n).tightStep s = (within ps n).suffixes e r) :
    Reaches ps s e r :=
  ⟨1, h⟩

theorem Reaches.step (hs : Reaches ps s a r)
    (h : ∀ᶠ n in atTop, (within ps n).suffixesStep ps a r = (within ps n).suffixes b r') :
    Reaches ps s b r' := by
  obtain ⟨k, hk⟩ := hs
  refine ⟨k + 1, ?_⟩
  filter_upwards [(eventually_deeper 1).mpr hk, h] with n hn hstep
  rw [← Nat.add_assoc, Nat.add_right_comm, hn]
  exact hstep

theorem Reaches.done (hs : Reaches ps s e r) (hr : Parted r) :
    ∀ᶠ n in atTop, (within ps n).tight s = some (e, r) := by
  obtain ⟨k, hk⟩ := hs
  rw [← eventually_deeper (k + 1)]
  filter_upwards [(eventually_deeper 1).mpr hk] with n hn
  rw [← Nat.add_assoc, Nat.add_right_comm, hn]
  exact suffixesStep_end hr

/-- An expression is read back, wherever it stands. -/
structure Round (ps : List String) (e : Expr) : Prop where
  part : ∀ {r}, Parted r → ∀ᶠ n in atTop, (within ps n).tight (e.tight ++ r) = some (e.bare, r)
  stem : e.isPrefix = false → ∀ {r}, Breaks r → (e.isNumber = true → r.head? ≠ some '.') →
    Reaches ps (e.tight ++ r) e.bare r
  left : e.isAssign = false → ∀ {commas r}, Parted r → Closes commas r →
    (commas = false → e.isComma = false) →
    ∀ᶠ n in atTop, (within ps n).simple commas (e.chars ++ r) = some (e.bare, r)
  whole : ∀ {commas r}, Ends commas r → (commas = false → e.exposesComma = false) →
    ∀ᶠ n in atTop, (within ps n).loose commas (e.chars ++ r) = some (e.bare, r)

section Builders

theorem isComma_of_not_assign (h : e.isAssign = false) : e.exposesComma = e.isComma := by
  cases e with
  | assign => cases h
  | binary op a b p => cases op <;> rfl
  | _ => rfl

/-- What stands on the left of an assignment can stand alone. -/
theorem whole_of_left (hassign : e.isAssign = false)
    (h : ∀ {commas r}, Parted r → Closes commas r → (commas = false → e.isComma = false) →
      ∀ᶠ n in atTop, (within ps n).simple commas (e.chars ++ r) = some (e.bare, r))
    {commas : Bool} (hr : Ends commas r) (hcomma : commas = false → e.exposesComma = false) :
    ∀ᶠ n in atTop, (within ps n).loose commas (e.chars ++ r) = some (e.bare, r) := by
  rw [isComma_of_not_assign hassign] at hcomma
  rw [← eventually_deeper 1]
  filter_upwards [h hr.parted hr.closes hcomma] with n hn
  exact looseStep_simple hn hr

theorem round_of_part (hloose : e.isLoose = false)
    (part : ∀ {r}, Parted r → ∀ᶠ n in atTop, (within ps n).tight (e.tight ++ r) = some (e.bare, r))
    (stem : e.isPrefix = false → ∀ {r}, Breaks r → (e.isNumber = true → r.head? ≠ some '.') →
      Reaches ps (e.tight ++ r) e.bare r) : Round ps e := by
  have hassign : e.isAssign = false := by
    cases e with
    | assign => cases hloose
    | _ => rfl
  have left : ∀ {commas r}, Parted r → Closes commas r → (commas = false → e.isComma = false) →
      ∀ᶠ n in atTop, (within ps n).simple commas (e.chars ++ r) = some (e.bare, r) := by
    intro commas r hr hcloses _
    filter_upwards [part hr] with n hn
    rw [tight_of_not_loose hloose] at hn
    rw [simple, hn]
    exact hcloses _ _
  exact ⟨part, stem, fun _ => left, whole_of_left hassign left⟩

theorem round_of_operator (hloose : e.isLoose = false) (hfree : e.isPrefix = true) (part : ∀ {r},
      Parted r → ∀ᶠ n in atTop, (within ps n).tight (e.tight ++ r) = some (e.bare, r)) :
    Round ps e :=
  round_of_part hloose part fun h => by rw [hfree] at h; cases h

theorem round_of_stem (hloose : e.isLoose = false) (stem : ∀ {r}, Breaks r →
      (e.isNumber = true → r.head? ≠ some '.') → Reaches ps (e.tight ++ r) e.bare r) : Round ps e :=
  round_of_part hloose (fun hr => (stem hr.breaks fun _ => hr.head_ne_dot).done hr) fun _ => stem

theorem round_of_whole (h : e.Legible ps) (hloose : e.isLoose = true) (left : e.isAssign = false →
      ∀ {commas r}, Parted r → Closes commas r → (commas = false → e.isComma = false) →
      ∀ᶠ n in atTop, (within ps n).simple commas (e.chars ++ r) = some (e.bare, r))
    (whole : ∀ {commas r}, Ends commas r → (commas = false → e.exposesComma = false) →
      ∀ᶠ n in atTop, (within ps n).loose commas (e.chars ++ r) = some (e.bare, r)) :
    Round ps e := by
  have stem : ∀ r, Reaches ps (e.tight ++ r) e.bare r := by
    intro r
    refine .start ?_
    filter_upwards [whole (ends_close (c := ')') (by decide) true r) (by simp)] with n hn
    rw [tight_of_loose hloose, List.cons_append, List.append_assoc]
    exact tightStep_paren (h.type?_loose hloose _) hn
  exact ⟨fun hr => (stem _).done hr, fun _ r _ _ => stem r, left, whole⟩

theorem round_of_left (h : e.Legible ps) (hloose : e.isLoose = true) (hassign : e.isAssign = false)
    (left : ∀ {commas r}, Parted r → Closes commas r → (commas = false → e.isComma = false) →
      ∀ᶠ n in atTop, (within ps n).simple commas (e.chars ++ r) = some (e.bare, r)) : Round ps e :=
  round_of_whole h hloose (fun _ => left) (whole_of_left hassign left)

end Builders

section Lists

theorem list_back {es : List Expr} {close : Char} (hclose : close ∈ [')', '\x7d'])
    (h : ∀ e ∈ es, Round ps e ∧ Fronts e.chars ∧ e.exposesComma = false) (r : List Char) :
    ∀ᶠ n in atTop, (within ps n).list close (listChars es ++ close :: r) =
    some (bareAll es, r) := by
  have hends : Ends false (close :: r) :=
    ends_close (by simp only [List.mem_cons, List.not_mem_nil, or_false] at hclose ⊢; tauto) false r
  have hhead :
      ∀ {e : Expr} {t : List Char}, Fronts e.chars → (e.chars ++ t).head? ≠ some close := by
    intro e t hfronts
    obtain ⟨c, rest, hchars, hparen, hbrace⟩ := hfronts.head
    rw [hchars]
    simp only [List.mem_cons, List.not_mem_nil, or_false] at hclose
    obtain rfl | rfl := hclose <;> simpa
  induction es with
  | nil =>
    rw [← eventually_deeper 1]
    exact .of_forall fun n => listStep_nil
  | cons e es ih =>
    obtain ⟨hround, hfronts, hcomma⟩ := h e List.mem_cons_self
    rw [← eventually_deeper 1]
    cases es with
    | nil =>
      filter_upwards [hround.whole hends fun _ => hcomma] with n hn
      refine listStep_last (hhead hfronts) ?_ hn
      simp only [List.mem_cons, List.not_mem_nil, or_false] at hclose
      obtain rfl | rfl := hclose <;> decide
    | cons e' es =>
      have hends : Ends false (',' :: ' ' :: (listChars (e' :: es) ++ close :: r)) := by simp [Ends]
      filter_upwards [hround.whole hends fun _ => hcomma,
        ih fun x hx => h x (List.mem_cons_of_mem _ hx)] with n hn htail
      rw [listChars, List.append_assoc, List.cons_append, List.cons_append]
      · exact listStep_cons (hhead hfronts) hn htail
      · simp

end Lists

section Forms

variable {p : Pos}

theorem pointer?_bare (f : Expr) : f.bare.pointer? = f.pointer? := by
  cases f with
  | member o attr arrow p => cases arrow <;> cases o <;> rfl
  | _ => rfl

theorem round_call {f : Expr} {args : List Expr} {via : Bool} (h : (call f args via p).Legible ps)
    (hf : Round ps f) (hargs : ∀ e ∈ args, Round ps e) : Round ps (call f args via p) := by
  obtain ⟨-, hclear, hagrees⟩ := h.self
  change (!f.isPrefix && args.all (!·.exposesComma)) = true at hclear
  simp only [Bool.and_eq_true, Bool.not_eq_true', List.all_eq_true] at hclear
  have hvia : via = f.bare.pointer?.any ps.contains := by
    rw [pointer?_bare]
    exact beq_iff_eq.mp hagrees
  refine round_of_stem rfl fun {r} hr _ => ?_
  rw [tight_of_not_loose rfl, h.chars_call, bare_call, hvia, List.append_assoc, List.cons_append,
    List.append_assoc]
  refine (hf.stem hclear.1 (breaks_cons (by decide)) (by simp)).step ?_
  have hlist : ∀ e ∈ args, Round ps e ∧ Fronts e.chars ∧ e.exposesComma = false := fun e he =>
    ⟨hargs e he, (h.child (List.mem_cons_of_mem _ he)).fronts, hclear.2 e he⟩
  filter_upwards [list_back (by decide : ')' ∈ _) hlist r] with n hn
  exact suffixesStep_call hn

theorem round_member {o : Expr} {attr : String} {arrow : Bool}
    (h : (member o attr arrow p).Legible ps) (ho : Round ps o) :
    Round ps (member o attr arrow p) := by
  obtain ⟨hword, hclear, -⟩ := h.self
  obtain ⟨c, rest, hattr, hc, hrest⟩ : WordText attr.toList := hword
  change (!o.isPrefix && (arrow || !o.isNumber)) = true at hclear
  simp only [Bool.and_eq_true, Bool.not_eq_true', Bool.or_eq_true] at hclear
  have hchars : ∀ d ∈ attr.toList, isNameChar d = true := by
    rw [hattr]
    intro d hd
    obtain rfl | hd := List.mem_cons.mp hd
    · exact isNameChar_of_isNameStart hc
    · exact hrest d hd
  refine round_of_stem rfl fun {r} hr _ => ?_
  have hnext : ∀ d ∈ r.head?, isNameChar d = false := by
    intro d hd
    obtain ⟨hqualified, -⟩ := hr d hd
    rw [isQualifiedChar, Bool.or_eq_false_iff] at hqualified
    exact hqualified.1
  rw [tight_of_not_loose rfl, chars_member, bare_member, List.append_assoc, List.append_assoc]
  refine (ho.stem hclear.1 ?_ ?_).step (.of_forall fun n => ?_)
  · cases arrow <;> exact breaks_cons (by decide)
  · intro hnumber
    cases arrow with
    | true => simp
    | false => simp [hnumber] at hclear
  · have hstep : (within ps n).suffixesStep ps o.bare _ = _ :=
      suffixesStep_member hchars hnext arrow
    rwa [String.ofList_toList] at hstep

theorem round_index {o i : Expr} (h : (index o i p).Legible ps) (ho : Round ps o)
    (hi : Round ps i) : Round ps (index o i p) := by
  obtain ⟨-, hclear, -⟩ := h.self
  have hfree : o.isPrefix = false := Bool.eq_false_of_not_eq_true' hclear
  refine round_of_stem rfl fun {r} hr _ => ?_
  rw [tight_of_not_loose rfl, chars_index, bare_index, List.append_assoc, List.cons_append,
    List.append_assoc]
  refine (ho.stem hfree (breaks_cons (by decide)) (by simp)).step ?_
  filter_upwards [hi.whole (ends_close (c := ']') (by decide) true r) (by simp)] with n hn
  exact suffixesStep_index hn

theorem round_behind {op : UnOp} (h : (unary op e .behind p).Legible ps) (he : Round ps e) :
    Round ps (unary op e .behind p) := by
  obtain ⟨hop, hclear, -⟩ := h.self
  have hfree : e.isPrefix = false := Bool.eq_false_of_not_eq_true' hclear
  refine round_of_stem rfl fun {r} hr _ => ?_
  rw [tight_of_not_loose rfl, chars_behind, bare_unary, List.append_assoc]
  obtain rfl | rfl : op = .incr ∨ op = .decr := hop
  · show Reaches ps (e.tight ++ '+' :: '+' :: r) _ r
    exact (he.stem hfree (breaks_cons (by decide)) (by simp)).step (.of_forall fun n => rfl)
  · show Reaches ps (e.tight ++ '-' :: '-' :: r) _ r
    exact (he.stem hfree (breaks_cons (by decide)) (by simp)).step (.of_forall fun n => rfl)

theorem round_before {op : UnOp} (h : (unary op e .before p).Legible ps) (he : Round ps e) :
    Round ps (unary op e .before p) := by
  obtain ⟨hsound, hclear, -⟩ := h.self
  obtain ⟨c, rest, htight, -⟩ := (fronts_tight (h.child (c := e) (by simp [children])).fronts).head
  have hsize : op ∈ UnOp.sizes → c ≠ '(' := fun hop => by simpa [htight] using hsound hop
  have hruns : op.runsInto c = false := by
    change (!e.tight.head?.any op.runsInto) = true at hclear
    simpa [htight] using hclear
  refine round_of_operator rfl rfl fun {r} hr => ?_
  rw [tight_of_not_loose rfl, chars_before, bare_unary, List.append_assoc, List.append_assoc,
    ← eventually_deeper 1]
  filter_upwards [he.part hr] with n hn
  have hkind : op ∈ UnOp.signs ∨ op ∈ wordOps := by cases op <;> decide
  obtain hop | hop := hkind
  · have hgap : op.gap = "" := by
      have hall : ∀ op ∈ UnOp.signs, op.gap = "" := by decide
      exact hall op hop
    rw [hgap]
    refine tightStep_sign hop ?_ ?_ hn
    · rintro rfl
      simpa [htight, UnOp.runsInto] using hruns
    · rintro rfl
      simpa [htight, UnOp.runsInto] using hruns
  · refine tightStep_keyword hop ?_ hn
    have hcases : (∃ tail, op.gap.toList = ' ' :: tail) ∨
        op.gap.toList = [] ∧ op ∈ UnOp.sizes ∧ op.runsInto c = isQualifiedChar c := by
      simp only [wordOps, UnOp.sizes, List.mem_cons, List.not_mem_nil, or_false] at hop
      obtain rfl | rfl | rfl | rfl | rfl | rfl := hop
      · exact .inl ⟨[], rfl⟩
      · exact .inl ⟨[], rfl⟩
      · exact .inl ⟨[], rfl⟩
      · exact .inl ⟨[], rfl⟩
      · exact .inr ⟨rfl, by decide, rfl⟩
      · exact .inr ⟨rfl, by decide, rfl⟩
    intro d hd
    obtain ⟨tail, hgap⟩ | ⟨hgap, hop, hqualified⟩ := hcases
    · obtain rfl : ' ' = d := by simpa [hgap] using hd
      decide
    · obtain rfl : c = d := by simpa [hgap, htight] using hd
      exact ⟨hqualified ▸ hruns, hsize hop⟩

theorem round_binary {op : BinOp} (h : (binary op a b p).Legible ps) (ha : Round ps a)
    (hb : Round ps b) : Round ps (binary op a b p) := by
  refine round_of_left h rfl rfl fun {commas r} hr _ hcomma => ?_
  rw [bare_binary]
  by_cases hop : op = .comma
  · subst hop
    obtain rfl : commas = true := by
      cases commas with
      | true => rfl
      | false => cases hcomma rfl
    rw [chars_comma, List.append_assoc, List.cons_append, List.cons_append]
    filter_upwards [ha.part (parted_cons (by decide : ',' ∈ _)), hb.part hr] with n hleft hright
    rw [simple, hleft]
    exact joined_comma hright
  · rw [chars_binary hop, List.append_assoc, List.cons_append, List.append_assoc, List.cons_append]
    filter_upwards [ha.part (parted_cons (by decide : ' ' ∈ _)), hb.part hr] with n hleft hright
    rw [simple, hleft]
    exact joined_binary hop hright

theorem round_conditional {c : Expr} (h : (conditional c a b p).Legible ps) (hc : Round ps c)
    (ha : Round ps a) (hb : Round ps b) : Round ps (conditional c a b p) := by
  refine round_of_left h rfl rfl fun {commas r} hr _ _ => ?_
  rw [bare_conditional, chars_conditional, List.append_assoc]
  simp only [List.cons_append, List.append_assoc]
  filter_upwards [hc.part (parted_cons (by decide : ' ' ∈ _)),
    ha.part (parted_cons (by decide : ' ' ∈ _)), hb.part hr] with n hcond hyes hno
  rw [simple, hcond]
  exact joined_conditional hyes hno

theorem round_assign {op : AssignOp} (h : (assign op a b p).Legible ps) (ha : Round ps a)
    (hb : Round ps b) : Round ps (assign op a b p) := by
  obtain ⟨-, hclear, -⟩ := h.self
  have hassign : a.isAssign = false := Bool.eq_false_of_not_eq_true' hclear
  refine round_of_whole h rfl (fun hnot => by cases hnot) fun {commas r} hr hcomma => ?_
  change commas = false → (a.exposesComma || b.exposesComma) = false at hcomma
  rw [Bool.or_eq_false_iff, isComma_of_not_assign hassign] at hcomma
  rw [bare_assign, chars_assign, List.append_assoc, List.cons_append, List.append_assoc,
    List.cons_append, ← eventually_deeper 1]
  filter_upwards
    [ha.left hassign (parted_cons (by decide : ' ' ∈ _)) (closes_assign op _) fun h => (hcomma h).1,
    hb.whole hr fun h => (hcomma h).2] with n hleft hright
  exact looseStep_assign hleft hright

theorem round_cast {t : String} (h : (cast t e p).Legible ps) (he : Round ps e) :
    Round ps (cast t e p) := by
  have htype : TypeText t.toList := h.self.1
  refine round_of_operator rfl rfl fun {r} hr => ?_
  rw [tight_of_not_loose rfl, chars_cast, bare_cast, List.cons_append, List.append_assoc,
    List.cons_append, ← eventually_deeper 1]
  filter_upwards [he.part hr] with n hn
  have hcast := tightStep_cast htype hn
  rwa [String.ofList_toList] at hcast

theorem round_initList {es : List Expr} (h : (initList es p).Legible ps)
    (hes : ∀ e ∈ es, Round ps e) : Round ps (initList es p) := by
  obtain ⟨-, hclear, -⟩ := h.self
  change es.all (!·.exposesComma) = true at hclear
  simp only [List.all_eq_true, Bool.not_eq_true'] at hclear
  refine round_of_stem rfl fun {r} hr _ => ?_
  rw [tight_of_not_loose rfl, chars_initList, bare_initList, List.cons_append, List.append_assoc]
  refine .start ?_
  have hlist : ∀ e ∈ es, Round ps e ∧ Fronts e.chars ∧ e.exposesComma = false := fun e he =>
    ⟨hes e he, (h.child he).fronts, hclear e he⟩
  filter_upwards [list_back (by decide : '\x7d' ∈ _) hlist r] with n hn
  exact tightStep_initList hn

end Forms

/-- Reading takes a legible expression back from its text. -/
theorem round_of_legible (h : e.Legible ps) : Round ps e := by
  induction e using child_induction with
  | step e ih =>
  have sub : ∀ c ∈ e.children, Round ps c := fun c hc => ih c hc (h.child hc)
  cases e with
  | name n p =>
    have hname : NameText n.toList := h.self.1
    refine round_of_stem rfl fun {r} hr _ => .start (.of_forall fun m => ?_)
    have hstep := tightStep_name (g := within ps m) hname hr
    rwa [String.ofList_toList] at hstep
  | literal t kind p =>
    have htext : LiteralText kind t.toList := h.self.1
    refine round_of_stem rfl fun {r} hr hdot => .start (.of_forall fun n => ?_)
    have hstep :=
      tightStep_literal (g := within ps n) htext hr fun hkind => hdot (by rw [hkind]; rfl)
    rwa [String.ofList_toList] at hstep
  | ellipsis p =>
    refine round_of_stem rfl fun {r} _ _ => .start (.of_forall fun n => ?_)
    rw [tight_of_not_loose rfl, chars, render, bare]
    exact tightStep_ellipsis
  | call f args via p =>
    exact round_call h (sub f (by simp [children])) fun e he => sub e (List.mem_cons_of_mem _ he)
  | member o attr arrow p => exact round_member h (sub o (by simp [children]))
  | index o i p => exact round_index h (sub o (by simp [children])) (sub i (by simp [children]))
  | unary op a side p =>
    cases side with
    | before => exact round_before h (sub a (by simp [children]))
    | behind => exact round_behind h (sub a (by simp [children]))
  | binary op a b p =>
    exact round_binary h (sub a (by simp [children])) (sub b (by simp [children]))
  | conditional c a b p =>
    exact round_conditional h (sub c (by simp [children])) (sub a (by simp [children]))
      (sub b (by simp [children]))
  | assign op a b p =>
    exact round_assign h (sub a (by simp [children])) (sub b (by simp [children]))
  | cast t a p => exact round_cast h (sub a (by simp [children]))
  | initList es p => exact round_initList h sub
  | verbatim t p =>
    have htext : SizeText t.toList := h.self.1
    refine round_of_stem rfl fun {r} _ _ => .start (.of_forall fun n => ?_)
    have hstep := tightStep_verbatim (g := within ps n) (r := r) htext
    rw [tight_of_not_loose rfl, chars, render, bare]
    rwa [String.ofList_toList] at hstep

/-- Legible expressions with one text are the same but for places. -/
theorem bare_eq_of_render {e' : Expr} (h : e.Legible ps) (h' : e'.Legible ps)
    (heq : e.render = e'.render) : e.bare = e'.bare := by
  have hends : Ends true [] := by simp [Ends]
  have hread := (round_of_legible h).whole hends (by simp)
  have hread' := (round_of_legible h').whole hends (by simp)
  obtain ⟨n, hn, hn'⟩ := (hread.and hread').exists
  rw [chars, heq, ← chars, hn'] at hn
  exact (Prod.mk.inj (Option.some.inj hn)).1.symm

end JniContracts.Rendering
