import JniContracts.Proofs.Rendering.Steps
import JniContracts.Proofs.Spelling.Parts

/-!
Expressions and their rendered texts. A node is sound if its own text has the form that source text
gives it, and clear if rendering keeps it apart from what stands around it.
-/

namespace JniContracts

open Rendering Lexer

namespace Rendering

section Safe

variable {s : List Char}

def Safe (s : List Char) : Prop := (s.dropWhile isTypeChar).head? ≠ some ')'

instance (s : List Char) : Decidable (Safe s) := inferInstanceAs (Decidable (_ ≠ _))

theorem safe_nil : Safe [] := by decide

theorem Safe.append {t : List Char} (hs : Safe s) (ht : Safe t) : Safe (s ++ t) := by
  rw [Safe, List.dropWhile_append]
  split
  · exact ht
  · rename_i hne
    cases hdrop : s.dropWhile isTypeChar with
    | nil => simp [hdrop] at hne
    | cons d rest =>
      rw [Safe, hdrop] at hs
      exact hs

theorem safe_of_not_mem {s : List Char} (h : ')' ∉ s) : Safe s := fun hclose =>
  h ((List.dropWhile_sublist _).mem (List.mem_of_mem_head? hclose))

theorem safe_of_head {c : Char} (hc : isTypeChar c = false) (hclose : c ≠ ')') (s : List Char) :
    Safe (c :: s) := by
  simpa [Safe, hc] using hclose

theorem Safe.cons {c : Char} (hs : Safe s) (hclose : c ≠ ')') : Safe (c :: s) :=
  Safe.append (s := [c]) (safe_of_not_mem (by simpa using hclose.symm)) hs

theorem looseMark_of_blank {x : Char} (hx : x = '*' ∨ x = '&') (front back : List Char) :
    looseMark (front ++ x :: ' ' :: back) = true := by
  induction front with
  | nil => obtain rfl | rfl := hx <;> rfl
  | cons c front ih => rw [List.cons_append, looseMark, ih, Bool.or_true]

/-- A text that is not the type of a cast: it has a character of no type, or a mark that is set off
behind. -/
theorem type?_eq_none {front : List Char} {x : Char} (hfront : Safe front)
    (hx : x = '*' ∨ x = '&' ∨ isTypeChar x = false ∧ x ≠ ')') (back : List Char) :
    type? (front ++ x :: ' ' :: back) = none := by
  have hclose : x ≠ ')' := by
    obtain rfl | rfl | ⟨-, hx⟩ := hx
    · decide
    · decide
    · exact hx
  unfold type?
  split
  · rename_i t r hspan
    obtain ⟨htype, -⟩ := of_span hspan
    obtain ⟨a, hfront', hrest⟩ | ⟨a, ht, hrest⟩ :=
      List.append_eq_append_iff.mp (append_of_span hspan)
    · -- the parenthesis would stand in front of the character
      cases a with
      | nil => exact absurd (List.cons.inj hrest).1.symm hclose
      | cons c a =>
        obtain rfl : ')' = c := (List.cons.inj hrest).1
        refine absurd ?_ hfront
        rw [hfront', List.dropWhile_append_of_pos htype]
        rfl
    · cases a with
      | nil => exact absurd (List.cons.inj hrest).1 hclose
      | cons c a =>
        obtain rfl : x = c := (List.cons.inj hrest).1
        have hmark : x = '*' ∨ x = '&' := by
          obtain hx | hx | ⟨hx, -⟩ := hx
          · exact .inl hx
          · exact .inr hx
          · rw [htype x (by simp [ht])] at hx
            cases hx
        cases a with
        | nil => exact absurd (List.cons.inj (List.cons.inj hrest).2).1 (by decide)
        | cons c a =>
          obtain rfl : ' ' = c := (List.cons.inj (List.cons.inj hrest).2).1
          rw [ht, looseMark_of_blank hmark, if_pos rfl]
  · rfl

theorem binOps_last (op : BinOp) (h : op ≠ .comma) :
    ∃ front x, op.text.toList = front ++ [x] ∧ Safe front ∧
    (x = '*' ∨ x = '&' ∨ isTypeChar x = false ∧ x ≠ ')') := by
  have hall : ∀ op ∈ BinOp.infixes, Safe op.text.toList.dropLast ∧
    (op.text.toList.getLast?.any fun x =>
      decide (x = '*' ∨ x = '&' ∨ isTypeChar x = false ∧ x ≠ ')')) = true := by decide
  have hmem : op ∈ BinOp.infixes := by
    cases op with
    | comma => exact absurd rfl h
    | _ => decide
  obtain ⟨hsafe, hany⟩ := hall op hmem
  obtain ⟨x, hlast, hx⟩ := (Option.any_eq_true _ _).mp hany
  exact ⟨_, x, (List.dropLast_append_getLast? x hlast).symm, hsafe, of_decide_eq_true hx⟩

theorem assignOps_last (op : AssignOp) : ∃ front, op.text.toList = front ++ ['='] ∧ Safe front := by
  have hall :
      ∀ op ∈ AssignOp.all, Safe op.text.toList.dropLast ∧ op.text.toList.getLast? = some '=' := by
    decide
  obtain ⟨hsafe, hlast⟩ := hall op (by cases op <;> decide)
  exact ⟨_, (List.dropLast_append_getLast? '=' hlast).symm, hsafe⟩

structure Fronts (s : List Char) : Prop where
  head : ∃ c rest, s = c :: rest ∧ c ≠ ')' ∧ c ≠ '\x7d'
  safe : Safe s

theorem Fronts.append {t : List Char} (hs : Fronts s) (ht : Safe t) : Fronts (s ++ t) := by
  obtain ⟨c, rest, rfl, hc⟩ := hs.head
  exact ⟨⟨c, rest ++ t, rfl, hc⟩, hs.safe.append ht⟩

theorem fronts_of_not_mem (hne : s ≠ []) (hparen : ')' ∉ s) (hbrace : '\x7d' ∉ s) : Fronts s := by
  cases s with
  | nil => exact absurd rfl hne
  | cons c s =>
    refine ⟨⟨c, s, rfl, ?_, ?_⟩, safe_of_not_mem hparen⟩
    · rintro rfl
      exact hparen List.mem_cons_self
    · rintro rfl
      exact hbrace List.mem_cons_self

theorem fronts_of_open {s : List Char} {c : Char} (hc : c ∈ ['(', '\x7b', '"', '\'']) :
    Fronts (c :: s) := by
  simp only [List.mem_cons, List.not_mem_nil, or_false] at hc
  obtain rfl | rfl | rfl | rfl := hc <;> exact ⟨⟨_, _, rfl, by decide⟩,
    safe_of_head (by rfl) (by decide) s⟩

theorem fronts_literalText {kind : LiteralKind} {t : List Char} (h : LiteralText kind t) :
    Fronts t := by
  have quoted :
      ∀ {quote mark body}, quote ∈ ['"', '\''] → mark ∈ marks → Fronts (mark ++ quote :: body) := by
    intro quote mark body hquote hmark
    have hopen : Fronts (quote :: body) :=
      fronts_of_open (List.mem_cons_of_mem _ (List.mem_cons_of_mem _ hquote))
    cases mark with
    | nil => exact hopen
    | cons c mark =>
      have hall : ∀ mark ∈ marks, ')' ∉ mark ∧ '\x7d' ∉ mark := by decide
      exact (fronts_of_not_mem (by simp) (hall _ hmark).1 (hall _ hmark).2).append hopen.safe
  cases kind with
  | string =>
    obtain ⟨mark, hmark, body, rfl, -⟩ := h
    exact quoted (by simp) hmark
  | char =>
    obtain ⟨mark, hmark, body, rfl, -⟩ := h
    exact quoted (by simp) hmark
  | number =>
    obtain ⟨c, rest, rfl, -⟩ := NumberText.head h
    refine fronts_of_not_mem (by simp) (fun hmem => ?_) fun hmem => ?_
    · exact absurd (NumberText.mem h hmem) (by decide)
    · exact absurd (NumberText.mem h hmem) (by decide)

theorem unOps_fronts (op : UnOp) :
    Fronts op.text.toList ∧ Safe op.text.toList ∧ Safe op.gap.toList := by
  have hclean :
      op.text.toList ≠ [] ∧ ')' ∉ op.text.toList ∧ '\x7d' ∉ op.text.toList ∧
      ')' ∉ op.gap.toList := by
    cases op <;> decide
  obtain ⟨hne, hparen, hbrace, hgap⟩ := hclean
  exact ⟨fronts_of_not_mem hne hparen hbrace, safe_of_not_mem hparen, safe_of_not_mem hgap⟩

end Safe

end Rendering

/-- The operator and a character behind it would be read as something else. -/
def UnOp.runsInto : UnOp → Char → Bool
  | plus, c => c == '+'
  | neg, c => c == '-'
  | alignofC, c | alignofGnu, c => isQualifiedChar c
  | _, _ => false

namespace Expr

variable {e : Expr}

def chars (e : Expr) : List Char := e.render.toList

def isPrefix : Expr → Bool
  | unary _ _ .before _ | cast .. => true
  | _ => false

def isNumber : Expr → Bool
  | literal _ .number _ => true
  | _ => false

def isAssign : Expr → Bool
  | assign .. => true
  | _ => false

def isComma : Expr → Bool
  | binary .comma .. => true
  | _ => false

def exposesComma : Expr → Bool
  | binary .comma .. => true
  | assign _ t v _ => t.exposesComma || v.exposesComma
  | _ => false

/-- Rendering puts no parentheses around an operand that starts with an operator, around commas in a
list and around the target of an assignment. A node is clear if it needs none there. -/
def isClear : Expr → Bool
  | call f args _ _ => !f.isPrefix && args.all (!·.exposesComma)
  | member o _ arrow _ => !o.isPrefix && (arrow || !o.isNumber)
  | index o _ _ => !o.isPrefix
  | unary _ e .behind _ => !e.isPrefix
  | unary op e .before _ => !e.tight.head?.any op.runsInto
  | assign _ t _ _ => !t.isAssign
  | initList es _ => es.all (!·.exposesComma)
  | _ => true

def IsSound : Expr → Prop
  | name n _ => NameText n.toList
  | literal t kind _ => LiteralText kind t.toList
  | call f args via _ => via = true → (f.spelled? args).isSome
  | member _ attr _ _ => WordText attr.toList
  | unary op _ .behind _ => op = .incr ∨ op = .decr
  | unary op e .before _ => op ∈ UnOp.sizes → e.tight.head? ≠ some '('
  | cast t _ _ => TypeText t.toList
  | verbatim t _ => SizeText t.toList
  | _ => True

def Sound (e : Expr) : Prop := ∀ x ∈ e.walk, x.IsSound

theorem mem_walk_self (e : Expr) : e ∈ e.walk := by
  rw [walk_eq]
  exact List.mem_cons_self

theorem mem_walk_child {c x : Expr} (hc : c ∈ e.children) (hx : x ∈ c.walk) : x ∈ e.walk := by
  rw [walk_eq]
  exact List.mem_cons_of_mem _ (List.mem_flatMap.mpr ⟨c, hc, hx⟩)

theorem forall_walk {P : Expr → Prop} :
    (∀ x ∈ e.walk, P x) ↔ P e ∧ ∀ c ∈ e.children, ∀ x ∈ c.walk, P x := by
  refine ⟨fun h => ⟨h e (mem_walk_self e), fun c hc x hx => h x (mem_walk_child hc hx)⟩,
    fun h x hx => ?_⟩
  rw [walk_eq] at hx
  obtain rfl | hx := List.mem_cons.mp hx
  · exact h.1
  · obtain ⟨c, hc, hx⟩ := List.mem_flatMap.mp hx
    exact h.2 c hc x hx

theorem sound_iff : e.Sound ↔ e.IsSound ∧ ∀ c ∈ e.children, c.Sound := forall_walk

theorem Sound.self (h : e.Sound) : e.IsSound := (sound_iff.mp h).1

theorem Sound.child {c : Expr} (h : e.Sound) (hc : c ∈ e.children) : c.Sound :=
  (sound_iff.mp h).2 c hc

section Texts

variable {e a b : Expr} {p : Pos}

theorem tight_of_loose (h : e.isLoose = true) : e.tight = '(' :: (e.chars ++ [')']) := by
  simp [tight, enclose, h, chars]

theorem tight_of_not_loose (h : e.isLoose = false) : e.tight = e.chars := by
  simp [tight, enclose, h, chars]

theorem chars_member (o : Expr) (attr : String) (arrow : Bool) (p : Pos) :
    (member o attr arrow p).chars =
    o.tight ++ ((if arrow then ['-', '>'] else ['.']) ++ attr.toList) := by
  cases arrow <;> simp [chars, tight, render]

theorem chars_index (o i : Expr) (p : Pos) :
    (index o i p).chars = o.tight ++ '[' :: (i.chars ++ [']']) := by
  simp [chars, tight, render]

theorem chars_behind (op : UnOp) (e : Expr) (p : Pos) :
    (unary op e .behind p).chars = e.tight ++ op.text.toList := by
  simp [chars, tight, render]

theorem chars_before (op : UnOp) (e : Expr) (p : Pos) :
    (unary op e .before p).chars = op.text.toList ++ (op.gap.toList ++ e.tight) := by
  simp [chars, tight, render]

theorem chars_comma (a b : Expr) (p : Pos) :
    (binary .comma a b p).chars = a.tight ++ ',' :: ' ' :: b.tight := by
  simp [chars, tight, render]

theorem chars_binary {op : BinOp} (h : op ≠ .comma) (a b : Expr) (p : Pos) :
    (binary op a b p).chars = a.tight ++ ' ' :: (op.text.toList ++ ' ' :: b.tight) := by
  cases op with
  | comma => exact absurd rfl h
  | _ => simp [chars, tight, render]

theorem chars_conditional (a b c : Expr) (p : Pos) : (conditional a b c p).chars =
    a.tight ++ ' ' :: '?' :: ' ' :: (b.tight ++ ' ' :: ':' :: ' ' :: c.tight) := by
  simp [chars, tight, render]

theorem chars_assign (op : AssignOp) (a b : Expr) (p : Pos) :
    (assign op a b p).chars = a.chars ++ ' ' :: (op.text.toList ++ ' ' :: b.chars) := by
  simp [chars, render]

theorem chars_cast (t : String) (e : Expr) (p : Pos) :
    (cast t e p).chars = '(' :: (t.toList ++ ')' :: e.tight) := by
  simp [chars, tight, render]

def listChars : List Expr → List Char
  | [] => []
  | [e] => e.chars
  | e :: es => e.chars ++ ',' :: ' ' :: listChars es

theorem toList_commaList (es : List Expr) : (commaList (es.map render)).toList = listChars es := by
  induction es with
  | nil => rfl
  | cons e es ih =>
    cases es with
    | nil => simp [commaList, listChars, chars]
    | cons e' es =>
      rw [listChars, ← ih]
      · simp [commaList, chars]
      · simp

theorem chars_initList (es : List Expr) (p : Pos) :
    (initList es p).chars = '\x7b' :: (listChars es ++ ['\x7d']) := by
  rw [← toList_commaList]
  simp [chars, render, renderAll_eq]

theorem pointer?_eq_some {f : Expr} {r : String} (h : f.pointer? = some r) :
    ∃ q n q', f = member (name r q) n true q' := by
  unfold pointer? at h
  split at h
  · cases h
    exact ⟨_, _, _, rfl⟩
  · cases h

/-- Where interface calls go through a pointer, calls are rendered alike. -/
theorem chars_call {f : Expr} {args : List Expr} {via : Bool}
    (h : via = true → f.pointer?.isSome = true) (p : Pos) :
    (call f args via p).chars = f.tight ++ '(' :: (listChars args ++ [')']) := by
  rw [← toList_commaList]
  cases via with
  | false => simp [chars, tight, render, renderAll_eq]
  | true =>
    obtain ⟨r, hr⟩ := Option.isSome_iff_exists.mp (h rfl)
    obtain ⟨q, n, q', rfl⟩ := pointer?_eq_some hr
    simp [chars, tight, enclose, isLoose, render, renderAll_eq, receiver?, tablePointer?,
      namedObject?, callee?, strip]

end Texts

def agrees (pointers : List String) : Expr → Bool
  | call f _ via _ => via == f.pointer?.any pointers.contains
  | _ => true

def Legible (pointers : List String) (e : Expr) : Prop :=
  ∀ x ∈ e.walk, x.IsSound ∧ x.isClear = true ∧ x.agrees pointers = true

section Legible

variable {pointers : List String}

theorem Legible.self (h : e.Legible pointers) :
    e.IsSound ∧ e.isClear = true ∧ e.agrees pointers = true :=
  h e (mem_walk_self e)

theorem Legible.child {c : Expr} (h : e.Legible pointers) (hc : c ∈ e.children) :
    c.Legible pointers :=
  fun x hx => h x (mem_walk_child hc hx)

theorem Legible.chars_call {f : Expr} {args : List Expr} {via : Bool} {p : Pos}
    (h : (call f args via p).Legible pointers) :
    (call f args via p).chars = f.tight ++ '(' :: (listChars args ++ [')']) := by
  refine Expr.chars_call (fun hvia => ?_) p
  have hagrees : via = f.pointer?.any pointers.contains := by simpa [agrees] using h.self.2.2
  rw [hvia] at hagrees
  cases hpointer : f.pointer? with
  | none => simp [hpointer] at hagrees
  | some r => rfl

theorem fronts_tight (h : Fronts e.chars) : Fronts e.tight := by
  cases hloose : e.isLoose with
  | false => rwa [tight_of_not_loose hloose]
  | true =>
    rw [tight_of_loose hloose]
    exact fronts_of_open (by decide)

theorem Legible.fronts (h : e.Legible pointers) : Fronts e.chars := by
  induction e using child_induction with
  | step e ih =>
  have sub : ∀ c ∈ e.children, Fronts c.tight := fun c hc => fronts_tight (ih c hc (h.child hc))
  have binOps_safe : ∀ op : BinOp, Safe op.text.toList := fun op => by cases op <;> decide
  have assignOps_safe : ∀ op : AssignOp, Safe op.text.toList := fun op => by cases op <;> decide
  have hsound := h.self.1
  cases e with
  | name n p =>
    obtain ⟨c, rest, htext, hc, hrest, -⟩ : NameText n.toList := hsound
    rw [chars, render, htext]
    have hqualified : ∀ d ∈ c :: rest, isQualifiedChar d = true := List.forall_mem_cons.mpr
      ⟨isQualifiedChar_of_isNameChar (isNameChar_of_isNameStart hc), hrest⟩
    refine fronts_of_not_mem (by simp) (fun hmem => ?_) fun hmem => ?_
    · exact absurd (hqualified _ hmem) (by decide)
    · exact absurd (hqualified _ hmem) (by decide)
  | literal t kind p => exact fronts_literalText hsound
  | ellipsis p =>
    rw [chars, render]
    exact fronts_of_not_mem (by decide) (by decide) (by decide)
  | call f args via p =>
    rw [h.chars_call]
    exact (sub f (by simp [children])).append (fronts_of_open (by decide)).safe
  | member o attr arrow p =>
    rw [chars_member]
    refine (sub o (by simp [children])).append ?_
    cases arrow <;> exact safe_of_head (by rfl) (by decide) _
  | index o i p =>
    rw [chars_index]
    exact (sub o (by simp [children])).append (safe_of_head (by rfl) (by decide) _)
  | unary op a side p =>
    obtain ⟨hfronts, hsafe, hgap⟩ := unOps_fronts op
    have ha := sub a (by simp [children])
    cases side with
    | before =>
      rw [chars_before]
      exact hfronts.append (hgap.append ha.safe)
    | behind =>
      rw [chars_behind]
      exact ha.append hsafe
  | binary op a b p =>
    have ha := sub a (by simp [children])
    have hb := (sub b (by simp [children])).safe.cons (show ' ' ≠ ')' by decide)
    by_cases hop : op = .comma
    · subst hop
      rw [chars_comma]
      exact ha.append (hb.cons (by decide))
    · rw [chars_binary hop]
      exact ha.append (((binOps_safe op).append hb).cons (by decide))
  | conditional a b c p =>
    have hb := (sub b (by simp [children])).safe
    have hc := (sub c (by simp [children])).safe
    rw [chars_conditional]
    refine (sub a (by simp [children])).append
      (Safe.cons (.cons (.cons ?_ (by decide)) (by decide)) (by decide))
    exact hb.append (.cons (.cons (hc.cons (by decide)) (by decide)) (by decide))
  | assign op a b p =>
    have hb := (ih b (by simp [children]) (h.child (by simp [children]))).safe
    rw [chars_assign]
    refine (ih a (by simp [children]) (h.child (by simp [children]))).append (.cons ?_ (by decide))
    exact (assignOps_safe op).append (hb.cons (by decide))
  | cast t a p =>
    rw [chars_cast]
    exact fronts_of_open (by decide)
  | initList es p =>
    rw [chars_initList]
    exact fronts_of_open (by decide)
  | verbatim t p =>
    obtain ⟨op, -, inner, htext, -⟩ : SizeText t.toList := hsound
    obtain ⟨hfronts, -, -⟩ := unOps_fronts op
    rw [chars, render, htext]
    exact hfronts.append (fronts_of_open (by decide)).safe

/-- No text in parentheses that is rendered for a part is the type of a cast. -/
theorem Legible.type?_loose (h : e.Legible pointers) (hloose : e.isLoose = true) (r : List Char) :
    type? (e.chars ++ r) = none := by
  cases e with
  | binary op a b p =>
    have ha := (fronts_tight (h.child (c := a) (by simp [children])).fronts).safe
    by_cases hop : op = .comma
    · subst hop
      rw [chars_comma, List.append_assoc]
      exact type?_eq_none ha (.inr (.inr (by decide))) _
    · obtain ⟨front, x, htext, hfront, hx⟩ := binOps_last op hop
      rw [chars_binary hop, htext]
      have hnone :=
        type?_eq_none (ha.append (hfront.cons (show ' ' ≠ ')' by decide))) hx (b.tight ++ r)
      simpa using hnone
  | conditional a b c p =>
    have ha := (fronts_tight (h.child (c := a) (by simp [children])).fronts).safe
    have hmark : Safe (a.tight ++ [' ']) := ha.append (safe_nil.cons (by decide))
    have hnone := type?_eq_none (x := '?') hmark (.inr (.inr (by decide)))
      (b.tight ++ ' ' :: ':' :: ' ' :: (c.tight ++ r))
    rw [chars_conditional]
    simpa using hnone
  | assign op a b p =>
    have ha := (h.child (c := a) (by simp [children])).fronts.safe
    obtain ⟨front, htext, hfront⟩ := assignOps_last op
    have hnone :=
      type?_eq_none (x := '=') (ha.append (hfront.cons (show ' ' ≠ ')' by decide)))
        (.inr (.inr (by decide))) (b.chars ++ r)
    rw [chars_assign, htext]
    simpa using hnone
  | _ => cases hloose

end Legible

end Expr

end JniContracts
