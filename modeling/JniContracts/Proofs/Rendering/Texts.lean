import JniContracts.Proofs.Lexemes

/-!
The texts of tokens. Each kind of token has its form, and a text of that form is read as a whole in
front of whatever does not go on with it.
-/

namespace JniContracts.Lexer

variable {cs t : List Char} {cut : Cut}

def Stops (r : List Char) : Prop := ∀ c ∈ r.head?, isNameChar c = false ∧ c ≠ '.' ∧ c ≠ '\''

def marks : List (List Char) := [[], ['u', '8'], ['L'], ['u'], ['U']]

def SuffixText (s : List Char) : Prop := ∀ c ∈ s, ['u', 'U', 'l', 'L', 'f', 'F'].contains c = true

def ExponentText (e : List Char) : Prop :=
  e = [] ∨ ∃ x sign ds, (x = 'e' ∨ x = 'E') ∧ sign ∈ [[], ['+'], ['-']] ∧ ds ≠ [] ∧
    (∀ d ∈ ds, isDigit d = true) ∧ e = x :: (sign ++ ds)

def ScaledText (t : List Char) : Prop := ∃ e s, t = e ++ s ∧ ExponentText e ∧ SuffixText s

inductive NumberText : List Char → Prop
  | fraction {ds t : List Char} (hne : ds ≠ []) (hds : ∀ d ∈ ds, isDigit d = true)
      (ht : ScaledText t) : NumberText ('.' :: (ds ++ t))
  | point {c : Char} {ds fs t : List Char} (hc : isDigit c = true)
      (hds : ∀ d ∈ ds, isDigitOrTick d = true) (hfs : ∀ d ∈ fs, isDigit d = true)
      (ht : ScaledText t) : NumberText (c :: (ds ++ '.' :: (fs ++ t)))
  | whole {c : Char} {ds t : List Char} (hc : isDigit c = true)
      (hds : ∀ d ∈ ds, isDigitOrTick d = true) (ht : ScaledText t) : NumberText (c :: (ds ++ t))
  | hex {x : Char} {ds s : List Char} (hx : x = 'x' ∨ x = 'X') (hne : ds ≠ [])
      (hds : ∀ d ∈ ds, isHexOrTick d = true) (hs : SuffixText s)
      (hend : ∀ c ∈ s.head?, isHexOrTick c = false) : NumberText ('0' :: x :: (ds ++ s))

def WordText (t : List Char) : Prop :=
  ∃ c rest, t = c :: rest ∧ isNameStart c = true ∧ ∀ d ∈ rest, isNameChar d = true

/-- An encoding mark, a quote, and the inside up to the first quote that no backslash takes. -/
def QuotedText (quote : Char) (t : List Char) : Prop :=
  ∃ mark ∈ marks, ∃ body, t = mark ++ quote :: body ∧ literalBody quote body = some (body, [])

def CharText (t : List Char) : Prop :=
  ∃ mark ∈ marks, ∃ body, t = mark ++ '\'' :: body ∧ body.head? ≠ some '\'' ∧
    literalBody '\'' body = some (body, [])

def Fits : TokenKind → List Char → Prop
  | .ident, t => WordText t
  | .number, t => NumberText t
  | .string, t => QuotedText '"' t
  | .char, t => CharText t
  | .punct, t => ∃ p ∈ punctuators, p.toList = t
  | .eof, t => t = []

section Characters

variable {c : Char}

theorem isAlphanum_iff :
    c.isAlphanum = true ↔ ((65 ≤ c.toNat ∧ c.toNat ≤ 90) ∨ (97 ≤ c.toNat ∧ c.toNat ≤ 122)) ∨
    (48 ≤ c.toNat ∧ c.toNat ≤ 57) := by
  delta Char.isAlphanum Char.isAlpha Char.isUpper Char.isLower Char.isDigit
  simp only [Bool.or_eq_true, Bool.and_eq_true, decide_eq_true_eq,
    UInt32.le_iff_toNat_le, ge_iff_le]
  rfl

theorem lt_of_isAlphanum (h : c.isAlphanum = true) : c.toNat < 128 := by
  rw [isAlphanum_iff] at h
  omega

theorem isNameChar_of_isAlphanum (h : c.isAlphanum = true) : isNameChar c = true := by
  simp [isNameChar, Text.isWordChar, lt_of_isAlphanum h, h]

theorem isAlphanum_of_isDigit (h : isDigit c = true) : c.isAlphanum = true := by
  rw [isDigit] at h
  rw [Char.isAlphanum, h, Bool.or_true]

theorem isNameChar_of_isDigit (h : isDigit c = true) : isNameChar c = true :=
  isNameChar_of_isAlphanum (isAlphanum_of_isDigit h)

theorem isNameChar_of_isHexOrTick (h : isHexOrTick c = true) (hc : c ≠ '\'') :
    isNameChar c = true := by
  apply isNameChar_of_isAlphanum
  simp only [isHexOrTick, Bool.or_eq_true, Bool.and_eq_true, decide_eq_true_eq, beq_iff_eq, hc,
    or_false, Char.le_def, UInt32.le_iff_toNat_le] at h
  have hval : c.val.toNat = c.toNat := rfl
  have hf : 'f'.val.toNat = 102 := rfl
  have hF : 'F'.val.toNat = 70 := rfl
  have ha : 'a'.val.toNat = 97 := rfl
  have hA : 'A'.val.toNat = 65 := rfl
  obtain (hdigit | hlower) | hupper := h
  · exact isAlphanum_of_isDigit hdigit
  all_goals
    rw [isAlphanum_iff]
    omega

theorem isNameChar_of_isNameStart (h : isNameStart c = true) : isNameChar c = true := by
  simp only [isNameStart, Text.isWordStart, Bool.or_eq_true, Bool.and_eq_true] at h
  simp only [isNameChar, Bool.or_eq_true]
  exact h.imp_left And.left

theorem not_isDigit_of_isNameStart (h : isNameStart c = true) : isDigit c = false := by
  cases hdigit : isDigit c with
  | false => rfl
  | true =>
    have hne : c ≠ '$' := by
      rintro rfl
      cases hdigit
    have hlt := lt_of_isAlphanum (isAlphanum_of_isDigit hdigit)
    rw [isDigit] at hdigit
    simp [isNameStart, Text.isWordStart, Text.isDecimalDigit, hlt, hdigit, hne] at h

end Characters

section Numbers

variable {c : Char} {cs r n : List Char}

theorem suffix_spec (h : ['u', 'U', 'l', 'L', 'f', 'F'].contains c = true) :
    isNameChar c = true ∧ isDigitOrTick c = false ∧ c ∉ ['.', 'x', 'X', 'e', 'E'] := by
  simp only [List.contains_eq_mem, decide_eq_true_eq, List.mem_cons, List.not_mem_nil,
    or_false] at h
  obtain rfl | rfl | rfl | rfl | rfl | rfl := h <;> decide

theorem numberSuffix_append {s : List Char} (hs : SuffixText s) (hr : Stops r) :
    numberSuffix (s ++ r) = (s, r) := by
  refine span_append hs fun c hc => ?_
  have hname := (hr c hc).1
  by_contra hsuffix
  rw [(suffix_spec (Bool.of_not_eq_false hsuffix)).1] at hname
  cases hname

theorem suffixText_of_numberSuffix {cs s rest : List Char} (h : numberSuffix cs = (s, rest)) :
    SuffixText s :=
  (of_span h).1

theorem head_scaled (ht : ScaledText t) (hr : Stops r) (hc : c ∈ (t ++ r).head?) :
    isDigitOrTick c = false ∧ c ≠ '.' ∧ c ≠ 'x' ∧ c ≠ 'X' := by
  obtain ⟨e, s, rfl, he, hs⟩ := ht
  have hrest : ∀ c ∈ r.head?, isDigitOrTick c = false ∧ c ≠ '.' ∧ c ≠ 'x' ∧ c ≠ 'X' := by
    intro c hc
    obtain ⟨hname, hdot, htick⟩ := hr c hc
    have hdigit : isDigit c = false := by
      cases hd : isDigit c with
      | false => rfl
      | true => rw [isNameChar_of_isDigit hd] at hname; cases hname
    rw [isDigit] at hdigit
    refine ⟨by simp [isDigitOrTick, hdigit, htick], hdot, ?_, ?_⟩ <;> (rintro rfl; cases hname)
  obtain rfl | ⟨x, sign, ds, hx, -, -, -, rfl⟩ := he
  · cases s with
    | nil => exact hrest c hc
    | cons d s =>
      obtain rfl : d = c := by simpa using hc
      obtain ⟨-, hdigit, hother⟩ := suffix_spec (hs d List.mem_cons_self)
      simp only [List.mem_cons, not_or] at hother
      exact ⟨hdigit, hother.1, hother.2.1, hother.2.2.1⟩
  · obtain rfl : x = c := by simpa using hc
    obtain rfl | rfl := hx <;> decide

theorem exponentText_of_exponent (cs : List Char) : ExponentText (exponent cs).1 := by
  fun_cases exponent cs with
  | case2 x rest hx sign digits hsign ds after hds hspan =>
    have hsigns : sign ∈ [[], ['+'], ['-']] := by
      split at hsign <;> cases hsign <;> simp
    exact .inr ⟨x, sign, ds, by simpa using hx, hsigns, hds, (of_span hspan).1, rfl⟩
  | case1 | case3 | case4 => exact .inl rfl

theorem exponent_of_head (h : ∀ c ∈ cs.head?, c ≠ 'e' ∧ c ≠ 'E') : exponent cs = ([], cs) := by
  cases cs with
  | nil => rfl
  | cons c cs =>
    obtain ⟨he, hE⟩ := h c rfl
    simp [exponent, he, hE]

theorem exponent_cons {x : Char} {sign digits ds after : List Char} (hx : x = 'e' ∨ x = 'E')
    (hsign : sign ∈ [[], ['+'], ['-']]) (hdigits : ∀ d ∈ digits.head?, d ≠ '+' ∧ d ≠ '-')
    (hne : ds ≠ []) (hspan : digits.span isDigit = (ds, after)) :
    exponent (x :: (sign ++ digits)) = (x :: (sign ++ ds), after) := by
  have hmark : (x == 'e' || x == 'E') = true := by simpa using hx
  cases ds with
  | nil => exact absurd rfl hne
  | cons d ds =>
    simp only [List.mem_cons, List.not_mem_nil, or_false] at hsign
    obtain rfl | rfl | rfl := hsign
    · have hsplit : ∀ r, digits ≠ '+' :: r ∧ digits ≠ '-' :: r := by
        refine fun r => ⟨?_, ?_⟩ <;> (rintro rfl; simpa using hdigits _ rfl)
      rw [List.nil_append, exponent]
      · simp only [hmark, if_true, hspan]
        rfl
      · exact fun r => (hsplit r).1
      · exact fun r => (hsplit r).2
    all_goals simp only [exponent, List.cons_append, List.nil_append, hmark, if_true, hspan]

theorem scaled_append (ht : ScaledText t) (hr : Stops r) : scaled (t ++ r) = (t, r) := by
  obtain ⟨e, s, rfl, he, hs⟩ := ht
  have hexponent : exponent (e ++ (s ++ r)) = (e, s ++ r) := by
    obtain rfl | ⟨x, sign, ds, hx, hsign, hne, hds, rfl⟩ := he
    · refine exponent_of_head fun c hc => ?_
      cases s with
      | nil =>
        have hname := (hr c hc).1
        constructor <;> (rintro rfl; cases hname)
      | cons d s =>
        obtain rfl : d = c := by simpa using hc
        obtain ⟨-, -, hother⟩ := suffix_spec (hs d List.mem_cons_self)
        simp only [List.mem_cons, not_or] at hother
        exact ⟨hother.2.2.2.1, hother.2.2.2.2.1⟩
    · have hspan : (ds ++ (s ++ r)).span isDigit = (ds, s ++ r) := by
        refine span_append hds fun c hc => ?_
        have htick := (head_scaled ⟨[], s, rfl, .inl rfl, hs⟩ hr hc).1
        rw [isDigitOrTick, Bool.or_eq_false_iff] at htick
        exact htick.1
      have hdigits : ∀ d ∈ (ds ++ (s ++ r)).head?, d ≠ '+' ∧ d ≠ '-' := by
        cases ds with
        | nil => exact absurd rfl hne
        | cons d ds =>
          have hd := hds d List.mem_cons_self
          intro c hc
          obtain rfl : d = c := by simpa using hc
          constructor <;> (rintro rfl; cases hd)
      have happend := exponent_cons hx hsign hdigits hne hspan
      simpa using happend
  rw [scaled, List.append_assoc, hexponent]
  simp only [numberSuffix_append hs hr, inFront]

theorem scaledText_of_scaled (cs : List Char) : ScaledText (scaled cs).1 :=
  ⟨_, _, rfl, exponentText_of_exponent cs, suffixText_of_numberSuffix rfl⟩

theorem numberText_of_decimalNumber (h : decimalNumber cs = some cut) : NumberText cut.1 := by
  fun_cases decimalNumber cs with
  | case1 rest _ hspan => simp only [decimalNumber, hspan, reduceCtorEq] at h
  | case2 rest ds after hds hspan =>
    obtain rfl : inFront ('.' :: ds) (scaled after) = cut := by
      simpa only [decimalNumber, hspan, Option.some.injEq] using h
    exact .fraction hds (of_span hspan).1 (scaledText_of_scaled after)
  | case3 c rest hdot hc ds after fs tail hfs hds =>
    obtain rfl : inFront (c :: ds ++ '.' :: fs) (scaled tail) = cut := by
      simpa only [decimalNumber, hc, hds, hfs, if_true, Option.some.injEq] using h
    have hnumber := NumberText.point hc (of_span hds).1 (of_span hfs).1 (scaledText_of_scaled tail)
    simpa [inFront] using hnumber
  | case4 c rest hdot hc ds after hafter hds =>
    obtain rfl : inFront (c :: ds) (scaled after) = cut := by
      simpa only [decimalNumber, hc, hds, if_true, Option.some.injEq] using h
    exact .whole hc (of_span hds).1 (scaledText_of_scaled after)
  | case5 c rest hdot hc => simp [decimalNumber, hc] at h
  | case6 => cases h

theorem numberText_of_number (h : number cs = some cut) : NumberText cut.1 := by
  fun_cases number cs with
  | case1 x rest hx _ hspan =>
    exact numberText_of_decimalNumber (by simpa only [number, hx, hspan, if_true] using h)
  | case2 x rest hx ds after hds hspan =>
    obtain rfl : inFront ('0' :: x :: ds) (numberSuffix after) = cut := by
      simpa only [number, hx, hspan, if_true, Option.some.injEq] using h
    refine .hex (s := (numberSuffix after).1) (by simpa using hx) hds (of_span hspan).1
      (suffixText_of_numberSuffix rfl) fun c hc => ?_
    have hparts : (numberSuffix after).1 ++ (numberSuffix after).2 = after :=
      parts_numberSuffix after
    refine (of_span hspan).2 c ?_
    rw [← hparts]
    cases hs : (numberSuffix after).1 with
    | nil => rw [hs] at hc; cases hc
    | cons d s => rwa [hs] at hc
  | case3 x rest hx => exact numberText_of_decimalNumber (by simpa [number, hx] using h)
  | case4 cs hcs =>
    rw [number] at h
    · exact numberText_of_decimalNumber h
    · exact hcs

theorem number_eq_decimalNumber (h : ∀ x rest, cs = '0' :: x :: rest → x ≠ 'x' ∧ x ≠ 'X') :
    number cs = decimalNumber cs := by
  fun_cases number cs with
  | case2 x rest hx => simp [h x rest rfl] at hx
  | case1 | case3 | case4 => rfl

/-- Digits, and what an exponent and a suffix may follow, do not make a number hexadecimal. -/
theorem second_ne_x {ds rest : List Char} (hds : ∀ d ∈ ds, isDigitOrTick d = true)
    (hrest : ∀ c ∈ rest.head?, c ≠ 'x' ∧ c ≠ 'X') {c x : Char} {tail : List Char}
    (h : c :: (ds ++ rest) = '0' :: x :: tail) : x ≠ 'x' ∧ x ≠ 'X' := by
  cases ds with
  | nil => exact hrest x (by simp_all)
  | cons d ds =>
    obtain rfl : d = x := by simp_all
    have hd := hds d List.mem_cons_self
    constructor <;> (rintro rfl; cases hd)

theorem number_append (hn : NumberText n) (hr : Stops r) : number (n ++ r) = some (n, r) := by
  cases hn with
  | @fraction ds t hne hds ht =>
    have hspan : (ds ++ (t ++ r)).span isDigit = (ds, t ++ r) := by
      refine span_append hds fun c hc => ?_
      have htick := (head_scaled ht hr hc).1
      rw [isDigitOrTick, Bool.or_eq_false_iff] at htick
      exact htick.1
    rw [number_eq_decimalNumber (by simp)]
    cases ds with
    | nil => exact absurd rfl hne
    | cons d ds =>
      rw [List.cons_append, List.append_assoc, decimalNumber, hspan]
      simp [scaled_append ht hr, inFront]
  | @point c ds fs t hc hds hfs ht =>
    have hdot : c ≠ '.' := by
      rintro rfl
      cases hc
    have hspan :
        (ds ++ '.' :: (fs ++ (t ++ r))).span isDigitOrTick = (ds, '.' :: (fs ++ (t ++ r))) :=
      span_append hds fun c hc => by
        obtain rfl : '.' = c := by simpa using hc
        rfl
    have hfraction : (fs ++ (t ++ r)).span isDigit = (fs, t ++ r) := by
      refine span_append hfs fun c hc => ?_
      have htick := (head_scaled ht hr hc).1
      rw [isDigitOrTick, Bool.or_eq_false_iff] at htick
      exact htick.1
    have hshape : c :: (ds ++ '.' :: (fs ++ t)) ++ r = c :: (ds ++ '.' :: (fs ++ (t ++ r))) := by
      simp
    rw [hshape, number_eq_decimalNumber fun x tail h => second_ne_x hds (by simp) h, decimalNumber]
    · simp only [hc, if_true, hspan, hfraction, scaled_append ht hr, inFront]
      simp
    · exact hdot
  | @whole c ds t hc hds ht =>
    have hdot : c ≠ '.' := by
      rintro rfl
      cases hc
    have hspan : (ds ++ (t ++ r)).span isDigitOrTick = (ds, t ++ r) :=
      span_append hds fun c hc => (head_scaled ht hr hc).1
    rw [List.cons_append, List.append_assoc, number_eq_decimalNumber fun x tail h =>
      second_ne_x hds (fun c hc => (head_scaled ht hr hc).2.2) h, decimalNumber]
    · simp only [hc, if_true, hspan]
      split
      · rename_i after hafter
        exact absurd rfl (head_scaled ht hr (c := '.') (by rw [hafter]; rfl)).2.1
      · simp [scaled_append ht hr, inFront]
    · exact hdot
  | @hex x ds s hx hne hds hs hend =>
    have hspan : (ds ++ (s ++ r)).span isHexOrTick = (ds, s ++ r) := by
      refine span_append hds fun c hc => ?_
      cases s with
      | nil =>
        obtain ⟨hname, -, htick⟩ := hr c hc
        cases hhex : isHexOrTick c with
        | false => rfl
        | true => rw [isNameChar_of_isHexOrTick hhex htick] at hname; cases hname
      | cons d s => exact hend c hc
    have hmark : (x == 'x' || x == 'X') = true := by simpa using hx
    cases ds with
    | nil => exact absurd rfl hne
    | cons d ds =>
      have hshape : '0' :: x :: (d :: ds ++ s) ++ r = '0' :: x :: (d :: ds ++ (s ++ r)) := by simp
      rw [hshape, number, hspan]
      simp [hmark, numberSuffix_append hs hr, inFront]

theorem ScaledText.mem (h : ScaledText t) (hc : c ∈ t) : isNameChar c = true ∨ c ∈ ['+', '-'] := by
  obtain ⟨e, s, rfl, he, hs⟩ := h
  obtain hc | hc := List.mem_append.mp hc
  · obtain rfl | ⟨x, sign, ds, hx, hsign, -, hds, rfl⟩ := he
    · cases hc
    · obtain rfl | hc := List.mem_cons.mp hc
      · obtain rfl | rfl := hx <;> exact .inl rfl
      · obtain hc | hc := List.mem_append.mp hc
        · simp only [List.mem_cons, List.not_mem_nil, or_false] at hsign
          obtain rfl | rfl | rfl := hsign <;> simp_all
        · exact .inl (isNameChar_of_isDigit (hds c hc))
  · exact .inl (suffix_spec (hs c hc)).1

theorem isNameChar_or_tick (h : isHexOrTick c = true) : isNameChar c = true ∨ c = '\'' := by
  by_cases hc : c = '\''
  · exact .inr hc
  · exact .inl (isNameChar_of_isHexOrTick h hc)

theorem isHexOrTick_of_isDigitOrTick (h : isDigitOrTick c = true) : isHexOrTick c = true := by
  rw [isDigitOrTick, Bool.or_eq_true] at h
  obtain h | h := h <;> simp [isHexOrTick, h]

/-- Ticks stand only in the first run of digits of a number. -/
theorem NumberText.split (h : NumberText n) : ∃ run rest, n = run ++ rest ∧
    (∀ c ∈ run.head?, isDigit c = true) ∧ (∀ c ∈ run, isNameChar c = true ∨ c = '\'') ∧
    ∀ c ∈ rest, isNameChar c = true ∨ c ∈ ['.', '+', '-'] := by
  have scaled :
      ∀ {t : List Char}, ScaledText t → ∀ c ∈ t, isNameChar c = true ∨ c ∈ ['.', '+', '-'] :=
    fun ht c hc =>
    (ht.mem hc).imp_right (List.mem_cons_of_mem _)
  have digits : ∀ {ds t : List Char}, (∀ d ∈ ds, isDigit d = true) → ScaledText t →
      ∀ c ∈ '.' :: (ds ++ t), isNameChar c = true ∨ c ∈ ['.', '+', '-'] := by
    intro ds t hds ht c hc
    obtain rfl | hc := List.mem_cons.mp hc
    · exact .inr List.mem_cons_self
    · obtain hc | hc := List.mem_append.mp hc
      · exact .inl (isNameChar_of_isDigit (hds c hc))
      · exact scaled ht c hc
  have ticks :
      ∀ {c : Char} {ds : List Char}, isDigit c = true → (∀ d ∈ ds, isDigitOrTick d = true) →
      ∀ d ∈ c :: ds, isNameChar d = true ∨ d = '\'' := by
    intro c ds hc hds d hd
    obtain rfl | hd := List.mem_cons.mp hd
    · exact .inl (isNameChar_of_isDigit hc)
    · exact isNameChar_or_tick (isHexOrTick_of_isDigitOrTick (hds d hd))
  cases h with
  | fraction _ hds ht => exact ⟨[], _, rfl, by simp, by simp, digits hds ht⟩
  | @point c ds fs t hc hds hfs ht =>
    exact ⟨c :: ds, _, rfl, by simpa using hc, ticks hc hds, digits hfs ht⟩
  | @whole c ds t hc hds ht => exact ⟨c :: ds, t, rfl, by simpa using hc, ticks hc hds, scaled ht⟩
  | @hex x ds s hx _ hds hs _ =>
    refine ⟨'0' :: x :: ds, s, rfl, fun c hc => ?_, fun c hc => ?_,
      scaled ⟨[], s, rfl, .inl rfl, hs⟩⟩
    · obtain rfl : '0' = c := by simpa using hc
      rfl
    · obtain rfl | hc := List.mem_cons.mp hc
      · exact .inl rfl
      · obtain rfl | hc := List.mem_cons.mp hc
        · obtain rfl | rfl := hx <;> exact .inl rfl
        · exact isNameChar_or_tick (hds c hc)

theorem NumberText.mem (h : NumberText n) (hc : c ∈ n) :
    isNameChar c = true ∨ c ∈ ['.', '+', '-', '\''] := by
  obtain ⟨run, rest, rfl, -, hrun, hrest⟩ := h.split
  obtain hc | hc := List.mem_append.mp hc
  · exact (hrun c hc).imp_right fun h => by simp [h]
  · refine (hrest c hc).imp_right fun h => ?_
    simp only [List.mem_cons, List.not_mem_nil, or_false] at h ⊢
    tauto

theorem NumberText.head (h : NumberText n) :
    ∃ c rest, n = c :: rest ∧
    (isDigit c = true ∨ c = '.' ∧ ∃ d tail, rest = d :: tail ∧ isDigit d = true) := by
  cases h with
  | @fraction ds t hne hds _ =>
    cases ds with
    | nil => exact absurd rfl hne
    | cons d ds => exact ⟨'.', _, rfl, .inr ⟨rfl, d, _, rfl, hds d List.mem_cons_self⟩⟩
  | point hc _ _ _ => exact ⟨_, _, rfl, .inl hc⟩
  | whole hc _ _ => exact ⟨_, _, rfl, .inl hc⟩
  | hex => exact ⟨'0', _, rfl, .inl rfl⟩

end Numbers

section Literals

variable {quote : Char}

theorem opening_append {mark : List Char} (hmark : mark ∈ marks)
    (hquote : quote = '"' ∨ quote = '\'') (rest : List Char) :
    opening quote (mark ++ quote :: rest) = some (mark ++ [quote], rest) := by
  simp only [marks, List.mem_cons, List.not_mem_nil, or_false] at hmark
  obtain rfl | rfl := hquote <;> obtain rfl | rfl | rfl | rfl | rfl := hmark <;> cases rest <;>
    simp [opening]

/-- The inside of a literal is passed over in front of any text. -/
theorem literalBody_inner (h : literalBody quote cs = some cut) :
    ∃ inner, cut.1 = inner ++ [quote] ∧ ∀ tail, literalBody quote (inner ++ tail) =
      (literalBody quote tail).map (inFront inner) := by
  fun_induction literalBody quote cs generalizing cut with
  | case1 => cases h
  | case2 c rest ih =>
    obtain ⟨body, hbody, rfl⟩ := Option.map_eq_some_iff.mp h
    obtain ⟨inner, hinner, hpass⟩ := ih hbody
    refine ⟨'\\' :: c :: inner, by simp [more, hinner], fun tail => ?_⟩
    rw [List.cons_append, List.cons_append, literalBody, hpass, Option.map_map]
    rfl
  | case3 c rest _ hc =>
    cases h
    obtain rfl : c = quote := by simpa using hc
    refine ⟨[], rfl, fun tail => ?_⟩
    rw [List.nil_append]
    cases literalBody c tail <;> rfl
  | case4 => cases h
  | case5 c rest hesc hquote hstop ih =>
    obtain ⟨body, hbody, rfl⟩ := Option.map_eq_some_iff.mp h
    obtain ⟨inner, hinner, hpass⟩ := ih hbody
    refine ⟨c :: inner, by simp [more, hinner], fun tail => ?_⟩
    have hslash : c ≠ '\\' := fun hc => by simp [hc] at hstop
    rw [List.cons_append, literalBody]
    · simp only [hquote, hstop, hpass, Option.map_map]
      rfl
    · intro d tail hc
      exact absurd hc hslash

theorem literalBody_quote (hquote : quote = '"' ∨ quote = '\'') (r : List Char) :
    literalBody quote (quote :: r) = some ([quote], r) := by
  obtain rfl | rfl := hquote <;> rw [literalBody] <;> simp

theorem literalBody_append (hquote : quote = '"' ∨ quote = '\'')
    (h : literalBody quote cs = some cut) (r : List Char) :
    literalBody quote (cut.1 ++ r) = some (cut.1, r) := by
  obtain ⟨inner, hinner, hpass⟩ := literalBody_inner h
  rw [hinner, List.append_assoc, List.singleton_append, hpass, literalBody_quote hquote]
  rfl

theorem charLiteral_append (h : CharText t) (r : List Char) :
    charLiteral (t ++ r) = some (t, r) := by
  obtain ⟨mark, hmark, body, rfl, hhead, hbody⟩ := h
  have hne : body ≠ [] := by
    rintro rfl
    cases hbody
  have hfirst : (body ++ r).head? ≠ some '\'' := by
    cases body with
    | nil => exact absurd rfl hne
    | cons c body => exact hhead
  rw [charLiteral, List.append_assoc, List.cons_append, opening_append hmark (.inr rfl)]
  simp only [Option.bind_eq_bind, Option.bind_some, beq_iff_eq, hfirst, if_false,
    literalBody_append (.inr rfl) hbody r]
  simp [inFront]

end Literals

theorem Taken.fits {kind : TokenKind} (h : Taken cs (.token kind) cut) : Fits kind cut.1 := by
  have itself :
      ∀ {quote body inner}, (quote = '"' ∨ quote = '\'') → literalBody quote body = some inner →
      literalBody quote inner.1 = some (inner.1, []) := by
    intro quote body inner hquote hinner
    have happend := literalBody_append hquote hinner []
    rwa [List.append_nil] at happend
  cases h with
  | string first body inner hopening hbody =>
    obtain ⟨-, mark, hmark, rfl⟩ := opening_cases hopening
    exact ⟨mark, hmark, inner.1, by simp [inFront], itself (.inl rfl) hbody⟩
  | char cut hcut =>
    obtain ⟨first, rest, inner, hopening, hhead, hinner, rfl⟩ := charLiteral_cases hcut
    obtain ⟨-, mark, hmark, rfl⟩ := opening_cases hopening
    refine ⟨mark, hmark, inner.1, by simp [inFront], ?_, itself (.inr rfl) hinner⟩
    have hparts : inner.1 ++ inner.2 = rest := parts_literalBody hinner
    cases hfirst : inner.1 with
    | nil => simp
    | cons c tail =>
      rw [← hparts, hfirst] at hhead
      exact hhead
  | number cut hcut => exact numberText_of_number hcut
  | ident cut hcut =>
    obtain ⟨c, rest, -, hc, rfl⟩ := identifier_cases hcut
    exact ⟨c, _, rfl, hc,
      (of_span (show rest.span isNameChar = (_, (rest.span isNameChar).2) from rfl)).1⟩
  | punct cut hcut => exact (punctuator_cases hcut).1

theorem Taken.kind_ne_eof {kind : TokenKind} (h : Taken cs (.token kind) cut) : kind ≠ .eof := by
  cases h <;> simp

/-- The end mark is the last token and no other, and each of the others has the form of its kind. -/
theorem fits_of_scan {tokens : List Token} (fuel : Nat) (fresh : Bool) (p : Pos) (seen : List Token)
    (cs : List Char) (hseen : ∀ t ∈ seen, t.kind ≠ .eof ∧ Fits t.kind t.text.toList)
    (h : scan fuel fresh p seen cs = .ok tokens) :
    ∃ (front : List Token) (q : Pos), tokens = front ++ [⟨.eof, "", q⟩] ∧
    ∀ t ∈ front, t.kind ≠ .eof ∧ Fits t.kind t.text.toList := by
  have done : ∀ {p seen}, (∀ t ∈ seen, t.kind ≠ .eof ∧ Fits t.kind t.text.toList) →
      (.ok ((⟨.eof, "", p⟩ : Token) :: seen).reverse : Except Fault _) = .ok tokens →
      ∃ (front : List Token) (q : Pos), tokens = front ++ [⟨.eof, "", q⟩] ∧
        ∀ t ∈ front, t.kind ≠ .eof ∧ Fits t.kind t.text.toList := by
    intro p seen hseen h
    cases h
    exact ⟨seen.reverse, p, List.reverse_cons, fun t ht => hseen t (List.mem_reverse.mp ht)⟩
  induction fuel generalizing fresh p seen cs with
  | zero => exact done hseen h
  | succ fuel ih =>
    cases cs with
    | nil => exact done hseen h
    | cons c cs =>
      rw [scan] at h
      · split at h
        · exact ih _ _ _ _ hseen h
        · split at h
          · cases h
          · rename_i kind text rest hlexeme
            have htaken := taken_of_lexeme (by simp) hlexeme
            refine ih _ _ _ _ (fun t ht => ?_) h
            obtain rfl | ht := List.mem_cons.mp ht
            · exact ⟨htaken.kind_ne_eof, by simpa using htaken.fits⟩
            · exact hseen t ht
          · exact ih _ _ _ _ hseen h
      · simp

end JniContracts.Lexer
