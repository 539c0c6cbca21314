import Mathlib.Data.Bool.AllAny
import JniContracts.Proofs.FileScope
import JniContracts.Proofs.Rendering.Texts

/-!
Texts that are put together from a run of tokens: what stands in the parentheses of `sizeof`, and
the type of a cast. The first ends at the parenthesis that closes it, which can be found in the text
alone; the second has marks of pointers that are set off in front and never behind.
-/

namespace JniContracts.Rendering

open Lexer Parse

variable {t : Token} {ts : List Token}

inductive Mode where
  | plain
  | word
  | number
  | quoted (quote : Char)
  | escaped (quote : Char)
  deriving DecidableEq

namespace Mode

def start (c : Char) : Mode :=
  if c == '"' || c == '\'' then quoted c
  else if isDigit c then number
  else if isNameChar c then word
  else plain

def next : Mode → Char → Mode
  | plain, c => start c
  | word, c => if isNameChar c then word else start c
  | number, c => if isNameChar c || c == '\'' then number else start c
  | quoted q, c => if c == '\\' then escaped q else if c == q then plain else quoted q
  | escaped q, _ => quoted q

def isOpen : Mode → Bool
  | quoted _ | escaped _ => false
  | plain | word | number => true

end Mode

/-- Up to and with the parenthesis that closes, behind `depth` more that are open. -/
def skim (mode : Mode) (depth : Nat) : List Char → Option Cut
  | [] => none
  | c :: cs =>
    if mode.isOpen && c == '(' then (skim (mode.next c) (depth + 1) cs).map (more c)
    else if mode.isOpen && c == ')' then
      match depth with
      | 0 => some ([c], cs)
      | depth + 1 => (skim (mode.next c) depth cs).map (more c)
    else (skim (mode.next c) depth cs).map (more c)

/-- A text that is passed over in front of any other. -/
def Carries (mode : Mode) (depth : Nat) (text : List Char) (mode' : Mode) (depth' : Nat) : Prop :=
  ∀ rest, skim mode depth (text ++ rest) = (skim mode' depth' rest).map (inFront text)

section Carries

variable {m m' m'' : Mode} {d d' d'' : Nat} {text text' : List Char} {c : Char}

theorem carries_nil : Carries m d [] m d := by
  intro rest
  rw [List.nil_append]
  cases skim m d rest <;> rfl

theorem Carries.append (h : Carries m d text m' d') (h' : Carries m' d' text' m'' d'') :
    Carries m d (text ++ text') m'' d'' := by
  intro rest
  rw [List.append_assoc, h, h', Option.map_map]
  cases skim m'' d'' rest with
  | none => rfl
  | some cut => simp [inFront]

theorem carries_char (h : m.isOpen = true → c ≠ '(' ∧ c ≠ ')') : Carries m d [c] (m.next c) d := by
  intro rest
  have hopen : (m.isOpen && c == '(') = false ∧ (m.isOpen && c == ')') = false := by
    cases hm : m.isOpen with
    | false => exact ⟨rfl, rfl⟩
    | true => simp [h hm]
  simp only [List.singleton_append, skim, hopen.1, hopen.2]
  rfl

theorem carries_cons (h : m.isOpen = true → c ≠ '(' ∧ c ≠ ')')
    (h' : Carries (m.next c) d text m' d') : Carries m d (c :: text) m' d' :=
  (carries_char h).append h'

theorem carries_run (h : ∀ c ∈ text, m.next c = m ∧ (m.isOpen = true → c ≠ '(' ∧ c ≠ ')')) :
    Carries m d text m d := by
  induction text with
  | nil => exact carries_nil
  | cons c text ih =>
    obtain ⟨hnext, hc⟩ := h c List.mem_cons_self
    refine carries_cons hc ?_
    rw [hnext]
    exact ih fun c hc => h c (List.mem_cons_of_mem _ hc)

theorem next_paren (hm : m.isOpen = true) (hc : c = '(' ∨ c = ')') : m.next c = .plain := by
  cases m with
  | plain | word | number => obtain rfl | rfl := hc <;> rfl
  | quoted | escaped => cases hm

theorem carries_open (hm : m.isOpen = true) : Carries m d ['('] .plain (d + 1) := by
  intro rest
  simp only [List.singleton_append, skim, hm, next_paren hm (.inl rfl)]
  rfl

theorem carries_close (hm : m.isOpen = true) : Carries m (d + 1) [')'] .plain d := by
  intro rest
  simp only [List.singleton_append, skim, hm, next_paren hm (.inr rfl)]
  rfl

theorem skim_close (hm : m.isOpen = true) (rest : List Char) :
    skim m 0 (')' :: rest) = some ([')'], rest) := by
  simp only [skim, hm]
  rfl

theorem carries_blank (hm : m.isOpen = true) : Carries m d [' '] .plain d := by
  have hnext : m.next ' ' = .plain := by
    cases m with
    | plain | word | number => rfl
    | quoted | escaped => cases hm
  have hblank : Carries m d [' '] (m.next ' ') d := carries_char fun _ => by decide
  rwa [hnext] at hblank

end Carries

variable {m : Mode}

section Tokens

variable {d : Nat} {text : List Char}

theorem ne_paren_of_isNameChar {c : Char} (h : isNameChar c = true) : c ≠ '(' ∧ c ≠ ')' := by
  constructor <;> (rintro rfl; cases h)

theorem carries_names (h : ∀ c ∈ text, isNameChar c = true) : Carries .word d text .word d :=
  carries_run fun c hc => ⟨by simp [Mode.next, h c hc], fun _ => ne_paren_of_isNameChar (h c hc)⟩

theorem carries_word (h : WordText text) : Carries .plain d text .word d := by
  obtain ⟨c, rest, rfl, hc, hrest⟩ := h
  have hname := isNameChar_of_isNameStart hc
  have hquote : (c == '"' || c == '\'') = false := by
    rw [Bool.or_eq_false_iff, beq_eq_false_iff_ne, beq_eq_false_iff_ne]
    constructor <;> (rintro rfl; cases hname)
  refine carries_cons (fun _ => ne_paren_of_isNameChar hname) ?_
  have hnext : Mode.plain.next c = .word := by
    simp [Mode.next, Mode.start, hquote, not_isDigit_of_isNameStart hc, hname]
  rw [hnext]
  exact carries_names hrest

/-- The inside of a literal up to its closing quote. -/
theorem carries_literalBody {quote : Char} {cs : List Char} {cut : Cut}
    (hquote : quote = '"' ∨ quote = '\'') (h : literalBody quote cs = some cut) :
    Carries (.quoted quote) d cut.1 .plain d := by
  have hslash : quote ≠ '\\' := by obtain rfl | rfl := hquote <;> decide
  fun_induction literalBody quote cs generalizing cut with
  | case1 => cases h
  | case2 c rest ih =>
    obtain ⟨body, hbody, rfl⟩ := Option.map_eq_some_iff.mp h
    refine carries_cons (by simp [Mode.isOpen]) (carries_cons (by simp [Mode.next, Mode.isOpen]) ?_)
    exact ih hbody
  | case3 c rest _ hc =>
    cases h
    obtain rfl : c = quote := by simpa using hc
    have hnext : (Mode.quoted c).next c = .plain := by simp [Mode.next, hslash]
    have hclose : Carries (.quoted c) d [c] ((Mode.quoted c).next c) d :=
      carries_char (by simp [Mode.isOpen])
    rwa [hnext] at hclose
  | case4 => cases h
  | case5 c rest _ hc hstop ih =>
    obtain ⟨body, hbody, rfl⟩ := Option.map_eq_some_iff.mp h
    have hnext : (Mode.quoted quote).next c = .quoted quote := by
      simp only [Bool.or_eq_true, not_or, Bool.not_eq_true] at hstop hc
      simp [Mode.next, hstop.1, hc]
    refine carries_cons (by simp [Mode.isOpen]) ?_
    rw [hnext]
    exact ih hbody

theorem carries_quoted {quote : Char} {mark body : List Char} (hquote : quote = '"' ∨ quote = '\'')
    (hmark : mark ∈ marks) (hbody : literalBody quote body = some (body, [])) :
    Carries .plain d (mark ++ quote :: body) .plain d := by
  have hopen : ∀ m, m.isOpen = true → m ≠ .number → Carries m d (quote :: body) .plain d := by
    intro m hm hnumber
    have hnext : m.next quote = .quoted quote := by
      cases m with
      | plain => obtain rfl | rfl := hquote <;> rfl
      | word => obtain rfl | rfl := hquote <;> rfl
      | number => exact absurd rfl hnumber
      | quoted | escaped => cases hm
    refine carries_cons (fun _ => by obtain rfl | rfl := hquote <;> decide) ?_
    rw [hnext]
    exact carries_literalBody hquote hbody
  simp only [marks, List.mem_cons, List.not_mem_nil, or_false] at hmark
  obtain rfl | rfl | rfl | rfl | rfl := hmark
  · exact hopen .plain rfl (by decide)
  all_goals
    exact (carries_word ⟨_, _, rfl, by decide, List.all_eq_true.mp rfl⟩).append
      (hopen .word rfl (by decide))

theorem carries_digits (h : ∀ c ∈ text, isNameChar c = true ∨ c = '\'') :
    Carries .number d text .number d := by
  refine carries_run fun c hc => ⟨?_, fun _ => ?_⟩
  · obtain hname | rfl := h c hc
    · simp [Mode.next, hname]
    · rfl
  · obtain hname | rfl := h c hc
    · exact ne_paren_of_isNameChar hname
    · decide

theorem carries_clean (h : ∀ c ∈ text, c ∉ ['(', ')', '"', '\'']) (hm : m.isOpen = true) :
    ∃ m', m'.isOpen = true ∧ Carries m d text m' d := by
  induction text generalizing m with
  | nil => exact ⟨m, hm, carries_nil⟩
  | cons c text ih =>
    obtain ⟨hopen, hclose, hdouble, hsingle⟩ : c ≠ '(' ∧ c ≠ ')' ∧ c ≠ '"' ∧ c ≠ '\'' := by
      simpa using h c List.mem_cons_self
    have hstart : (Mode.start c).isOpen = true := by
      have hquote : (c == '"' || c == '\'') = false := by simp [hdouble, hsingle]
      simp only [Mode.start, hquote]
      cases isDigit c <;> cases isNameChar c <;> rfl
    have hnext : (m.next c).isOpen = true := by
      cases m with
      | plain => exact hstart
      | word =>
        rw [Mode.next]
        split
        · rfl
        · exact hstart
      | number =>
        rw [Mode.next]
        split
        · rfl
        · exact hstart
      | quoted | escaped => cases hm
    obtain ⟨m', hm', hcarries⟩ := ih (fun c hc => h c (List.mem_cons_of_mem _ hc)) hnext
    exact ⟨m', hm', carries_cons (fun _ => ⟨hopen, hclose⟩) hcarries⟩

theorem clean_of_isNameChar {c : Char} (h : isNameChar c = true) : c ∉ ['(', ')', '"', '\''] := by
  intro hc
  simp only [List.mem_cons, List.not_mem_nil, or_false] at hc
  obtain rfl | rfl | rfl | rfl := hc <;> cases h

theorem carries_number {n : List Char} (h : NumberText n) :
    ∃ m, m.isOpen = true ∧ Carries .plain d n m d := by
  obtain ⟨run, rest, rfl, hhead, hrun, hrest⟩ := h.split
  have hclean : ∀ c ∈ rest, c ∉ ['(', ')', '"', '\''] := by
    intro c hc
    obtain hc | hc := hrest c hc
    · exact clean_of_isNameChar hc
    · simp only [List.mem_cons, List.not_mem_nil, or_false] at hc
      obtain rfl | rfl | rfl := hc <;> decide
  cases run with
  | nil => exact carries_clean hclean rfl
  | cons c run =>
    have hc : isDigit c = true := hhead c rfl
    have hname := isNameChar_of_isDigit hc
    have hstart : Mode.plain.next c = .number := by
      have hclean := clean_of_isNameChar hname
      simp only [List.mem_cons, List.not_mem_nil, or_false, not_or] at hclean
      simp [Mode.next, Mode.start, hc, hclean]
    obtain ⟨m, hm, hcarries⟩ := carries_clean (d := d) hclean (m := .number) rfl
    refine ⟨m, hm, carries_cons (fun _ => ne_paren_of_isNameChar hname) ?_⟩
    rw [hstart]
    exact (carries_digits fun c hc => hrun c (List.mem_cons_of_mem _ hc)).append hcarries

theorem carries_signs (hne : text ≠ [])
    (h : ∀ c ∈ text, isNameChar c = false ∧ c ∉ ['(', ')', '"', '\'']) (hm : m.isOpen = true) :
    Carries m d text .plain d := by
  have hnext :
      ∀ (m : Mode) c, m.isOpen = true → isNameChar c = false ∧ c ∉ ['(', ')', '"', '\''] →
      m.next c = .plain := by
    intro m c hm hc
    obtain ⟨hname, hclean⟩ := hc
    simp only [List.mem_cons, List.not_mem_nil, or_false, not_or] at hclean
    have hdigit : isDigit c = false := by
      cases hd : isDigit c with
      | false => rfl
      | true => rw [isNameChar_of_isDigit hd] at hname; cases hname
    cases m with
    | plain | word | number => simp [Mode.next, Mode.start, hname, hclean, hdigit]
    | quoted | escaped => cases hm
  have hparen : ∀ c ∈ text, c ≠ '(' ∧ c ≠ ')' := fun c hc => by
    have hclean := (h c hc).2
    simp only [List.mem_cons, List.not_mem_nil, or_false, not_or] at hclean
    exact ⟨hclean.1, hclean.2.1⟩
  cases text with
  | nil => exact absurd rfl hne
  | cons c text =>
    refine carries_cons (fun _ => hparen c List.mem_cons_self) ?_
    rw [hnext m c hm (h c List.mem_cons_self)]
    exact carries_run fun c hc => ⟨hnext .plain c rfl (h c (List.mem_cons_of_mem _ hc)),
      fun _ => hparen c (List.mem_cons_of_mem _ hc)⟩

theorem carries_token (hfits : Fits t.kind t.text.toList) (hkind : t.kind ≠ .eof)
    (hparen : t.isPunctOf ["(", ")"] = false) (hm : m.isOpen = true)
    (hword : isWordlike t = true → m = .plain) :
    ∃ m', m'.isOpen = true ∧ (isWordlike t = false → m' = .plain) ∧
    Carries m d t.text.toList m' d := by
  have wordlike :
      ∀ {m'}, isWordlike t = true → m'.isOpen = true → Carries .plain d t.text.toList m' d → ∃ m',
      m'.isOpen = true ∧ (isWordlike t = false → m' = .plain) ∧ Carries m d t.text.toList m' d := by
    intro m' ht hm' hcarries
    rw [hword ht]
    exact ⟨m', hm', by simp [ht], hcarries⟩
  cases hk : t.kind with
  | ident =>
    rw [hk] at hfits
    exact wordlike (by simp [isWordlike, hk]) rfl (carries_word hfits)
  | number =>
    rw [hk] at hfits
    obtain ⟨m', hm', hcarries⟩ := carries_number hfits
    exact wordlike (by simp [isWordlike, hk]) hm' hcarries
  | string =>
    rw [hk] at hfits
    obtain ⟨mark, hmark, body, htext, hbody⟩ := hfits
    rw [htext] at wordlike ⊢
    exact wordlike (by simp [isWordlike, hk]) rfl (carries_quoted (.inl rfl) hmark hbody)
  | char =>
    rw [hk] at hfits
    obtain ⟨mark, hmark, body, htext, -, hbody⟩ := hfits
    rw [htext] at wordlike ⊢
    exact wordlike (by simp [isWordlike, hk]) rfl (carries_quoted (.inr rfl) hmark hbody)
  | punct =>
    rw [hk] at hfits
    obtain ⟨p, hp, htext⟩ := hfits
    have hall : ∀ p ∈ punctuators, p ∉ ["(", ")"] → p.toList ≠ [] ∧
        (p.toList.all fun c => decide (isNameChar c = false ∧ c ∉ ['(', ')', '"', '\''])) =
          true := by decide
    have hnot : p ∉ ["(", ")"] := by
      rw [String.toList_inj] at htext
      simpa [Token.isPunctOf, hk, ← htext] using hparen
    obtain ⟨hne, hchars⟩ := hall p hp hnot
    rw [← htext]
    exact ⟨.plain, rfl, fun _ => rfl, carries_signs hne (List.all_iff_forall_prop.mp hchars) hm⟩
  | eof => exact absurd hk hkind

end Tokens

/-- From one depth of parentheses to another along a run of tokens. -/
inductive Nests : Nat → List Token → Nat → Prop
  | nil {d : Nat} : Nests d [] d
  | token {d d' : Nat} {t : Token} {ts : List Token} (ht : t.isPunctOf ["(", ")"] = false)
      (h : Nests d ts d') : Nests d (t :: ts) d'
  | opens {d d' : Nat} {t : Token} {ts : List Token} (ht : t.isPunct "(" = true)
      (h : Nests (d + 1) ts d') : Nests d (t :: ts) d'
  | closes {d d' : Nat} {t : Token} {ts : List Token} (ht : t.isPunct ")" = true)
      (h : Nests d ts d') : Nests (d + 1) (t :: ts) d'

theorem Nests.append {d d' d'' : Nat} {ts' : List Token} (h : Nests d ts d')
    (h' : Nests d' ts' d'') : Nests d (ts ++ ts') d'' := by
  induction h with
  | nil => exact h'
  | token ht _ ih => exact .token ht (ih h')
  | opens ht _ ih => exact .opens ht (ih h')
  | closes ht _ ih => exact .closes ht (ih h')

def gapBefore (a : Token) : List Token → List Char
  | [] => []
  | b :: _ => if needsSpace a b then [' '] else []

theorem joinTokens_cons (a : Token) (ts : List Token) :
    (joinTokens (a :: ts)).toList = a.text.toList ++ gapBefore a ts ++ (joinTokens ts).toList := by
  cases ts with
  | nil => simp [joinTokens, gapBefore]
  | cons b ts =>
    rw [joinTokens, gapBefore]
    split <;> simp

/-- Behind a token and the gap, the next token can start. -/
theorem carries_gap (a : Token) (ts : List Token) (d : Nat) (hm : m.isOpen = true)
    (ha : isWordlike a = false → m = .plain) :
    ∃ m', m'.isOpen = true ∧ (∀ t ∈ ts.head?, isWordlike t = true → m' = .plain) ∧
      Carries m d (gapBefore a ts) m' d := by
  cases ts with
  | nil => exact ⟨m, hm, by simp, carries_nil⟩
  | cons b ts =>
    rw [gapBefore]
    split
    · exact ⟨.plain, rfl, fun _ _ _ => rfl, carries_blank hm⟩
    · rename_i hspace
      refine ⟨m, hm, fun t ht hword => ha ?_, carries_nil⟩
      obtain rfl : b = t := by simpa using ht
      simp only [needsSpace, Bool.or_eq_true, Bool.and_eq_true, not_or, not_and, hword] at hspace
      simpa using hspace.1.1

theorem text_of_isPunct {text : String} (h : t.isPunct text = true) :
    t.kind = .punct ∧ t.text = text := by
  simpa [Token.isPunct] using h

theorem carries_joinTokens {d d' : Nat} (h : Nests d ts d')
    (hts : ∀ t ∈ ts, t.kind ≠ .eof ∧ Fits t.kind t.text.toList) (hm : m.isOpen = true)
    (hhead : ∀ t ∈ ts.head?, isWordlike t = true → m = .plain) :
    ∃ m', m'.isOpen = true ∧ Carries m d (joinTokens ts).toList m' d' := by
  have rest :
      ∀ {t : Token} {ts : List Token}, (∀ u ∈ t :: ts, u.kind ≠ .eof ∧ Fits u.kind u.text.toList) →
      ∀ u ∈ ts, u.kind ≠ .eof ∧ Fits u.kind u.text.toList :=
    fun h u hu => h u (List.mem_cons_of_mem _ hu)
  induction h generalizing m with
  | nil => exact ⟨m, hm, carries_nil⟩
  | @token d d' t ts ht _ ih =>
    obtain ⟨hkind, hfits⟩ := hts t List.mem_cons_self
    obtain ⟨m₁, hm₁, hplain, hc₁⟩ := carries_token hfits hkind ht hm (hhead t rfl)
    obtain ⟨m₂, hm₂, hnext, hc₂⟩ := carries_gap t ts d hm₁ hplain
    obtain ⟨m₃, hm₃, hc₃⟩ := ih (rest hts) hm₂ hnext
    rw [joinTokens_cons]
    exact ⟨m₃, hm₃, (hc₁.append hc₂).append hc₃⟩
  | @opens d d' t ts ht _ ih =>
    obtain ⟨m₂, hm₂, hnext, hc₂⟩ := carries_gap t ts (d + 1) (m := .plain) rfl fun _ => rfl
    obtain ⟨m₃, hm₃, hc₃⟩ := ih (rest hts) hm₂ hnext
    rw [joinTokens_cons, (text_of_isPunct ht).2]
    exact ⟨m₃, hm₃, ((carries_open hm).append hc₂).append hc₃⟩
  | @closes d d' t ts ht _ ih =>
    obtain ⟨m₂, hm₂, hnext, hc₂⟩ := carries_gap t ts d (m := .plain) rfl fun _ => rfl
    obtain ⟨m₃, hm₃, hc₃⟩ := ih (rest hts) hm₂ hnext
    rw [joinTokens_cons, (text_of_isPunct ht).2]
    exact ⟨m₃, hm₃, ((carries_close hm).append hc₂).append hc₃⟩

section Slices

variable {c : Context} {a b : Nat}

theorem slice_cons (hab : a < b) (hb : b ≤ c.tokens.size) :
    c.slice a b = c.tokenAt a :: c.slice (a + 1) b := by
  have ha : a < c.tokens.toList.length := by simpa using Nat.lt_of_lt_of_le hab hb
  have hat : c.tokenAt a = c.tokens.toList[a] := by
    simp [Context.tokenAt, Array.getD_eq_getD_getElem?, Nat.lt_of_lt_of_le hab hb]
  have hsub : b - a = (b - (a + 1)) + 1 := by omega
  rw [Context.slice, Context.slice, Array.toList_extract, Array.toList_extract,
    List.extract_eq_take_drop, List.extract_eq_take_drop, List.drop_eq_getElem_cons ha, hsub,
    List.take_succ_cons, hat]

theorem slice_nil (hba : b ≤ a) : c.slice a b = [] := by
  rw [Context.slice, Array.toList_extract, List.extract_eq_take_drop, Nat.sub_eq_zero_of_le hba,
    List.take_zero]

theorem slice_append {j : Nat} (haj : a ≤ j) (hjb : j ≤ b) (hb : b ≤ c.tokens.size) :
    c.slice a b = c.slice a j ++ c.slice j b := by
  obtain ⟨n, rfl⟩ := Nat.exists_eq_add_of_le haj
  induction n generalizing a with
  | zero => rw [Nat.add_zero, slice_nil (Nat.le_refl a), List.nil_append]
  | succ n ih =>
    have hshift : a + (n + 1) = a + 1 + n := by omega
    rw [slice_cons (by omega) hb, slice_cons (b := a + (n + 1)) (by omega) (by omega),
      List.cons_append, hshift, ih (by omega) (by omega)]

def Closed (c : Context) (a b : Nat) : Prop :=
  ∀ k j, a ≤ k → k < b → c.partner? k = some j → a ≤ j ∧ j < b

theorem closed_inside (hc : c.Matched) {i j : Nat} (hij : c.partner? i = some j) (hlt : i < j) :
    Closed c (i + 1) j := by
  intro k p hk hkj hp
  have hpi : p ≠ i := by
    rintro rfl
    cases hij.symm.trans (hc.partner hp)
    omega
  obtain hkp | hpk := Nat.lt_or_gt_of_ne (hc.apart hp)
  · have hinside := hc.nested hij hp (by omega) hkj hkp
    omega
  · by_cases hip : i < p
    · omega
    · -- a pair around the first bracket would cross the pair that it belongs to
      have hinside := hc.nested (hc.partner hp) hij (by omega) (by omega) hlt
      omega

theorem Closed.behind (hc : c.Matched) {j : Nat} (h : Closed c a b) (haj : c.partner? a = some j)
    (hlt : a < j) : Closed c (j + 1) b := by
  intro k p hk hkb hp
  obtain ⟨hap, hpb⟩ := h k p (by omega) hkb hp
  refine ⟨?_, hpb⟩
  have hpa : p ≠ a := by
    rintro rfl
    cases haj.symm.trans (hc.partner hp)
    omega
  have hpj : p ≠ j := by
    rintro rfl
    cases (hc.partner haj).symm.trans (hc.partner hp)
    omega
  by_cases hin : p < j
  · have hinside := hc.nested haj (hc.partner hp) (by omega) hin (by omega)
    omega
  · omega

theorem nests_slice (hc : c.Matched) (hb : b ≤ c.tokens.size) (h : Closed c a b) (d : Nat) :
    Nests d (c.slice a b) d := by
  induction hn : b - a using Nat.strongRecOn generalizing a b d with
  | ind n ih =>
    by_cases hab : a < b
    · cases hopen : Brackets.closer? (c.tokenAt a) with
      | some close =>
        obtain ⟨j, hj, haj⟩ := hc.opener (i := a) (by simp [hopen])
        obtain ⟨-, hjb⟩ := h a j (Nat.le_refl a) hab hj
        have hinside :=
          fun d => ih (j - (a + 1)) (by omega) (by omega) (closed_inside hc hj haj) d rfl
        have hbehind := ih (b - (j + 1)) (by omega) hb (h.behind hc hj haj) d rfl
        obtain ⟨hclose, hcloser⟩ := hc.kinds hj haj
        obtain ⟨hkind, hpair⟩ := Brackets.closer?_eq_some.mp hclose
        rw [slice_cons hab hb, slice_append (j := j) (by omega) (by omega) hb, slice_cons hjb hb]
        obtain ⟨hkindj, -⟩ : (c.tokenAt j).kind = .punct ∧ _ := by
          simpa [Brackets.isCloser, Token.isPunctOf] using hcloser
        obtain ⟨hl, hr⟩ | hother := hpair
        · refine .opens (by simp [Token.isPunct, hkind, hl]) ((hinside (d + 1)).append ?_)
          exact .closes (by simp [Token.isPunct, hkindj, hr]) hbehind
        · have hplain :
              (c.tokenAt a).isPunctOf ["(", ")"] = false ∧
              (c.tokenAt j).isPunctOf ["(", ")"] = false := by
            obtain ⟨hl, hr⟩ | ⟨hl, hr⟩ := hother <;> simp [Token.isPunctOf, hkind, hkindj, hl, hr]
          exact .token hplain.1 ((hinside d).append (.token hplain.2 hbehind))
      | none =>
        have hclosed : Closed c (a + 1) b := by
          intro k j hk hkb hj
          obtain ⟨haj, hjb⟩ := h k j (by omega) hkb hj
          refine ⟨?_, hjb⟩
          by_contra hlt
          obtain rfl : j = a := by omega
          have hkinds := hc.kinds (hc.partner hj) (by omega)
          rw [hopen] at hkinds
          cases hkinds.1
        rw [slice_cons hab hb]
        refine .token ?_ (ih (b - (a + 1)) (by omega) hb hclosed d rfl)
        cases hcloser : Brackets.isCloser (c.tokenAt a) with
        | true =>
          obtain ⟨i, hi, hia⟩ := hc.closer hcloser
          obtain ⟨hai, -⟩ := h a i (Nat.le_refl a) hab hi
          omega
        | false =>
          have hnone := Brackets.isSome_closer? (t := c.tokenAt a)
          rw [hopen] at hnone
          simp_all [Token.isPunctOf, Brackets.isCloser]
    · rw [slice_nil (by omega)]
      exact .nil

theorem mem_slice (hb : b ≤ c.tokens.size) (ht : t ∈ c.slice a b) :
    ∃ k, a ≤ k ∧ k < b ∧ t = c.tokenAt k := by
  induction hn : b - a generalizing a with
  | zero =>
    rw [slice_nil (by omega)] at ht
    cases ht
  | succ n ih =>
    rw [slice_cons (by omega) hb] at ht
    obtain rfl | ht := List.mem_cons.mp ht
    · exact ⟨a, Nat.le_refl a, by omega, rfl⟩
    · obtain ⟨k, hk, hkb, rfl⟩ := ih ht (by omega)
      exact ⟨k, by omega, hkb, rfl⟩

end Slices

structure Spelled (c : Context) : Prop where
  fits : ∀ i, Fits (c.tokenAt i).kind (c.tokenAt i).text.toList
  solid : ∀ i, i + 1 < c.tokens.size → (c.tokenAt i).kind ≠ .eof

theorem spelled_of_contextOf {source : String} {types : List String} {c : Context}
    (h : contextOf source types = .ok c) : Spelled c := by
  unfold contextOf at h
  cases ht : tokenize source with
  | error f =>
    rw [ht] at h
    cases h
  | ok tokens =>
    rw [ht] at h
    obtain ⟨front, q, rfl, hfront⟩ := fits_of_scan _ _ _ _ _ (by simp) ht
    obtain ⟨htokens, hlast⟩ : c.tokens = (front ++ [(⟨.eof, "", q⟩ : Token)]).toArray ∧
      c.last = ⟨.eof, "", q⟩ := by
      simp only [bind, Except.bind, Context.ofTokens] at h
      cases hp : Brackets.table (front ++ [⟨.eof, "", q⟩]) with
      | error f =>
        rw [hp] at h
        cases h
      | ok partners =>
        rw [hp] at h
        cases h
        exact ⟨rfl, by simp [List.getLastD_eq_getLast?]⟩
    have hat : ∀ i, (i < front.length ∧ c.tokenAt i ∈ front) ∨ c.tokenAt i = ⟨.eof, "", q⟩ := by
      intro i
      by_cases hi : i < front.length
      · refine .inl ⟨hi, ?_⟩
        simp [Context.tokenAt, htokens, Array.getD_eq_getD_getElem?,
          List.getElem?_append_left hi, hi]
      · refine .inr ?_
        by_cases heq : i = front.length
        · simp [Context.tokenAt, htokens, Array.getD_eq_getD_getElem?, heq]
        · rw [Context.tokenAt_of_le c (by simp [htokens]; omega), hlast]
    refine ⟨fun i => ?_, fun i hi => ?_⟩
    · obtain ⟨-, hmem⟩ | heof := hat i
      · exact (hfront _ hmem).2
      · rw [heof]
        rfl
    · have hlen : i < front.length := by
        simp [htokens] at hi
        omega
      have hmem : c.tokenAt i ∈ front := by
        simp [Context.tokenAt, htokens, Array.getD_eq_getD_getElem?,
          List.getElem?_append_left hlen, hlen]
      exact (hfront _ hmem).1

/-- What stands in parentheses is passed over up to the one that closes. -/
theorem skim_textBetween {c : Context} (hc : c.Matched) (hs : Spelled c) {i j : Nat}
    (hij : c.partner? i = some j) (hlt : i < j) (r : List Char) :
    skim .plain 0 ((c.textBetween (i + 1) j).toList ++ ')' :: r) =
    some ((c.textBetween (i + 1) j).toList ++ [')'], r) := by
  have hj := hc.bound hij
  have hnests := nests_slice hc (by omega) (closed_inside hc hij hlt) 0
  obtain ⟨m, hm, hcarries⟩ := carries_joinTokens hnests (m := .plain)
    (fun t ht => by
      obtain ⟨k, -, hk, rfl⟩ := mem_slice (by omega) ht
      exact ⟨hs.solid k (by omega), hs.fits k⟩) rfl (fun _ _ _ => rfl)
  rw [Context.textBetween, hcarries, skim_close hm]
  rfl

section Types

variable {back : List Char}

def isTypeChar (c : Char) : Bool := isNameChar c || c == ':' || c == '*' || c == '&' || c == ' '

def looseMark : List Char → Bool
  | [] => false
  | c :: cs => (c == '*' || c == '&') && cs.head? == some ' ' || looseMark cs

def TypeText (t : List Char) : Prop := (∀ c ∈ t, isTypeChar c = true) ∧ looseMark t = false

theorem looseMark_append {front : List Char} (h : ∀ c ∈ front, c ≠ '*' ∧ c ≠ '&') :
    looseMark (front ++ back) = looseMark back := by
  induction front with
  | nil => rfl
  | cons c front ih =>
    obtain ⟨hstar, hamp⟩ := h c List.mem_cons_self
    simp [looseMark, hstar, hamp, ih fun c hc => h c (List.mem_cons_of_mem _ hc)]

theorem TypeText.append {front : List Char}
    (h : ∀ c ∈ front, isTypeChar c = true ∧ c ≠ '*' ∧ c ≠ '&') (hback : TypeText back) :
    TypeText (front ++ back) := by
  refine ⟨fun c hc => ?_, (looseMark_append fun c hc => (h c hc).2).trans hback.2⟩
  obtain hc | hc := List.mem_append.mp hc
  · exact (h c hc).1
  · exact hback.1 c hc

theorem TypeText.mark {c : Char} (hc : c = '*' ∨ c = '&') (hback : TypeText back)
    (hhead : back.head? ≠ some ' ') : TypeText (c :: back) := by
  refine ⟨fun d hd => ?_, by simp [looseMark, hhead, hback.2]⟩
  obtain rfl | hd := List.mem_cons.mp hd
  · obtain rfl | rfl := hc <;> rfl
  · exact hback.1 d hd

def isTypeToken (t : Token) : Bool := t.isIdent || t.isPunctOf ["::", "*", "&"]

theorem gapBefore_type (ht : isTypeToken t = true) (ts : List Token) :
    gapBefore t ts = [] ∨ t.isIdent = true ∧ gapBefore t ts = [' '] := by
  cases ts with
  | nil => exact .inl rfl
  | cons b ts =>
    cases hident : t.isIdent with
    | true =>
      rw [gapBefore]
      split <;> simp
    | false =>
      have hspace : needsSpace t b = false := by
        rw [isTypeToken, hident, Bool.false_or] at ht
        simp only [Token.isPunctOf, Bool.and_eq_true, beq_iff_eq, List.contains_eq_mem,
          decide_eq_true_eq, List.mem_cons, List.not_mem_nil, or_false] at ht
        obtain ⟨hkind, htext⟩ := ht
        obtain htext | htext | htext := htext <;>
          simp [needsSpace, isWordlike, Token.isPunct, Token.isIdent, hkind, htext]
      exact .inl (by simp [gapBefore, hspace])

theorem typeText_joinTokens (hts : ∀ t ∈ ts, isTypeToken t = true ∧ Fits t.kind t.text.toList) :
    TypeText (joinTokens ts).toList ∧ (joinTokens ts).toList.head? ≠ some ' ' := by
  induction ts with
  | nil => exact ⟨⟨by simp [joinTokens], rfl⟩, by simp [joinTokens]⟩
  | cons t ts ih =>
    obtain ⟨hrest, hhead⟩ := ih fun u hu => hts u (List.mem_cons_of_mem _ hu)
    obtain ⟨htype, hfits⟩ := hts t List.mem_cons_self
    have hgap := gapBefore_type htype ts
    rw [joinTokens_cons]
    cases hident : t.isIdent with
    | true =>
      have hkind : t.kind = .ident := by simpa [Token.isIdent] using hident
      rw [hkind] at hfits
      obtain ⟨c, rest, htext, hc, hchars⟩ := hfits
      refine ⟨.append (fun d hd => ?_) hrest, ?_⟩
      · have hd : isNameChar d = true ∨ d = ' ' := by
          obtain hd | hd := List.mem_append.mp hd
          · rw [htext] at hd
            obtain rfl | hd := List.mem_cons.mp hd
            · exact .inl (isNameChar_of_isNameStart hc)
            · exact .inl (hchars d hd)
          · obtain hgap | ⟨-, hgap⟩ := hgap <;> simp_all
        obtain hd | rfl := hd
        · refine ⟨by simp [isTypeChar, hd], ?_, ?_⟩ <;> (rintro rfl; cases hd)
        · decide
      · rw [htext]
        simp only [List.cons_append, List.head?_cons]
        rintro ⟨⟩
        cases hc
    | false =>
      obtain hgap | ⟨h, -⟩ := hgap
      · rw [isTypeToken, hident, Bool.false_or] at htype
        have htext : t.text ∈ ["::", "*", "&"] := by
          simpa [Token.isPunctOf] using (Bool.and_eq_true_iff.mp htype).2
        simp only [List.mem_cons, List.not_mem_nil, or_false] at htext
        rw [hgap, List.append_nil]
        obtain htext | htext | htext := htext <;> rw [htext]
        · exact ⟨.append (List.all_iff_forall_prop.mp (by decide)) hrest, by simp⟩
        · exact ⟨.mark (.inl rfl) hrest hhead, by simp⟩
        · exact ⟨.mark (.inr rfl) hrest hhead, by simp⟩
      · rw [hident] at h
        cases h

end Types

end JniContracts.Rendering
