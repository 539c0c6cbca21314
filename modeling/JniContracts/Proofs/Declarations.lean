import JniContracts.Proofs.Partners
import JniContracts.Parse.Lookahead

/-!
Where a declaration declares its first name. By its look a declaration has the name behind its type;
the reader looks for the name anew, from the start of the type. The two agree on where to stop,
unless the name is a word that the reader takes for a part of the type.
-/

namespace JniContracts.Parse

variable {t : Token} {l : List String}

def isTypeWord (t : Token) : Bool := qualifiers.contains t.text || typeWords.contains t.text

def isPlain (t : Token) : Bool := !t.isEof && !t.isPunct "\x7b" && !t.isPunct "\x7d"

theorem isEof_of_isPlain (h : isPlain t = true) : t.isEof = false := by
  simp only [isPlain, Bool.and_eq_true, Bool.not_eq_true'] at h
  exact h.1.1

theorem isPlain_of_isIdent (h : t.isIdent = true) : isPlain t = true := by
  simp only [Token.isIdent, beq_iff_eq] at h
  simp [isPlain, Token.isEof, Token.isPunct, h]

theorem isPlain_of_isPunct {text : String} (h : t.isPunct text = true) (h₁ : text ≠ "\x7b")
    (h₂ : text ≠ "\x7d") : isPlain t = true := by
  simp only [Token.isPunct, Bool.and_eq_true, beq_iff_eq] at h
  simp [isPlain, Token.isEof, Token.isPunct, h, h₁, h₂]

theorem isIdent_of_isWordOf (h : t.isWordOf l = true) : t.isIdent = true :=
  (Bool.and_eq_true_iff.mp h).1

theorem isIdent_of_isWord {text : String} (h : t.isWord text = true) : t.isIdent = true :=
  (Bool.and_eq_true_iff.mp h).1

theorem not_isPunct_of_isIdent (h : t.isIdent = true) (text : String) : t.isPunct text = false := by
  simp only [Token.isIdent, beq_iff_eq] at h
  simp [Token.isPunct, h]

theorem isPunct_of_isPunctOf (h : t.isPunctOf l = true) : ∃ x ∈ l, t.isPunct x = true := by
  simp only [Token.isPunctOf, Bool.and_eq_true, List.contains_iff_mem] at h
  exact ⟨t.text, h.2, by simp [Token.isPunct, h.1]⟩

theorem isPunctOf_of_isPunct {x : String} (h : t.isPunct x = true) (hx : x ∈ l) :
    t.isPunctOf l = true := by
  simp only [Token.isPunct, Bool.and_eq_true, beq_iff_eq] at h
  simp only [Token.isPunctOf, h.1, h.2, Bool.and_eq_true, List.contains_iff_mem]
  exact ⟨beq_self_eq_true _, hx⟩

theorem isPunct_eq {x : String} (h : t.isPunct x = true) (y : String) : t.isPunct y = (x == y) := by
  simp only [Token.isPunct, Bool.and_eq_true, beq_iff_eq] at h
  simp [Token.isPunct, h]

namespace Context

variable {c : Context} {i start j fuel : Nat}

section Skipping

variable {p : Token → Bool}

theorem le_skipFrom (fuel i : Nat) : i ≤ c.skipFrom p fuel i := by
  induction fuel generalizing i with
  | zero => exact Nat.le_refl i
  | succ fuel ih =>
    unfold skipFrom
    split
    · have := ih (i + 1)
      omega
    · exact Nat.le_refl i

theorem of_lt_skipFrom (fuel i m : Nat) (him : i ≤ m) (hm : m < c.skipFrom p fuel i) :
    p (c.tokenAt m) = true := by
  induction fuel generalizing i with
  | zero =>
    simp only [skipFrom] at hm
    omega
  | succ fuel ih =>
    unfold skipFrom at hm
    split at hm
    · rename_i hp
      rcases Nat.eq_or_lt_of_le him with rfl | hlt
      · exact hp
      · exact ih (i + 1) hlt hm
    · omega

theorem skipFrom_stops (fuel i m : Nat) (him : i ≤ m) (hfuel : m < i + fuel)
    (hm : p (c.tokenAt m) = false) :
    c.skipFrom p fuel i ≤ m ∧ p (c.tokenAt (c.skipFrom p fuel i)) = false := by
  induction fuel generalizing i with
  | zero => omega
  | succ fuel ih =>
    unfold skipFrom
    split
    · rename_i hp
      have hne : i ≠ m := by
        rintro rfl
        rw [hp] at hm
        cases hm
      exact ih (i + 1) (by omega) (by omega)
    · rename_i hp
      exact ⟨him, by simpa using hp⟩

theorem le_skipWhile (i : Nat) : i ≤ c.skipWhile p i := le_skipFrom _ i

theorem of_lt_skipWhile {m : Nat} (him : i ≤ m) (hm : m < c.skipWhile p i) :
    p (c.tokenAt m) = true :=
  of_lt_skipFrom _ i m him hm

theorem skipWhile_stops {m : Nat} (him : i ≤ m) (hsize : m < c.tokens.size)
    (hm : p (c.tokenAt m) = false) :
    c.skipWhile p i ≤ m ∧ p (c.tokenAt (c.skipWhile p i)) = false :=
  skipFrom_stops _ i m him (by omega) hm

end Skipping

/-- The tokens between two places can belong to a type: there are no braces among them, and an angle
bracket that opens has one that closes behind it. -/
structure Spans (c : Context) (i j : Nat) : Prop where
  le : i ≤ j
  plain : ∀ m, i ≤ m → m < j → isPlain (c.tokenAt m) = true
  angles : ∀ m, i ≤ m → m < j → (c.tokenAt m).isPunct "<" = true →
    ∃ n, m < n ∧ n < j ∧ (c.tokenAt n).isPunctOf [">", ">>"] = true

namespace Spans

theorem refl (i : Nat) : c.Spans i i where
  le := Nat.le_refl i
  plain m _ _ := by omega
  angles m _ _ := by omega

theorem trans {k : Nat} (h : c.Spans i j) (h' : c.Spans j k) : c.Spans i k where
  le := Nat.le_trans h.le h'.le
  plain m him hmk := by
    rcases Nat.lt_or_ge m j with hmj | hmj
    · exact h.plain m him hmj
    · exact h'.plain m hmj hmk
  angles m him hmk hm := by
    rcases Nat.lt_or_ge m j with hmj | hmj
    · obtain ⟨n, hmn, hnj, hn⟩ := h.angles m him hmj hm
      exact ⟨n, hmn, Nat.lt_of_lt_of_le hnj h'.le, hn⟩
    · exact h'.angles m hmj hmk hm

theorem of_forall (hij : i ≤ j)
    (h : ∀ m, i ≤ m → m < j → isPlain (c.tokenAt m) = true ∧ (c.tokenAt m).isPunct "<" = false) :
    c.Spans i j where
  le := hij
  plain m him hmj := (h m him hmj).1
  angles m him hmj hm := by
    rw [(h m him hmj).2] at hm
    cases hm

theorem word (h : (c.tokenAt i).isIdent = true) : c.Spans i (i + 1) :=
  of_forall (Nat.le_succ i) fun m him hmi => by
    have hm : m = i := by omega
    rw [hm]
    exact ⟨isPlain_of_isIdent h, not_isPunct_of_isIdent h _⟩

theorem punct {text : String} (h : (c.tokenAt i).isPunct text = true) (h₁ : text ≠ "\x7b")
    (h₂ : text ≠ "\x7d") (h₃ : text ≠ "<") : c.Spans i (i + 1) :=
  of_forall (Nat.le_succ i) fun m him hmi => by
    have hm : m = i := by omega
    rw [hm]
    exact ⟨isPlain_of_isPunct h h₁ h₂, by simp [isPunct_eq h, h₃]⟩

theorem skip {p : Token → Bool} (hp : ∀ t, p t = true → isPlain t = true ∧ t.isPunct "<" = false) :
    c.Spans i (c.skipWhile p i) :=
  of_forall (le_skipWhile i) fun _ him hm => hp _ (of_lt_skipWhile him hm)

end Spans

def depthBehind (depth : Int) (t : Token) : Int :=
  if t.isPunct "<" then depth + 1
  else if t.isPunct ">" then depth - 1
  else if t.isPunct ">>" then depth - 2
  else depth

theorem templateEnd_succ (fuel i : Nat) (depth : Int) : c.templateEnd (fuel + 1) depth i =
    if (c.tokenAt i).isEof || (c.tokenAt i).isPunctOf [";", "\x7b", "\x7d"] then none
    else if depthBehind depth (c.tokenAt i) ≤ 0 then some (i + 1)
    else c.templateEnd fuel (depthBehind depth (c.tokenAt i)) (i + 1) := rfl

theorem closes_of_depthBehind_le {t : Token} {depth : Int} (h : depthBehind depth t ≤ 0)
    (hdepth : 0 < depth ∨ depth = 0 ∧ t.isPunct "<" = true) : t.isPunctOf [">", ">>"] = true := by
  unfold depthBehind at h
  split at h
  · omega
  · rename_i hlt
    have hpos : 0 < depth := hdepth.resolve_right fun hz => hlt hz.2
    split at h
    · rename_i hgt
      simp only [Token.isPunct, Bool.and_eq_true, beq_iff_eq] at hgt
      simp [Token.isPunctOf, hgt]
    · split at h
      · rename_i hgt
        simp only [Token.isPunct, Bool.and_eq_true, beq_iff_eq] at hgt
        simp [Token.isPunctOf, hgt]
      · omega

theorem isPlain_of_not_stop {t : Token}
    (h : ¬ (t.isEof || t.isPunctOf [";", "\x7b", "\x7d"]) = true) : isPlain t = true := by
  simp only [Bool.or_eq_true, not_or, Bool.not_eq_true] at h
  have hbrace : ∀ {x}, x ∈ [";", "\x7b", "\x7d"] → t.isPunct x = false := by
    intro x hx
    rw [← Bool.not_eq_true]
    intro hp
    simp only [Token.isPunct, Bool.and_eq_true, beq_iff_eq] at hp
    have hof : t.isPunctOf [";", "\x7b", "\x7d"] = true := by
      simp only [Token.isPunctOf, Bool.and_eq_true, beq_iff_eq, List.contains_iff_mem]
      exact ⟨hp.1, hp.2 ▸ hx⟩
    rw [h.2] at hof
    cases hof
  simp [isPlain, h.1, hbrace]

/-- The search for the end of template arguments ends behind an angle bracket that closes. -/
theorem templateEnd_some {depth : Int} (h : c.templateEnd fuel depth i = some j)
    (hdepth : 0 < depth ∨ depth = 0 ∧ (c.tokenAt i).isPunct "<" = true) :
    i < j ∧ (∀ m, i ≤ m → m < j → isPlain (c.tokenAt m) = true) ∧
      (c.tokenAt (j - 1)).isPunctOf [">", ">>"] = true := by
  induction fuel generalizing i depth with
  | zero => cases h
  | succ fuel ih =>
    rw [templateEnd_succ] at h
    split at h
    · cases h
    · rename_i hstop
      have hplain := isPlain_of_not_stop hstop
      split at h
      · rename_i hle
        cases h
        refine ⟨Nat.lt_succ_self i, fun m him hmi => ?_, closes_of_depthBehind_le hle hdepth⟩
        have hm : m = i := by omega
        rwa [hm]
      · rename_i hpos
        obtain ⟨hij, hall, hend⟩ := ih h (.inl (Int.not_le.mp hpos))
        refine ⟨by omega, fun m him hmj => ?_, hend⟩
        rcases Nat.eq_or_lt_of_le him with rfl | hlt
        · exact hplain
        · exact hall m hlt hmj

theorem spans_template (h : c.templateEnd fuel 0 i = some j)
    (hi : (c.tokenAt i).isPunct "<" = true) : c.Spans i j := by
  obtain ⟨hij, hplain, hend⟩ := templateEnd_some h (.inr ⟨rfl, hi⟩)
  refine ⟨Nat.le_of_lt hij, hplain, fun m _ hmj hm => ?_⟩
  have hne : m ≠ j - 1 := by
    intro hlast
    rw [hlast] at hm
    obtain ⟨x, hx, hx'⟩ := isPunct_of_isPunctOf hend
    rw [isPunct_eq hx'] at hm
    simp only [List.mem_cons, List.not_mem_nil, or_false] at hx
    rcases hx with rfl | rfl
    · exact absurd hm (by decide)
    · exact absurd hm (by decide)
  exact ⟨j - 1, by omega, by omega, hend⟩

theorem spans_typeTail (h : c.typeTail fuel i = some j) : c.Spans i j := by
  induction fuel generalizing i with
  | zero =>
    cases h
    exact .refl _
  | succ fuel ih =>
    simp only [typeTail] at h
    split at h
    · rename_i hscope
      simp only [Bool.and_eq_true] at hscope
      exact ((Spans.punct hscope.1 (by decide) (by decide) (by decide)).trans
        (.word hscope.2)).trans (ih h)
    · split at h
      · rename_i hangle
        split at h
        · rename_i e he
          exact (spans_template he hangle).trans (ih h)
        · cases h
      · split at h
        · rename_i hword
          simp only [Bool.and_eq_true, Bool.or_eq_true] at hword
          have hident : (c.tokenAt i).isIdent = true :=
            hword.1.elim isIdent_of_isWordOf isIdent_of_isWordOf
          exact (Spans.word hident).trans (ih h)
        · cases h
          exact .refl _

def declaredAt? (c : Context) (start : Nat) : Option Nat :=
  let i := c.skipWhile (·.isWordOf qualifiers) start
  (c.typeTail c.tokens.size (if tagWords.contains (c.tokenAt i).text then i + 2 else i + 1)).map
    (c.skipWhile isPointerMark)

/-- Whether what looks like a declaration declares a word that the reader takes for a part of the
type. -/
def hidesName (c : Context) (start : Nat) : Bool :=
  c.looksLikeDeclaration [] start && (c.declaredAt? start).any fun k => isTypeWord (c.tokenAt k)

theorem isPlain_of_isPointerMark {t : Token} (h : isPointerMark t = true) :
    isPlain t = true ∧ t.isPunct "<" = false := by
  simp only [isPointerMark, Bool.or_eq_true] at h
  rcases h with h | h
  · obtain ⟨x, hx, hx'⟩ := isPunct_of_isPunctOf h
    simp only [List.mem_cons, List.not_mem_nil, or_false] at hx
    rcases hx with rfl | rfl | rfl <;> exact ⟨isPlain_of_isPunct hx' (by decide) (by decide),
      isPunct_eq hx' "<"⟩
  · have hident := isIdent_of_isWordOf h
    exact ⟨isPlain_of_isIdent hident, not_isPunct_of_isIdent hident _⟩

def followers : List String := ["=", ";", ",", "[", ")", ":", "(", "\x7b"]

/-- A known variable only makes text look less like a declaration. -/
theorem looksLikeDeclaration_nil {locals : List String}
    (h : c.looksLikeDeclaration locals start = true) : c.looksLikeDeclaration [] start = true := by
  simp only [looksLikeDeclaration] at h ⊢
  split at h
  · cases h
  · rename_i hfirst
    simp only [Bool.or_eq_true, not_or] at hfirst
    rw [if_neg]
    · exact h
    · simp only [Bool.or_eq_true, not_or]
      exact ⟨hfirst.1, by simp⟩

/-- What looks like a declaration has a type, and a name behind it that something fitting
follows. -/
theorem declaredAt?_of_looksLike (h : c.looksLikeDeclaration [] start = true) :
    ∃ k, c.declaredAt? start = some k ∧ start < k ∧ c.Spans start k ∧
      (c.tokenAt k).isIdent = true ∧ (c.tokenAt (k + 1)).isPunctOf followers = true := by
  have hquals : c.Spans start (c.skipWhile (·.isWordOf qualifiers) start) := .skip fun t ht =>
    have hident := isIdent_of_isWordOf ht
    ⟨isPlain_of_isIdent hident, not_isPunct_of_isIdent hident _⟩
  simp only [looksLikeDeclaration] at h
  simp only [declaredAt?]
  revert hquals h
  generalize c.skipWhile (·.isWordOf qualifiers) start = i
  intro hquals h
  split at h
  · cases h
  · rename_i hfirst
    simp only [Bool.or_eq_true, not_or, Bool.not_eq_true', Bool.not_eq_false] at hfirst
    split at h
    · cases h
    · rename_i htag
      have htype : c.Spans i (if tagWords.contains (c.tokenAt i).text then i + 2 else i + 1) := by
        split
        · rename_i hword
          simp only [hword, Bool.true_and, Bool.not_eq_true', Bool.not_eq_false] at htag
          exact (Spans.word hfirst.1.1.1).trans (.word htag)
        · exact .word hfirst.1.1.1
      have hlt : i < if tagWords.contains (c.tokenAt i).text then i + 2 else i + 1 := by
        split <;> omega
      split at h
      · cases h
      · rename_i j htail
        simp only [Bool.and_eq_true] at h
        have hmarks : c.Spans j (c.skipWhile isPointerMark j) :=
          .skip fun t ht => isPlain_of_isPointerMark ht
        have htail' := spans_typeTail htail
        refine ⟨c.skipWhile isPointerMark j, by rw [htail]; rfl, ?_, ?_, h.1.1, ?_⟩
        · have h₁ := hquals.le
          have h₂ := htail'.le
          have h₃ := hmarks.le
          omega
        · exact ((hquals.trans htype).trans htail').trans hmarks
        · have hfollow := h.2
          simp only [Bool.or_eq_true, Bool.and_eq_true] at hfollow
          simp only [followers, Token.isPunctOf, Token.isPunct, Bool.and_eq_true, beq_iff_eq,
            List.contains_iff_mem, List.mem_cons, List.not_mem_nil, or_false] at hfollow ⊢
          rcases hfollow with ⟨hk, hx⟩ | ⟨⟨hk, hx⟩, -⟩
          · refine ⟨hk, ?_⟩
            rcases hx with hx | hx | hx | hx | hx | hx | hx <;> simp [hx]
          · simp [hk, hx]

theorem declaratorStart_succ (start fuel i : Nat) :
    c.declaratorStart start (fuel + 1) i =
    if (c.tokenAt i).isIdent && !qualifiers.contains (c.tokenAt i).text &&
        !typeWords.contains (c.tokenAt i).text && (c.tokenAt (i + 1)).isPunctOf followers &&
        start < i then .ok i
    else if (c.tokenAt i).isEof then .error (.fault ⟨.openDeclaration, (c.tokenAt i).line⟩)
    else if (c.tokenAt i).isPunct "<" then
      if (c.tokenAt (c.skipWhile (fun t => !t.isPunctOf [">", ">>"]) i)).isEof then .error .endless
      else c.declaratorStart start fuel (c.skipWhile (fun t => !t.isPunctOf [">", ">>"]) i + 1)
    else c.declaratorStart start fuel (i + 1) := rfl

theorem declaratorStart_error {e : Stop} (fuel i : Nat)
    (h : c.declaratorStart start fuel i = .error e) : e = .endless ∨ ∃ f, e = .fault f := by
  induction fuel generalizing i with
  | zero => exact .inl (Except.error.inj h).symm
  | succ fuel ih =>
    rw [declaratorStart_succ] at h
    split at h
    · cases h
    · split at h
      · exact .inr ⟨_, (Except.error.inj h).symm⟩
      · split at h
        · split at h
          · exact .inl (Except.error.inj h).symm
          · exact ih _ h
        · exact ih _ h

/-- The search for the declared name comes to an end in front of a name that is no part of a type,
if it starts in front of it and there are only tokens of a type in between. -/
theorem declaratorStart_ok (hc : c.last.isEof = true) {k : Nat} (hlt : start < k)
    (hspan : c.Spans start k) (hname : (c.tokenAt k).isIdent = true)
    (hword : isTypeWord (c.tokenAt k) = false)
    (hfollow : (c.tokenAt (k + 1)).isPunctOf followers = true) (fuel i : Nat) (hi : start ≤ i)
    (hik : i ≤ k) (hfuel : k - i < fuel) :
    ∃ j, c.declaratorStart start fuel i = .ok j ∧ start < j ∧ j ≤ k := by
  induction fuel generalizing i with
  | zero => omega
  | succ fuel ih =>
    rw [declaratorStart_succ]
    split
    · rename_i hstop
      simp only [Bool.and_eq_true, decide_eq_true_eq] at hstop
      exact ⟨i, rfl, hstop.2, hik⟩
    · rename_i hstop
      have hne : i ≠ k := by
        rintro rfl
        simp only [isTypeWord, Bool.or_eq_false_iff] at hword
        refine hstop ?_
        simp only [hname, hword, hfollow, hlt, Bool.not_false, Bool.and_self, decide_true]
      have hplain := hspan.plain i hi (by omega)
      simp only [isPlain, Bool.and_eq_true, Bool.not_eq_true'] at hplain
      rw [if_neg (by simp [hplain.1.1])]
      split
      · rename_i hangle
        obtain ⟨n, hin, hnk, hn⟩ := hspan.angles i hi (by omega) hangle
        obtain ⟨x, -, hx⟩ := isPunct_of_isPunctOf hn
        have hsize : n < c.tokens.size := lt_size_of_not_eof hc (by
          simp only [Token.isPunct, Bool.and_eq_true, beq_iff_eq] at hx
          simp [Token.isEof, hx.1])
        obtain ⟨hle, hstops⟩ := skipWhile_stops (p := fun t => !t.isPunctOf [">", ">>"])
          (Nat.le_of_lt hin) hsize (by simpa using hn)
        have hfirst := le_skipWhile (c := c) (p := fun t => !t.isPunctOf [">", ">>"]) i
        generalize c.skipWhile (fun t => !t.isPunctOf [">", ">>"]) i = m at *
        have heof : (c.tokenAt m).isEof = false := by
          simp only [Bool.not_eq_false', Token.isPunctOf, Bool.and_eq_true, beq_iff_eq] at hstops
          simp [Token.isEof, hstops.1]
        rw [if_neg (by simp [heof])]
        exact ih (m + 1) (by omega) (by omega) (by omega)
      · exact ih (i + 1) (by omega) (by omega) (by omega)

theorem sub_lt_rounds (c : Context) (i : Nat) : c.tokens.size - i < c.rounds := by
  have := Nat.le_mul_of_pos_right c.tokens.size (show 0 < 2 * c.tokens.size + 1 by omega)
  simp only [rounds]
  omega

/-- Where no name is hidden, the declared name is found, and no brace stands in front of it. -/
theorem declaratorStart_of_looksLike (hc : c.last.isEof = true) {locals : List String}
    (h : c.looksLikeDeclaration locals start = true) (hhides : c.hidesName start = false)
    (hfuel : c.tokens.size - start < fuel) :
    ∃ j, c.declaratorStart start fuel start = .ok j ∧ start < j ∧ ∀ m, start ≤ m → m < j →
    isPlain (c.tokenAt m) = true := by
  have hnil := looksLikeDeclaration_nil h
  obtain ⟨k, hk, hlt, hspan, hname, hfollow⟩ := declaredAt?_of_looksLike hnil
  have hword : isTypeWord (c.tokenAt k) = false := by simpa [hidesName, hnil, hk] using hhides
  have hsize := lt_size_of_not_eof hc (i := k) (by
    simp only [Token.isIdent, beq_iff_eq] at hname
    simp [Token.isEof, hname])
  obtain ⟨j, hj, hsj, hjk⟩ := declaratorStart_ok hc hlt hspan hname hword hfollow fuel start
    (Nat.le_refl _) (Nat.le_of_lt hlt) (by omega)
  exact ⟨j, hj, hsj, fun m hm hmj => hspan.plain m hm (Nat.lt_of_lt_of_le hmj hjk)⟩

end Context

end JniContracts.Parse
