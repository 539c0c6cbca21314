import JniContracts.Proofs.Declarations
import JniContracts.Proofs.Reading

/-!
How reading moves through the tokens. Each reader takes the place forward by single tokens, over
pairs of brackets, and through blocks from brace to brace. Two moves are less certain. A handler is
skipped from the token behind `catch`, whatever it is, and a type or a statement that is not read is
skipped without a look at the block around it.
-/

namespace JniContracts.Parse

namespace Context

variable (c : Context)

/-- A block and `catch` behind it, and then a bracket that closes: its partner lies before the
block. -/
def turnsBack (i : Nat) : Bool :=
  (c.tokenAt i).isPunct "\x7d" && (c.tokenAt (i + 1)).isWord "catch" && Brackets.isCloser
    (c.tokenAt (i + 2))

def lacksBracket (i : Nat) : Bool :=
  (c.tokenAt i).isPunct "\x7d" && (c.tokenAt (i + 1)).isWord "catch" && (c.partner? (i + 2)).isNone

/-- Whether a semicolon comes before the end of the block around a place, inner brackets left
out. -/
def endsInBlock : Nat → Nat → Bool
  | 0, _ => false
  | fuel + 1, i =>
    let t := c.tokenAt i
    if t.isPunct ";" then true
    else if t.isPunct "\x7d" then false
    else if t.isPunctOf ["(", "[", "\x7b"] then endsInBlock fuel (c.partnerOf i + 1)
    else endsInBlock fuel (i + 1)

def runsOver (i : Nat) : Bool :=
  (c.tokenAt i).isWordOf ["using", "typedef"] && !c.endsInBlock c.tokens.size i

def Nowhere (p : Nat → Bool) : Prop := ∀ i < c.tokens.size, p i = false

instance (p : Nat → Bool) : Decidable (c.Nowhere p) := inferInstanceAs (Decidable (∀ i < _, _))

def Orderly : Prop := c.Nowhere c.hidesName ∧ c.Nowhere c.turnsBack

instance : Decidable c.Orderly := inferInstanceAs (Decidable (_ ∧ _))

def Contained (b : Nat) : Prop :=
  ∀ k ≤ c.partnerOf b, b < k → c.hidesName k = false ∧ c.runsOver k = false

instance (b : Nat) : Decidable (c.Contained b) := inferInstanceAs (Decidable (∀ k ≤ _, _))

/-- What a reader may stop for besides faults and nesting: a handler without brackets, and tokens
that are not in order. -/
def Excuses : Stop → Prop
  | .fault _ | .tooDeep => True
  | .noBracket k => ∃ i, k = i + 2 ∧ c.lacksBracket i = true
  | .endless => ¬ c.Orderly

inductive SkipsTo : Nat → Nat → Prop where
  | stop {i} (h : (c.tokenAt i).isPunct ";" = true) : SkipsTo i (i + 1)
  | leap {i j k} (ho : (c.tokenAt i).isPunctOf ["(", "[", "\x7b"] = true)
      (h : c.partner? i = some j) (hs : SkipsTo (j + 1) k) : SkipsTo i k
  | step {i k} (h : (c.tokenAt i).isEof = false) (hn : (c.tokenAt i).isPunct ";" = false)
      (ho : (c.tokenAt i).isPunctOf ["(", "[", "\x7b"] = false) (hs : SkipsTo (i + 1) k) :
      SkipsTo i k

inductive Passes : Nat → Nat → Prop where
  | take {i} (h : isPlain (c.tokenAt i) = true) : Passes i (i + 1)
  | leap {i j} (ho : (c.tokenAt i).isPunctOf ["(", "[", "\x7b"] = true)
      (h : c.partner? i = some j) : Passes i (j + 1)
  | handler {i j} (hb : (c.tokenAt i).isPunct "\x7d" = true)
      (hw : (c.tokenAt (i + 1)).isWord "catch" = true) (h : c.partner? (i + 2) = some j) :
      Passes (i + 1) (j + 1)
  | type {locals i j} (h : c.looksLikeDeclaration locals i = true)
      (hj : c.declaratorStart i c.rounds i = .ok j) : Passes i j
  | skip {i j} (hw : (c.tokenAt i).isWordOf ["using", "typedef"] = true) (h : SkipsTo c i j) :
      Passes i j
  | braces {i} (ho : opensBlock (c.tokenAt i) = true)
      (hc : (c.tokenAt (i + 1)).isPunct "\x7d" = true) : Passes i (i + 2)
  | block {i j} (ho : opensBlock (c.tokenAt i) = true) (h : Passes (i + 1) j)
      (hc : (c.tokenAt j).isPunct "\x7d" = true) : Passes i (j + 1)
  | trans {i j k} (h : Passes i j) (h' : Passes j k) : Passes i k

def Comes (i j : Nat) : Prop := i = j ∨ c.Passes i j

end Context

open Context

section Passes

variable {c : Context} {i j k : Nat}

theorem Context.Comes.refl (i : Nat) : c.Comes i i := .inl rfl

theorem Context.Passes.comes (h : c.Passes i j) : c.Comes i j := .inr h

theorem Context.Comes.passes (h : c.Comes i j) (h' : c.Passes j k) : c.Passes i k := by
  rcases h with rfl | h
  · exact h'
  · exact h.trans h'

theorem Context.Passes.then (h : c.Passes i j) (h' : c.Comes j k) : c.Passes i k := by
  rcases h' with rfl | h'
  · exact h
  · exact h.trans h'

theorem Context.Comes.trans (h : c.Comes i j) (h' : c.Comes j k) : c.Comes i k := by
  rcases h' with rfl | h'
  · exact h
  · exact .inr (h.passes h')

theorem Context.Comes.block (ho : opensBlock (c.tokenAt i) = true) (h : c.Comes (i + 1) j)
    (hc : (c.tokenAt j).isPunct "\x7d" = true) : c.Passes i (j + 1) := by
  rcases h with rfl | h
  · exact .braces ho hc
  · exact .block ho h hc

theorem Context.Comes.region (hij : i ≤ j) (h : ∀ m, i ≤ m → m < j → isPlain (c.tokenAt m) = true) :
    c.Comes i j := by
  induction hij with
  | refl => exact .refl i
  | step hij ih =>
    exact (ih fun m him hmj => h m him (Nat.lt_succ_of_lt hmj)).trans
      (.inr (.take (h _ hij (Nat.lt_succ_self _))))

end Passes

namespace Context

variable {c : Context} {i j : Nat}

section Nowhere

variable {p : Nat → Bool}

theorem Nowhere.at (h : c.Nowhere p) (hp : p i = true → i < c.tokens.size) : p i = false := by
  by_contra hi
  rw [Bool.not_eq_false] at hi
  rw [h i (hp hi)] at hi
  cases hi

theorem Matched.size_of_turnsBack (hc : c.Matched) (h : c.turnsBack i = true) :
    i < c.tokens.size := by
  simp only [turnsBack, Bool.and_eq_true] at h
  exact lt_size_of_not_eof hc.ends (not_isEof_of_isPunct h.1.1)

theorem Matched.size_of_lacksBracket (hc : c.Matched) (h : c.lacksBracket i = true) :
    i < c.tokens.size := by
  simp only [lacksBracket, Bool.and_eq_true] at h
  exact lt_size_of_not_eof hc.ends (not_isEof_of_isPunct h.1.1)

theorem Matched.size_of_hidesName (hc : c.Matched) (h : c.hidesName i = true) :
    i < c.tokens.size := by
  simp only [hidesName, Bool.and_eq_true] at h
  obtain ⟨k, -, hik, hspan, -⟩ := declaredAt?_of_looksLike h.1
  exact lt_size_of_not_eof hc.ends (isEof_of_isPlain (hspan.plain i (Nat.le_refl i) hik))

end Nowhere

theorem Matched.comes_of_type (hc : c.Matched) (hn : c.hidesName i = false) {locals : List String}
    (h : c.looksLikeDeclaration locals i = true) (hj : c.declaratorStart i c.rounds i = .ok j) :
    i < j ∧ ∀ m, i ≤ m → m < j → isPlain (c.tokenAt m) = true := by
  obtain ⟨j', hj', hlt, hplain⟩ := declaratorStart_of_looksLike hc.ends h hn (c.sub_lt_rounds i)
  cases hj.symm.trans hj'
  exact ⟨hlt, hplain⟩

theorem Matched.lt_partner (hc : c.Matched) (ho : (c.tokenAt i).isPunctOf ["(", "[", "\x7b"] = true)
    (h : c.partner? i = some j) : i < j := by
  obtain ⟨j', hj', hlt⟩ := hc.opener (by rw [Brackets.isSome_closer?, ho])
  cases h.symm.trans hj'
  exact hlt

theorem SkipsTo.lt (hc : c.Matched) (h : c.SkipsTo i j) : i < j ∧ j ≤ c.tokens.size := by
  induction h with
  | stop h => exact ⟨Nat.lt_succ_self _, lt_size_of_not_eof hc.ends (not_isEof_of_isPunct h)⟩
  | leap ho h _ ih =>
    have := hc.lt_partner ho h
    omega
  | step _ _ _ _ ih => omega

/-- Where reading goes only forward, it goes forward within the tokens. -/
theorem Passes.forward (hc : c.Matched) (ho : c.Orderly) (h : c.Passes i j) :
    i < j ∧ j ≤ c.tokens.size := by
  induction h with
  | take h => exact ⟨Nat.lt_succ_self _, lt_size_of_not_eof hc.ends (isEof_of_isPlain h)⟩
  | leap ho h => exact ⟨Nat.lt_succ_of_lt (hc.lt_partner ho h), hc.bound h⟩
  | @handler i j hb hw h =>
    refine ⟨?_, hc.bound h⟩
    have hback := ho.2.at (i := i) hc.size_of_turnsBack
    simp only [turnsBack, hb, hw, Bool.true_and] at hback
    rcases Nat.lt_or_gt_of_ne (hc.apart h) with hlt | hgt
    · omega
    · rw [(hc.kinds (hc.partner h) hgt).2] at hback
      cases hback
  | @type _ i j h hj =>
    obtain ⟨hlt, hplain⟩ := hc.comes_of_type (ho.1.at hc.size_of_hidesName) h hj
    have := lt_size_of_not_eof hc.ends (isEof_of_isPlain (hplain (j - 1) (by omega) (by omega)))
    omega
  | skip _ h => exact h.lt hc
  | braces _ h => exact ⟨by omega, lt_size_of_not_eof hc.ends (not_isEof_of_isPunct h)⟩
  | block _ _ h ih => exact ⟨by omega, lt_size_of_not_eof hc.ends (not_isEof_of_isPunct h)⟩
  | trans _ _ ih ih' => exact ⟨Nat.lt_trans ih.1 ih'.1, ih'.2⟩

/-- A loop that passes something in each round runs for no more rounds than there are tokens
left. -/
theorem Passes.fuel (hc : c.Matched) (h : c.Passes i j) {fuel : Nat}
    (hf : c.Orderly → c.tokens.size - i < fuel + 1) : c.Orderly → c.tokens.size - j < fuel := by
  intro ho
  have := h.forward hc ho
  have := hf ho
  omega

theorem Matched.level_plain (hc : c.Matched) (h : isPlain (c.tokenAt i) = true) :
    c.Level opensBlock i (i + 1) := by
  simp only [isPlain, Bool.and_eq_true, Bool.not_eq_true'] at h
  refine .take h.1.2 fun b hb hlt => ?_
  by_contra hopen
  rw [Bool.not_eq_false] at hopen
  obtain ⟨htext, hcloser⟩ := hc.kinds hb hlt
  rw [closer?_opensBlock hopen] at htext
  have hbrace : (c.tokenAt i).isPunct "\x7d" = true := by
    simp only [Brackets.isCloser, Token.isPunctOf, Bool.and_eq_true] at hcloser
    simp only [Token.isPunct, hcloser.1, Bool.true_and, beq_iff_eq]
    exact (Option.some.inj htext).symm
  rw [h.2] at hbrace
  cases hbrace

theorem Matched.level_region (hc : c.Matched) (hij : i ≤ j)
    (h : ∀ m, i ≤ m → m < j → isPlain (c.tokenAt m) = true) : c.Level opensBlock i j := by
  induction hij with
  | refl => exact .refl i
  | step hij ih =>
    exact (ih fun m him hmj => h m him (Nat.lt_succ_of_lt hmj)).trans
      (hc.level_plain (h _ hij (Nat.lt_succ_self _)))

theorem SkipsTo.level (hc : c.Matched) (h : c.SkipsTo i j) {fuel : Nat}
    (hends : c.endsInBlock fuel i = true) : c.Level opensBlock i j := by
  induction h generalizing fuel with
  | stop h => exact hc.level_plain (isPlain_of_isPunct h (by decide) (by decide))
  | @leap i j k ho h hs ih =>
    cases fuel with
    | zero => cases hends
    | succ fuel =>
      obtain ⟨x, hx, hx'⟩ := isPunct_of_isPunctOf ho
      have hother : ∀ y, y ∉ ["(", "[", "\x7b"] → (c.tokenAt i).isPunct y = false := by
        intro y hy
        rw [isPunct_eq hx', beq_eq_false_iff_ne]
        rintro rfl
        exact hy hx
      simp only [endsInBlock, hother ";" (by decide), hother "\x7d" (by decide), ho,
        Bool.false_eq_true, if_false, if_true, partnerOf, h, Option.getD_some] at hends
      exact (Level.leap hc h).trans (ih hends)
  | @step i k h hn ho hs ih =>
    cases fuel with
    | zero => cases hends
    | succ fuel =>
      simp only [endsInBlock, hn, ho, Bool.false_eq_true, if_false] at hends
      split at hends
      · cases hends
      · rename_i hbrace
        have hopen : (c.tokenAt i).isPunct "\x7b" = false := by
          by_contra hp
          rw [Bool.not_eq_false] at hp
          simp only [Token.isPunct, Bool.and_eq_true, beq_iff_eq] at hp
          simp [Token.isPunctOf, hp] at ho
        have hplain : isPlain (c.tokenAt i) = true := by
          rw [Bool.not_eq_true] at hbrace
          simp [isPlain, h, hopen, hbrace]
        exact (hc.level_plain hplain).trans (ih hends)

section Contained

variable {b : Nat}

theorem Contained.at (ht : c.Contained b) (hi : c.Encloses b i) :
    c.hidesName i = false ∧ c.runsOver i = false := by
  obtain ⟨j, hj, hlt, hle⟩ := hi
  exact ht i (by simpa [partnerOf, hj] using hle) hlt

theorem Encloses.enter (hc : c.Matched) (hi : c.Encloses b i)
    (ho : opensBlock (c.tokenAt i) = true) : c.Encloses b (i + 1) := by
  obtain ⟨j, hj, hlt, hle⟩ := hi
  have hij : i ≠ j := by
    rintro rfl
    have hcloser := (hc.kinds hj hlt).2
    rw [Brackets.not_isCloser_of_closer? (by rw [closer?_opensBlock ho]; rfl)] at hcloser
    cases hcloser
  exact ⟨j, hj, by omega, by omega⟩

theorem Matched.encloses_own (hc : c.Matched) (hb : opensBlock (c.tokenAt b) = true) :
    c.Encloses b (b + 1) := by
  obtain ⟨j, hj, hlt⟩ := hc.opener (i := b) (by rw [closer?_opensBlock hb]; rfl)
  exact ⟨j, hj, Nat.lt_succ_self b, hlt⟩

/-- Inside a block in which reading stays, the same blocks are open at both ends of what is read. -/
theorem Passes.level (hc : c.Matched) (hb : opensBlock (c.tokenAt b) = true) (ht : c.Contained b)
    (h : c.Passes i j) (hi : c.Encloses b i) : c.Level opensBlock i j := by
  induction h with
  | take h => exact hc.level_plain h
  | leap _ h => exact .leap hc h
  | handler _ hw h =>
    exact (hc.level_plain (isPlain_of_isIdent (isIdent_of_isWord hw))).trans (.leap hc h)
  | type h hj =>
    obtain ⟨hlt, hplain⟩ := hc.comes_of_type (ht.at hi).1 h hj
    exact hc.level_region (Nat.le_of_lt hlt) hplain
  | @skip i j hw h =>
    have hover := (ht.at hi).2
    simp only [runsOver, hw, Bool.true_and, Bool.not_eq_false'] at hover
    exact h.level hc hover
  | @braces i ho hclose => exact .leap hc (hc.partner_of_level ho hclose (.refl (i + 1)))
  | @block i j ho _ hclose ih =>
    exact .leap hc (hc.partner_of_level ho hclose (ih (hi.enter hc ho)))
  | trans _ _ ih ih' =>
    have h₁ := ih hi
    exact h₁.trans (ih' ((h₁ b hb).mp hi))

theorem Comes.level (hc : c.Matched) (hb : opensBlock (c.tokenAt b) = true) (ht : c.Contained b)
    (h : c.Comes i j) (hi : c.Encloses b i) : c.Level opensBlock i j := by
  rcases h with rfl | h
  · exact .refl i
  · exact h.level hc hb ht hi

end Contained

end Context

end JniContracts.Parse
