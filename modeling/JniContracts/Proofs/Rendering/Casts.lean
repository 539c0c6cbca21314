import JniContracts.Proofs.Rendering.Printed

/-!
Parentheses around a printed expression do not look like those of a cast. In front of the first
parenthesis that closes, the text has a word that is part of no type, or an operator with an operand
behind it.
-/

namespace JniContracts

open Lexer Rendering

variable {ws : List Word}

namespace Word

def isNamePart (w : Word) : Bool := w.1 == .ident || w == (.punct, "::")

def isMark (w : Word) : Bool :=
  w == (.punct, "*") || w ==
      (.punct, "&") || (w.1 == .ident && Parse.pointerQualifiers.contains w.2)

end Word

open Word

/-- The words are not those of a type, nor do they become such by leaving out the last ones from a
closing parenthesis on: a name is followed by marks, and these by a word that is none. -/
def Blocks (ws : List Word) : Prop :=
  ∃ names marks y rest, ws = names ++ (marks ++ y :: rest) ∧ (∀ w ∈ names, isNamePart w = true) ∧
    (∀ w ∈ marks, isMark w = true) ∧ (∀ w ∈ (marks ++ [y]).head?, isNamePart w = false) ∧
    isMark y = false ∧
    y ≠ (.punct, ")")

theorem Blocks.append (h : Blocks ws) (more : List Word) : Blocks (ws ++ more) := by
  obtain ⟨names, marks, y, rest, rfl, h⟩ := h
  exact ⟨names, marks, y, rest ++ more, by simp, h⟩

def Stranger (w : Word) : Prop := isNamePart w = false ∧ isMark w = false ∧ w ≠ (.punct, ")")

/-- The words of an operand: a name, which starts with no mark, or a name with a stranger behind
it. -/
inductive Fronted : List Word → Prop
  | path {w : Word} {rest : List Word} (h : ∀ x ∈ w :: rest, isNamePart x = true)
      (hw : isMark w = false) : Fronted (w :: rest)
  | stranger {names rest : List Word} {y : Word} (hnames : ∀ w ∈ names, isNamePart w = true)
      (hy : Stranger y) : Fronted (names ++ y :: rest)

theorem fronted_of_stranger {y : Word} {rest : List Word} (hy : Stranger y) :
    Fronted (y :: rest) := by
  have hfronted : Fronted ([] ++ y :: rest) := .stranger (by simp) hy
  exact hfronted

theorem Fronted.go (h : Fronted ws) {y : Word} (hy : Stranger y) (rest : List Word) :
    Fronted (ws ++ y :: rest) := by
  cases h with
  | path h hw => exact .stranger h hy
  | @stranger names rest' y' hnames hy' =>
    rw [List.append_assoc, List.cons_append]
    exact .stranger hnames hy'

theorem blocks_of_stranger {names rest : List Word} {y : Word}
    (hnames : ∀ w ∈ names, isNamePart w = true) (hy : Stranger y) : Blocks (names ++ y :: rest) :=
  ⟨names, [], y, rest, rfl, hnames, by simp, by simpa using hy.1, hy.2⟩

theorem Fronted.blocks (h : Fronted ws) {y : Word} (hy : Stranger y) (rest : List Word) :
    Blocks (ws ++ y :: rest) := by
  cases h with
  | path h hw => exact blocks_of_stranger h hy
  | stranger hnames hy' => exact (blocks_of_stranger hnames hy').append _

/-- An operator that may be a mark of a type stands between operands. -/
theorem Fronted.blocks_mark {ws' : List Word} (h : Fronted ws) (h' : Fronted ws') {x : Word}
    (hx : isMark x = true ∧ isNamePart x = false) : Blocks (ws ++ x :: ws') := by
  -- the marks go on with the words of the second operand that are marks
  have hnext :
      ∀ names : List Word, (∀ w ∈ names, isNamePart w = true) →
      ∀ {y : Word} {rest : List Word}, isMark y = false → y ≠ (.punct, ")") →
      ∃ marks z rest', names ++ y :: rest = marks ++ z :: rest' ∧ (∀ w ∈ marks, isMark w = true) ∧
      isMark z = false ∧ z ≠ (.punct, ")") := by
    intro names hnames y rest hy hclose
    induction names with
    | nil => exact ⟨[], y, rest, rfl, by simp, hy, hclose⟩
    | cons w names ih =>
      cases hw : isMark w with
      | false =>
        refine ⟨[], w, names ++ y :: rest, rfl, by simp, hw, ?_⟩
        rintro rfl
        exact absurd (hnames _ List.mem_cons_self) (by decide)
      | true =>
        obtain ⟨marks, z, rest', heq, hmarks, hz⟩ :=
          ih fun v hv => hnames v (List.mem_cons_of_mem _ hv)
        exact ⟨w :: marks, z, rest', by rw [List.cons_append, heq, List.cons_append],
          List.forall_mem_cons.mpr ⟨hw, hmarks⟩, hz⟩
  have hoperand :
      ∃ marks z rest, ws' = marks ++ z :: rest ∧ (∀ w ∈ marks, isMark w = true) ∧ isMark z = false ∧
      z ≠ (.punct, ")") := by
    cases h' with
    | @path w rest h hw =>
      refine ⟨[], w, rest, rfl, by simp, hw, ?_⟩
      rintro rfl
      exact absurd (h _ List.mem_cons_self) (by decide)
    | stranger hnames hy => exact hnext _ hnames hy.2.1 hy.2.2
  cases h with
  | @path w rest h hw =>
    obtain ⟨marks, z, rest', rfl, hmarks, hz⟩ := hoperand
    exact ⟨w :: rest, x :: marks, z, rest', rfl, h,
      List.forall_mem_cons.mpr ⟨hx.1, hmarks⟩, by simpa using hx.2, hz⟩
  | stranger hnames hy => exact (blocks_of_stranger hnames hy).append _

def Begins (ws : List Word) : Prop := ∃ w rest, ws = w :: rest ∧ w ≠ (.punct, ")")

theorem begins_of_forall {more : List Word} {P : Word → Bool} (h : ∀ w ∈ ws, P w = true)
    (hP : P (TokenKind.punct, ")") = false) (hmore : Begins more) : Begins (ws ++ more) := by
  cases ws with
  | nil => exact hmore
  | cons w ws =>
    refine ⟨w, ws ++ more, rfl, ?_⟩
    rintro rfl
    rw [h _ List.mem_cons_self] at hP
    cases hP

theorem Fronted.begins (h : Fronted ws) : Begins ws := by
  cases h with
  | @path w rest hparts hw =>
    refine ⟨w, rest, rfl, ?_⟩
    rintro rfl
    exact absurd (hparts _ List.mem_cons_self) (by decide)
  | stranger hnames hy => exact begins_of_forall hnames rfl ⟨_, _, rfl, hy.2.2⟩

namespace Expr

variable {pointers : List String} {e : Expr}

theorem fronted_path {n : String} (hn : IsPath n) :
    ∃ w rest, pathWords n = w :: rest ∧ (∀ x ∈ w :: rest, isNamePart x = true) ∧
    ((∀ w ∈ pathOf n, w ∉ Parse.pointerQualifiers) → isMark w = false) := by
  obtain ⟨w, ws, rfl, hwords, -⟩ := hn
  rw [pathWords_qualified hwords]
  refine ⟨_, _, rfl, fun x hx => ?_, fun hplain => ?_⟩
  · obtain rfl | hx := List.mem_cons.mp hx
    · rfl
    · obtain ⟨y, -, hx⟩ := List.mem_flatMap.mp hx
      simp only [List.mem_cons, List.not_mem_nil, or_false] at hx
      obtain rfl | rfl := hx <;> rfl
  · rw [pathOf_qualified hwords] at hplain
    have hnot := hplain w List.mem_cons_self
    simpa [isMark] using hnot

theorem stranger_punct {p : String} (hp : p ∉ ["::", "*", "&", ")"]) : Stranger (.punct, p) := by
  simp only [List.mem_cons, List.not_mem_nil, or_false, not_or] at hp
  simp [Stranger, isNamePart, isMark, hp]

theorem stranger_binOp {op : BinOp} (hop : op ∉ [.mul, .bitAnd]) : Stranger (.punct, op.text) := by
  refine stranger_punct ?_
  cases op <;> first | decide | exact absurd (by decide) hop

theorem fronted_loose (hloose : e.isLoose = true) (h : Blocks e.words) :
    Fronted e.tightWords ∧ (e.isLoose = true → Blocks e.words) := by
  rw [tightWords, enclosed, if_pos hloose]
  exact ⟨fronted_of_stranger (stranger_punct (by decide)), fun _ => h⟩

/-- As a part, a printable expression is an operand; as a whole in parentheses, it is not the type
of a cast. -/
theorem Printable.fronted (h : Printable pointers e) :
    Fronted e.tightWords ∧ (e.isLoose = true → Blocks e.words) := by
  induction h with
  | @name n p hn hplain =>
    obtain ⟨w, rest, hwords, hparts, hmark⟩ := fronted_path hn
    refine ⟨?_, fun h => by cases h⟩
    have hfronted : Fronted (w :: rest) := .path hparts (hmark hplain)
    rwa [← hwords] at hfronted
  | @literal t k p ht =>
    refine ⟨fronted_of_stranger ?_, fun h => by cases h⟩
    cases k <;> simp [Stranger, isNamePart, isMark, LiteralKind.token]
  | @member o attr arrow p ho hnumber hattr ih =>
    refine ⟨ih.1.go (stranger_punct ?_) _, fun h => by cases h⟩
    cases arrow <;> decide
  | index ho hi iho ihi => exact ⟨iho.1.go (stranger_punct (by decide)) _, fun h => by cases h⟩
  | call hf hargs hplain ihf ihargs =>
    exact ⟨ihf.1.go (stranger_punct (by decide)) _, fun h => by cases h⟩
  | @interfaceCall r n args q q' p hr hknown hn hargs ihargs =>
    obtain ⟨w, rest, hwords, hparts, -⟩ := fronted_path hr
    refine ⟨?_, fun h => by cases h⟩
    have hmember : Fronted (pathWords r ++ [(TokenKind.punct, "->"), (TokenKind.ident, n)]) := by
      rw [hwords]
      exact .stranger hparts (stranger_punct (by decide))
    exact hmember.go (stranger_punct (by decide)) _
  | step hop he ih =>
    refine ⟨ih.1.go (stranger_punct ?_) _, fun h => by cases h⟩
    obtain rfl | rfl := hop <;> decide
  | @binary op l r p hop hl hr ihl ihr =>
    refine fronted_loose rfl ?_
    by_cases hmark : op ∈ [.mul, .bitAnd]
    · refine ihl.1.blocks_mark ihr.1 ?_
      simp only [List.mem_cons, List.not_mem_nil, or_false] at hmark
      obtain rfl | rfl := hmark <;> decide
    · exact ihl.1.blocks (stranger_binOp hmark) _
  | conditional hc hx hy ihc ihx ihy =>
    exact fronted_loose rfl (ihc.1.blocks (stranger_punct (by decide)) _)
  | @assign op t v p ht hv hassign hconditional iht ihv =>
    refine fronted_loose rfl ?_
    have hop : Stranger (.punct, op.text) := stranger_punct (by cases op <;> decide)
    cases hloose : t.isLoose with
    | true => exact (iht.2 hloose).append _
    | false =>
      have htight := iht.1
      rw [tightWords, enclosed, if_neg (by simp [hloose])] at htight
      exact htight.blocks hop _

theorem Printable.begins (h : Printable pointers e) : Begins e.words := by
  obtain ⟨htight, hblocks⟩ := h.fronted
  cases hloose : e.isLoose with
  | true =>
    obtain ⟨names, marks, y, rest, hwords, hnames, hmarks, -, -, hclose⟩ := hblocks hloose
    rw [hwords]
    exact begins_of_forall hnames rfl (begins_of_forall hmarks rfl ⟨y, rest, rfl, hclose⟩)
  | false =>
    rw [tightWords, enclosed, if_neg (by simp [hloose])] at htight
    exact htight.begins

end Expr

namespace Parse

variable {c : Context}

theorem getElem?_slice {a j k : Nat} (hj : j ≤ c.tokens.size) (hk : a + k < j) :
    (c.slice a j)[k]? = some (c.tokenAt (a + k)) := by
  have hlt : a + k < c.tokens.size := by omega
  rw [Context.slice, Array.getElem?_toList, Array.getElem?_extract, if_pos (by omega),
    c.getElem?_of_tokenAt hlt]

def Context.Shows (c : Context) : Nat → List Word → Prop
  | _, [] => True
  | i, w :: ws => (c.tokenAt i).word = w ∧ c.Shows (i + 1) ws

theorem shows_append {i : Nat} {ws' : List Word} :
    c.Shows i (ws ++ ws') ↔ c.Shows i ws ∧ c.Shows (i + ws.length) ws' := by
  induction ws generalizing i with
  | nil => simp [Context.Shows]
  | cons w ws ih =>
    simp only [List.cons_append, Context.Shows, ih, List.length_cons, and_assoc]
    rw [Nat.add_right_comm, Nat.add_assoc]

theorem Context.Shows.word {i k : Nat} {w : Word} (h : c.Shows i ws) (hk : ws[k]? = some w) :
    (c.tokenAt (i + k)).word = w := by
  induction ws generalizing i k with
  | nil => simp at hk
  | cons x ws ih =>
    cases k with
    | zero =>
      simp only [List.getElem?_cons_zero, Option.some.injEq] at hk
      exact h.1.trans hk
    | succ k =>
      rw [List.getElem?_cons_succ] at hk
      have hword := ih h.2 hk
      rwa [Nat.add_right_comm, Nat.add_assoc] at hword

theorem isNamePart_word (t : Token) : isNamePart t.word = (t.isIdent || t.isPunct "::") := rfl

theorem isMark_word {t : Token}
    (h : (t.isPunctOf ["*", "&"] || t.isWordOf pointerQualifiers) = true) :
    isMark t.word = true := by
  simp only [Token.isPunctOf, Token.isWordOf, Bool.or_eq_true, Bool.and_eq_true, beq_iff_eq,
    List.contains_iff_mem, List.mem_cons, List.not_mem_nil, or_false] at h
  obtain ⟨hk, ht | ht⟩ | ⟨hk, ht⟩ := h <;> simp [isMark, Token.word, hk, ht]

theorem parts_of_looksLikeCast {locals : List String} {i j : Nat}
    (h : c.looksLikeCast locals i = true) (hij : c.partner? i = some j) :
    ∃ names marks, c.slice (i + 1) j = names ++ marks ∧ (∀ t ∈ names, isNamePart t.word = true) ∧
    ∀ t ∈ marks, isMark t.word = true := by
  have hpartner : c.partnerOf i = j := by rw [Context.partnerOf, hij, Option.getD_some]
  simp only [Context.looksLikeCast, hpartner] at h
  split at h
  · cases h
  · rename_i first more hinner
    cases hnames : (c.slice (i + 1) j).span fun t => t.isIdent || t.isPunct "::" with
    | mk names rest =>
    cases hmarks : rest.span fun t => t.isPunctOf ["*", "&"] || t.isWordOf pointerQualifiers with
    | mk marks rest' =>
    simp only [hnames, hmarks] at h
    have hrest : rest' = [] := by
      by_contra hne
      simp [hne] at h
    refine ⟨names, marks, ?_, fun t ht => ?_, fun t ht => isMark_word ((of_span hmarks).1 t ht)⟩
    · rw [← append_of_span hnames, ← append_of_span hmarks, hrest, List.append_nil]
    · rw [isNamePart_word]
      exact (of_span hnames).1 t ht

/-- Words in parentheses that are not those of a type do not look like a cast. -/
theorem not_looksLikeCast (hc : c.Matched) {i : Nat} (hws : Blocks ws)
    (hshows : c.Shows i ((TokenKind.punct, "(") :: (ws ++ [(TokenKind.punct, ")")])))
    (locals : List String) : c.looksLikeCast locals i = false := by
  by_contra hcast
  obtain ⟨names, marks, y, rest, rfl, hnames, hmarks, hhead, hy, hclose⟩ := hws
  obtain ⟨hopen, hshows⟩ := hshows
  have hkind : (c.tokenAt i).kind = .punct := congrArg Prod.fst hopen
  have htext : (c.tokenAt i).text = "(" := congrArg Prod.snd hopen
  obtain ⟨j, hij, hlt⟩ := hc.opener (i := i) (by simp [Brackets.closer?, hkind, htext])
  -- the partner closes the parenthesis, and so it stands behind the word that no type has
  have hpartner : (c.tokenAt j).word = (.punct, ")") := by
    obtain ⟨hcloser, hisCloser⟩ := hc.kinds hij hlt
    obtain ⟨-, ⟨-, hx⟩ | ⟨hx, -⟩ | ⟨hx, -⟩⟩ := Brackets.closer?_eq_some.mp hcloser
    · simp only [Brackets.isCloser, Token.isPunctOf, Bool.and_eq_true, beq_iff_eq] at hisCloser
      rw [Token.word, hisCloser.1, hx]
    all_goals
      rw [htext] at hx
      exact absurd hx (by decide)
  have hfront :
      ∀ k w, (names ++ (marks ++ [y]))[k]? = some w → (c.tokenAt (i + 1 + k)).word = w := by
    intro k w hk
    refine hshows.word ?_
    have hshape : names ++ (marks ++ y :: rest) ++ [(TokenKind.punct, ")")] =
        names ++ (marks ++ [y]) ++ (rest ++ [(TokenKind.punct, ")")]) := by simp
    rw [hshape]
    exact List.getElem?_append_left (List.getElem?_eq_some_iff.mp hk).1 ▸ hk
  have hbehind : i + 1 + (names.length + marks.length) < j := by
    by_contra hle
    have hk : j - (i + 1) < (names ++ (marks ++ [y])).length := by
      simp only [List.length_append, List.length_singleton]
      omega
    have hword := hfront _ _ (List.getElem?_eq_getElem hk)
    have hmem := List.getElem_mem hk
    rw [show i + 1 + (j - (i + 1)) = j by omega, hpartner] at hword
    rw [← hword] at hmem
    simp only [List.mem_append, List.mem_singleton] at hmem
    obtain hmem | hmem | hmem := hmem
    · exact absurd (hnames _ hmem) (by decide)
    · exact absurd (hmarks _ hmem) (by decide)
    · exact hclose hmem.symm
  obtain ⟨typeNames, typeMarks, hslice, htypeNames, htypeMarks⟩ :=
    parts_of_looksLikeCast (Bool.of_not_eq_false hcast) hij
  have hat : ∀ k, i + 1 + k < j → (typeNames ++ typeMarks)[k]? = some (c.tokenAt (i + 1 + k)) :=
    fun k hk => by
    rw [← hslice]
    exact getElem?_slice (Nat.le_of_lt (hc.bound hij)) hk
  by_cases hlong : names.length + marks.length < typeNames.length
  · -- the word behind the name would be part of the name
    have hstart := hat names.length (by omega)
    rw [List.getElem?_append_left (by omega)] at hstart
    have hpart := htypeNames _ (List.mem_of_getElem? hstart)
    cases hw : (marks ++ [y]).head? with
    | none => simp at hw
    | some w =>
      have hword := hfront names.length w (by
        rw [List.getElem?_append_right (Nat.le_refl _), Nat.sub_self, ← List.head?_eq_getElem?, hw])
      rw [hword, hhead w (by simp [hw])] at hpart
      cases hpart
  · -- the word would be a mark
    have hlast := hat (names.length + marks.length) hbehind
    rw [List.getElem?_append_right (by omega)] at hlast
    have hmark := htypeMarks _ (List.mem_of_getElem? hlast)
    rw [hfront (names.length + marks.length) y (by
      rw [← List.append_assoc, List.getElem?_append_right (by simp)]; simp), hy] at hmark
    cases hmark

end Parse

end JniContracts
