import JniContracts.Parse.Unit
import JniContracts.Proofs.ReadingStmts
import Mathlib.Data.List.Basic
import Mathlib.Data.List.Forall2

/-!
Reading at file scope. Between functions the brackets that are open are the braces of namespaces,
linkage blocks and classes, so a brace that closes always has a scope to close, and each header that
is found leads to a function or to a fault.
-/

namespace JniContracts

theorem Lexer.getLast_scan {tokens : List Token} (fuel : Nat) (fresh : Bool) (p : Pos)
    (seen : List Token) (cs : List Char) (h : scan fuel fresh p seen cs = .ok tokens) :
    (tokens.getLastD default).isEof = true := by
  have done :
      ∀ {p seen}, (.ok ((⟨.eof, "", p⟩ : Token) :: seen).reverse : Except Fault _) = .ok tokens →
      (tokens.getLastD default).isEof = true := by
    intro p seen h
    cases h
    simp [List.getLastD_eq_getLast?, Token.isEof]
  induction fuel generalizing fresh p seen cs with
  | zero =>
    rw [scan] at h
    exact done h
  | succ fuel ih =>
    cases cs with
    | nil =>
      rw [scan] at h
      · exact done h
      · simp
    | cons ch cs =>
      rw [scan] at h
      · split at h
        · exact ih _ _ _ _ h
        · split at h
          · cases h
          · exact ih _ _ _ _ h
          · exact ih _ _ _ _ h
      · simp

namespace Parse

def contextOf (source : String) (types : List String) : Except Fault Context :=
  tokenize source >>= fun tokens => Context.ofTokens tokens types

theorem matched_of_contextOf {source : String} {types : List String} {c : Context}
    (h : contextOf source types = .ok c) : c.Matched := by
  unfold contextOf at h
  cases ht : tokenize source with
  | error f =>
    rw [ht] at h
    cases h
  | ok tokens =>
    rw [ht] at h
    exact Context.matched_of_ofTokens h (Lexer.getLast_scan _ _ _ _ _ ht)

theorem contextOf_ok_iff {source : String} (types : List String) :
    (∃ c, contextOf source types = .ok c) ↔
    ∃ tokens, tokenize source = .ok tokens ∧ Brackets.Balanced tokens := by
  unfold contextOf
  cases tokenize source with
  | error f =>
    constructor
    · rintro ⟨c, hc⟩
      cases hc
    · rintro ⟨tokens, ht, -⟩
      cases ht
  | ok tokens =>
    simp only [Except.ok.injEq, exists_eq_left', Brackets.balanced_iff, bind, Except.bind,
      Context.ofTokens, Brackets.table]
    cases Brackets.pairs 0 [] tokens with
    | error f =>
      constructor
      · rintro ⟨c, hc⟩
        cases hc
      · rintro ⟨ps, hps⟩
        cases hps
    | ok ps => exact ⟨fun _ => ⟨ps, rfl⟩, fun _ => ⟨_, rfl⟩⟩

def Progress.fresh : Progress := ⟨0, 0, 0, [], [], [], []⟩

theorem parse_eq (source path : String) (types : List String) : SourceFile.parse source path types =
    match contextOf source types with
    | .error f => .error (.fault f)
    | .ok c => (Progress.run readers c c.tokens.size .fresh).map fun p =>
        ⟨path, c.tokens, p.functions, p.globals, p.interfaceGlobals, p.faults⟩ := by
  unfold SourceFile.parse sourceFile contextOf
  cases tokenize source with
  | error f => rfl
  | ok tokens =>
    simp only [Except.mapError, bind, Except.bind, Context.ofTokens]
    cases Brackets.table tokens with
    | error f => rfl
    | ok partners =>
      simp only [pure, Except.pure, List.size_toArray, Progress.fresh]
      cases Progress.run readers _ tokens.length _ <;> rfl

namespace Context

variable {c : Context}

/-- The headers that are found from place `pos` on, where a declaration is under way since `start`,
each with the brace behind it. Bodies are passed over, so nothing depends on what is in them. -/
inductive Outline (c : Context) : Nat → Nat → List (Nat × Header) → Prop where
  | done {start pos} (h : (c.tokenAt pos).isEof = true) : Outline c start pos []
  | function {start pos header hs} (ho : opensBlock (c.tokenAt pos) = true)
      (hh : c.functionHeader start pos = some header)
      (rest : Outline c (c.partnerOf pos + 1) (c.partnerOf pos + 1) hs) :
      Outline c start pos ((pos, header) :: hs)
  | scope {start pos hs} (ho : opensBlock (c.tokenAt pos) = true)
      (hh : c.functionHeader start pos = none) (hscope : opensScope (c.slice start pos) = true)
      (rest : Outline c (pos + 1) (pos + 1) hs) : Outline c start pos hs
  | braces {start pos hs} (ho : opensBlock (c.tokenAt pos) = true)
      (hh : c.functionHeader start pos = none) (hscope : opensScope (c.slice start pos) = false)
      (rest : Outline c start (c.partnerOf pos + 1) hs) : Outline c start pos hs
  | stop {start pos hs} (h : (c.tokenAt pos).isPunctOf ["\x7d", ";"] = true)
      (rest : Outline c (pos + 1) (pos + 1) hs) : Outline c start pos hs
  | group {start pos hs} (h : (c.tokenAt pos).isPunctOf ["(", "["] = true)
      (rest : Outline c start (c.partnerOf pos + 1) hs) : Outline c start pos hs
  | access {start pos hs} (h : (c.tokenAt pos).isWordOf ["public", "protected", "private"] = true)
      (hcolon : (c.tokenAt (pos + 1)).isPunct ":" = true)
      (rest : Outline c (pos + 2) (pos + 2) hs) : Outline c start pos hs
  | token {start pos hs} (heof : (c.tokenAt pos).isEof = false)
      (hpunct : (c.tokenAt pos).isPunctOf ["\x7b", "\x7d", ";", "(", "["] = false)
      (haccess : ((c.tokenAt pos).isWordOf ["public", "protected", "private"] &&
        (c.tokenAt (pos + 1)).isPunct ":") = false)
        (rest : Outline c start (pos + 1) hs) : Outline c start pos hs

structure Opened (c : Context) (l : List Nat) (i : Nat) : Prop where
  nodup : l.Nodup
  mem : ∀ b, b ∈ l ↔ c.Encloses b i
  blocks : ∀ b ∈ l, opensBlock (c.tokenAt b) = true

section Opened

variable {l : List Nat} {i j : Nat}

def opens (t : Token) : Bool := (Brackets.closer? t).isSome

theorem Opened.start (c : Context) : c.Opened [] 0 where
  nodup := .nil
  mem b := by simp [Encloses]
  blocks := by simp

theorem Matched.opens_of_encloses (hc : c.Matched) {b : Nat} (h : c.Encloses b i) :
    opens (c.tokenAt b) = true := by
  obtain ⟨j, hj, hlt, hle⟩ := h
  simp [opens, (hc.kinds hj (by omega)).1]

theorem Opened.level (hc : c.Matched) (h : c.Opened l i) (hl : c.Level opens i j) :
    c.Opened l j where
  nodup := h.nodup
  mem b := by
    rw [h.mem]
    constructor
    · intro hb
      exact (hl b (hc.opens_of_encloses hb)).mp hb
    · intro hb
      exact (hl b (hc.opens_of_encloses hb)).mpr hb
  blocks := h.blocks

theorem Opened.enter (hc : c.Matched) (h : c.Opened l i) (ho : opensBlock (c.tokenAt i) = true) :
    c.Opened (i :: l) (i + 1) where
  nodup := by
    refine List.nodup_cons.mpr ⟨fun hi => ?_, h.nodup⟩
    obtain ⟨j, -, hlt, -⟩ := (h.mem i).mp hi
    omega
  mem b := by
    rw [List.mem_cons, h.mem]
    constructor
    · rintro (rfl | hb)
      · exact hc.encloses_own ho
      · exact hb.enter hc ho
    · rintro ⟨j, hj, hlt, hle⟩
      rcases Nat.eq_or_lt_of_le (Nat.le_of_lt_succ hlt) with rfl | hlt
      · exact .inl rfl
      · exact .inr ⟨j, hj, hlt, by omega⟩
  blocks := by
    simp only [List.mem_cons, forall_eq_or_imp]
    exact ⟨ho, h.blocks⟩

/-- A bracket that closes is a brace here, and closes the innermost scope. -/
theorem Opened.leave (hc : c.Matched) (h : c.Opened l i)
    (hclose : Brackets.isCloser (c.tokenAt i) = true) :
    (c.tokenAt i).isPunct "\x7d" = true ∧ ∃ b ∈ l, c.Opened (l.erase b) (i + 1) := by
  obtain ⟨b, hb, hlt⟩ := hc.closer hclose
  have hb' := hc.partner hb
  have hmem : b ∈ l := (h.mem b).mpr ⟨i, hb', hlt, Nat.le_refl i⟩
  have hkind := (hc.kinds hb' hlt).1
  rw [closer?_opensBlock (h.blocks b hmem)] at hkind
  constructor
  · simp only [Brackets.isCloser, Token.isPunctOf, Bool.and_eq_true] at hclose
    simp [Token.isPunct, hclose.1, ← Option.some.inj hkind]
  · refine ⟨b, hmem, h.nodup.erase b, fun k => ?_,
      fun k hk => h.blocks k (List.mem_of_mem_erase hk)⟩
    rw [h.nodup.mem_erase_iff, h.mem]
    constructor
    · rintro ⟨hkb, j, hj, hki, hij⟩
      have hij' : i ≠ j := by
        rintro rfl
        exact hkb (Option.some.inj ((hc.partner hj).symm.trans hb))
      exact ⟨j, hj, by omega, by omega⟩
    · rintro ⟨j, hj, hki, hij⟩
      have hki' : k ≠ i := by
        rintro rfl
        have := Option.some.inj (hj.symm.trans hb)
        omega
      have hkb : k ≠ b := by
        rintro rfl
        have := Option.some.inj (hj.symm.trans hb')
        omega
      exact ⟨hkb, j, hj, by omega, by omega⟩

theorem Opened.take (hc : c.Matched) (h : c.Opened l i) (ho : opens (c.tokenAt i) = false)
    (hclose : Brackets.isCloser (c.tokenAt i) = false) : c.Opened l (i + 1) := by
  refine h.level hc (.take ho fun b hb hlt => ?_)
  rw [(hc.kinds hb hlt).2] at hclose
  cases hclose

theorem Opened.leap (hc : c.Matched) (h : c.Opened l i) (ho : opens (c.tokenAt i) = true) :
    c.Opened l (c.partnerOf i + 1) ∧ i < c.partnerOf i ∧ c.partnerOf i < c.tokens.size := by
  obtain ⟨j, hj, hlt⟩ := hc.opener ho
  simp only [partnerOf, hj, Option.getD_some]
  exact ⟨h.level hc (.pass hc hj hlt), hlt, hc.bound hj⟩

end Opened

end Context

/-- What becomes of a header: a function with the body that is read, or a fault in its place. -/
inductive Entry (g : Stmts) (c : Context) : Nat × Header → Function ⊕ Fault → Prop where
  | function {brace header globals body s}
      (h : functionBody g c header brace globals = .ok (body, s)) :
      Entry g c (brace, header) (.inl ⟨header.name, header.params, body, s.locals, header.pos⟩)
  | fault {brace header globals f} (h : functionBody g c header brace globals = .error (.fault f)) :
      Entry g c (brace, header) (.inr f)
  | tooDeep {brace header globals} (h : functionBody g c header brace globals = .error .tooDeep) :
      Entry g c (brace, header) (.inr ⟨.tooDeep, header.pos.line⟩)

namespace Progress

variable {g : Stmts} {c : Context} {p p' : Progress}

def AtFileScope (c : Context) (p : Progress) : Prop := ∃ l, c.Opened l p.pos ∧ l.length = p.scopes

def Gains (g : Stmts) (c : Context) (p p' : Progress) (hs : List (Nat × Header)) : Prop :=
  ∃ es, List.Forall₂ (Entry g c) hs es ∧ p'.functions = p.functions ++ es.filterMap Sum.getLeft? ∧
    p'.faults = p.faults ++ es.filterMap Sum.getRight?

theorem Gains.none (hfunctions : p'.functions = p.functions) (hfaults : p'.faults = p.faults) :
    Gains g c p p' [] :=
  ⟨[], .nil, by simp [hfunctions], by simp [hfaults]⟩

theorem Gains.trans {p'' : Progress} {hs hs' : List (Nat × Header)} (h : Gains g c p p' hs)
    (h' : Gains g c p' p'' hs') : Gains g c p p'' (hs ++ hs') := by
  obtain ⟨es, hes, hfunctions, hfaults⟩ := h
  obtain ⟨es', hes', hfunctions', hfaults'⟩ := h'
  refine ⟨es ++ es', List.rel_append hes hes', ?_, ?_⟩
  · rw [hfunctions', hfunctions, List.filterMap_append, List.append_assoc]
  · rw [hfaults', hfaults, List.filterMap_append, List.append_assoc]

structure Steps (g : Stmts) (c : Context) (p p' : Progress) (hs : List (Nat × Header)) : Prop where
  forward : p.pos < p'.pos
  bounded : p'.pos ≤ c.tokens.size
  scopes : p'.AtFileScope c
  gains : Gains g c p p' hs
  outline : ∀ hs', c.Outline p'.start p'.pos hs' → c.Outline p.start p.pos (hs ++ hs')

/-- Reading the body of a function stops for a bracket that is missing, or has no end. -/
def Escapes (g : Stmts) (c : Context) (stop : Stop) : Prop :=
  ∃ header brace globals, functionBody g c header brace globals = .error stop ∧
    (stop = .endless ∨ ∃ k, stop = .noBracket k)

theorem opens_eq (t : Token) : Context.opens t = t.isPunctOf ["(", "[", "\x7b"] :=
  Brackets.isSome_closer?

theorem isPunctOf_cons {t : Token} (x : String) (xs : List String) :
    t.isPunctOf (x :: xs) = (t.isPunct x || t.isPunctOf xs) := by
  simp only [Token.isPunctOf, Token.isPunct, List.contains_cons, Bool.and_or_distrib_left]

theorem isPunctOf_nil {t : Token} : t.isPunctOf [] = false := Bool.and_false _

theorem step_function (hc : c.Matched) (hp : p.AtFileScope c)
    (ho : (c.tokenAt p.pos).isPunct "\x7b" = true) {header : Header}
    (hheader : c.functionHeader p.start p.pos = some header) :
    (∃ p', p.function g c header = .ok p' ∧ Steps g c p p' [(p.pos, header)]) ∨
    ∃ stop, p.function g c header = .error stop ∧ Escapes g c stop := by
  obtain ⟨l, hl, hlen⟩ := hp
  obtain ⟨hl', hlt, hbound⟩ :=
    hl.leap hc (by rw [opens_eq]; exact isPunctOf_of_isPunct ho (by decide))
  have behind :
      ∀ {p' e}, p'.pos = c.partnerOf p.pos + 1 → p'.start = c.partnerOf p.pos + 1 →
      p'.scopes = p.scopes → Entry g c (p.pos, header) e →
      p'.functions = p.functions ++ [e].filterMap Sum.getLeft? →
      p'.faults = p.faults ++ [e].filterMap Sum.getRight? → Steps g c p p' [(p.pos, header)] := by
    intro p' e hpos hstart hscopes he hfunctions hfaults
    refine ⟨by omega, by omega, ⟨l, hpos ▸ hl', hscopes ▸ hlen⟩,
      ⟨[e], .cons he .nil, hfunctions, hfaults⟩, ?_⟩
    intro hs' hs
    rw [hpos, hstart] at hs
    exact .function ho hheader hs
  unfold function
  cases hbody : functionBody g c header p.pos p.interfaceGlobals with
  | ok r => exact .inl ⟨_, rfl, behind rfl rfl rfl (.function hbody) rfl (List.append_nil _).symm⟩
  | error stop =>
    cases stop with
    | fault f => exact .inl ⟨_, rfl, behind rfl rfl rfl (.fault hbody) (List.append_nil _).symm rfl⟩
    | tooDeep =>
      exact .inl ⟨_, rfl, behind rfl rfl rfl (.tooDeep hbody) (List.append_nil _).symm rfl⟩
    | noBracket k => exact .inr ⟨_, rfl, header, p.pos, p.interfaceGlobals, hbody, .inr ⟨k, rfl⟩⟩
    | endless => exact .inr ⟨_, rfl, header, p.pos, p.interfaceGlobals, hbody, .inl rfl⟩

theorem step_brace (hc : c.Matched) (hp : p.AtFileScope c)
    (ho : (c.tokenAt p.pos).isPunct "\x7b" = true) :
    (∃ p' hs, p.step g c = .ok p' ∧ Steps g c p p' hs) ∨ ∃ stop, p.step g c = .error stop ∧
    Escapes g c stop := by
  simp only [step, ho, if_true]
  cases hheader : c.functionHeader p.start p.pos with
  | some header =>
    rcases step_function hc hp ho hheader with ⟨p', hp', hsteps⟩ | hstop
    · exact .inl ⟨p', _, hp', hsteps⟩
    · exact .inr hstop
  | none =>
    obtain ⟨l, hl, hlen⟩ := hp
    have hsize := Context.lt_size_of_not_eof hc.ends (not_isEof_of_isPunct ho)
    refine .inl ?_
    by_cases hscope : opensScope (c.slice p.start p.pos) = true
    · simp only [hscope, if_true]
      refine ⟨_, [], rfl, Nat.lt_succ_self _, hsize, ⟨p.pos :: l, hl.enter hc ho, ?_⟩,
        .none rfl rfl, fun hs => ?_⟩
      · simp [hlen]
      · exact .scope ho hheader hscope
    · simp only [hscope, Bool.false_eq_true, if_false]
      obtain ⟨hl', hlt, hbound⟩ :=
        hl.leap hc (by rw [opens_eq]; exact isPunctOf_of_isPunct ho (by decide))
      refine ⟨_, [], rfl, Nat.lt_succ_of_lt hlt, hbound, ⟨l, hl', hlen⟩, .none rfl rfl,
        fun hs => ?_⟩
      exact .braces ho hheader (Bool.not_eq_true _ ▸ hscope)

theorem step_close (hc : c.Matched) (hp : p.AtFileScope c)
    (h : (c.tokenAt p.pos).isPunct "\x7d" = true) :
    ∃ p' hs, p.step g c = .ok p' ∧ Steps g c p p' hs := by
  obtain ⟨l, hl, hlen⟩ := hp
  have hsize := Context.lt_size_of_not_eof hc.ends (not_isEof_of_isPunct h)
  obtain ⟨-, b, hb, hl'⟩ := hl.leave hc (Context.isCloser_of_isPunct h)
  have hscopes : p.scopes ≠ 0 := by
    rw [← hlen]
    exact Nat.ne_of_gt (List.length_pos_of_mem hb)
  have hother : (c.tokenAt p.pos).isPunct "\x7b" = false := by rw [isPunct_eq h]; decide
  simp only [step, h, hother, beq_iff_eq, hscopes, Bool.false_eq_true, if_false, if_true]
  refine ⟨_, [], rfl, Nat.lt_succ_self _, hsize, ⟨l.erase b, hl', ?_⟩, .none rfl rfl, fun hs => ?_⟩
  · simp [List.length_erase_of_mem hb, hlen]
  · exact .stop (isPunctOf_of_isPunct h (by decide))

theorem step_plain (hc : c.Matched) (hp : p.AtFileScope c) (heof : (c.tokenAt p.pos).isEof = false)
    (h₁ : (c.tokenAt p.pos).isPunct "\x7b" = false)
    (h₂ : (c.tokenAt p.pos).isPunct "\x7d" = false) :
    ∃ p' hs, p.step g c = .ok p' ∧ Steps g c p p' hs := by
  obtain ⟨l, hl, hlen⟩ := hp
  have hsize := Context.lt_size_of_not_eof hc.ends heof
  -- all brackets that are open are braces, so no other bracket closes here
  have hclose : Brackets.isCloser (c.tokenAt p.pos) = false := by
    by_contra h
    rw [Bool.not_eq_false] at h
    rw [(hl.leave hc h).1] at h₂
    cases h₂
  simp only [step, h₁, h₂, Bool.false_eq_true, if_false]
  split
  · rename_i hsemi
    have hopens : Context.opens (c.tokenAt p.pos) = false := by
      simp only [opens_eq, isPunctOf_cons, isPunctOf_nil, isPunct_eq hsemi]
      decide
    exact ⟨_, [], rfl, Nat.lt_succ_self _, hsize, ⟨l, hl.take hc hopens hclose, hlen⟩,
      .none rfl rfl, fun hs =>
      .stop (isPunctOf_of_isPunct hsemi (by decide))⟩
  · rename_i hsemi
    split
    · rename_i hgroup
      have hopens : Context.opens (c.tokenAt p.pos) = true := by
        simp only [isPunctOf_cons, isPunctOf_nil, Bool.or_false] at hgroup
        simp only [opens_eq, isPunctOf_cons, isPunctOf_nil, h₁, Bool.or_false, hgroup]
      obtain ⟨hl', hlt, hbound⟩ := hl.leap hc hopens
      exact ⟨_, [], rfl, Nat.lt_succ_of_lt hlt, hbound, ⟨l, hl', hlen⟩, .none rfl rfl,
        fun hs => .group hgroup⟩
    · rename_i hgroup
      rw [Bool.not_eq_true] at hgroup
      have hopens : Context.opens (c.tokenAt p.pos) = false := by
        simp only [isPunctOf_cons, isPunctOf_nil, Bool.or_false] at hgroup
        simp only [opens_eq, isPunctOf_cons, isPunctOf_nil, h₁, Bool.or_false, hgroup]
      have hnext := hl.take hc hopens hclose
      split
      · rename_i haccess
        rw [Bool.and_eq_true] at haccess
        have hsize' := Context.lt_size_of_not_eof hc.ends (not_isEof_of_isPunct haccess.2)
        have hcolon : c.Opened l (p.pos + 2) := by
          refine hnext.take hc ?_ ?_
          · simp only [opens_eq, isPunctOf_cons, isPunctOf_nil, isPunct_eq haccess.2]
            decide
          · simp only [Brackets.isCloser, isPunctOf_cons, isPunctOf_nil, isPunct_eq haccess.2]
            decide
        exact ⟨_, [], rfl, by simp [restart], hsize', ⟨l, hcolon, hlen⟩, .none rfl rfl, fun hs =>
          .access haccess.1 haccess.2⟩
      · rename_i haccess
        refine ⟨_, [], rfl, Nat.lt_succ_self _, hsize, ⟨l, hnext, hlen⟩, .none rfl rfl,
          fun hs => ?_⟩
        refine .token heof ?_ (by simpa using haccess)
        rw [isPunctOf_cons, isPunctOf_cons, isPunctOf_cons, h₁, h₂, hgroup]
        simpa using hsemi

/-- A step goes forward, unless the body of a function cannot be read. -/
theorem step_cases (hc : c.Matched) (hp : p.AtFileScope c)
    (heof : (c.tokenAt p.pos).isEof = false) :
    (∃ p' hs, p.step g c = .ok p' ∧ Steps g c p p' hs) ∨ ∃ stop, p.step g c = .error stop ∧
    Escapes g c stop := by
  by_cases ho : (c.tokenAt p.pos).isPunct "\x7b" = true
  · exact step_brace hc hp ho
  · rw [Bool.not_eq_true] at ho
    by_cases hclose : (c.tokenAt p.pos).isPunct "\x7d" = true
    · exact .inl (step_close hc hp hclose)
    · rw [Bool.not_eq_true] at hclose
      exact .inl (step_plain hc hp heof ho hclose)

/-- Reading comes to the end of the tokens with an entry for each header, unless the body of a
function cannot be read. -/
theorem run_cases (hc : c.Matched) (fuel : Nat) (p : Progress) (hp : p.AtFileScope c)
    (hf : c.tokens.size ≤ p.pos + fuel) :
    (∃ p' hs, run g c fuel p = .ok p' ∧ c.Outline p.start p.pos hs ∧ Gains g c p p' hs) ∨
      ∃ stop, run g c fuel p = .error stop ∧ Escapes g c stop := by
  induction fuel generalizing p with
  | zero =>
    have heof : (c.tokenAt p.pos).isEof = true := by
      rw [Context.tokenAt_of_le c (i := p.pos) hf]
      exact hc.ends
    exact .inl ⟨p, [], rfl, .done heof, .none rfl rfl⟩
  | succ fuel ih =>
    simp only [run]
    by_cases heof : (c.tokenAt p.pos).isEof = true
    · simp only [heof, if_true]
      exact .inl ⟨p, [], rfl, .done heof, .none rfl rfl⟩
    · simp only [heof, Bool.false_eq_true, if_false]
      rw [Bool.not_eq_true] at heof
      rcases step_cases (g := g) hc hp heof with ⟨p₁, hs, hstep, h⟩ | ⟨stop, hstep, h⟩
      · simp only [hstep]
        have hforward := h.forward
        rcases ih p₁ h.scopes (by omega) with ⟨p', hs', hrun, houtline, hgains⟩ | hstop
        · exact .inl ⟨p', hs ++ hs', hrun, h.outline hs' houtline, h.gains.trans hgains⟩
        · exact .inr hstop
      · simp only [hstep]
        exact .inr ⟨stop, rfl, h⟩

end Progress

end Parse

end JniContracts
