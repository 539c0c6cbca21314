import JniContracts.Json.Reader
import JniContracts.Proofs.Json.KeyOrder
import Mathlib.Data.List.DropRight
import Mathlib.Data.List.TakeDrop

/-!
Reading what was written. A value that is written and read again comes back with its keys in order.
-/

namespace JniContracts.Json

open Canonical

namespace Reader

variable {rest cs cs' : List Char} {c : Char} {v : Json} {fuel : Nat}

inductive Follows : List Char → Prop
  | comma (cs : List Char) : Follows (',' :: cs)
  | lineEnd (cs : List Char) : Follows ('\n' :: cs)

theorem not_isHigh_toNat (c : Char) : isHigh c.toNat = false := by
  have h := c.valid
  simp only [UInt32.isValidChar, Nat.isValidChar] at h
  simp only [isHigh, Char.toNat, Bool.and_eq_false_iff, decide_eq_false_iff_not]
  omega

theorem not_isLow_toNat (c : Char) : isLow c.toNat = false := by
  have h := c.valid
  simp only [UInt32.isValidChar, Nat.isValidChar] at h
  simp only [isLow, Char.toNat, Bool.and_eq_false_iff, decide_eq_false_iff_not]
  omega

theorem joinHalves_toNat (cs : List Char) : joinHalves (cs.map Char.toNat) = cs := by
  have hcons (c : Char) (ns : List Nat) : joinHalves (c.toNat :: ns) = c :: joinHalves ns := by
    cases ns <;> simp [joinHalves, not_isHigh_toNat, not_isLow_toNat, Char.ofNat_toNat]
  induction cs with
  | nil => rfl
  | cons c cs ih => rw [List.map_cons, hcons, ih]

theorem hexDigits_control : ∀ n < 32,
    Text.Quoted.hexDigits 4 n = ['0', '0', Nat.digitChar (n / 16), Nat.digitChar (n % 16)] := by
  decide

theorem hexQuad_control :
    ∀ n < 32, hexQuad '0' '0' (Nat.digitChar (n / 16)) (Nat.digitChar (n % 16)) = some n := by
  decide

inductive Escaped : Char → List Char → Prop where
  | quote : Escaped '"' ['\\', '"']
  | backslash : Escaped '\\' ['\\', '\\']
  | lineFeed : Escaped '\n' ['\\', 'n']
  | carriageReturn : Escaped '\r' ['\\', 'r']
  | tab : Escaped '\t' ['\\', 't']
  | backspace : Escaped '\x08' ['\\', 'b']
  | formFeed : Escaped '\x0c' ['\\', 'f']
  | control {c : Char} (h : c.toNat < 32) :
      Escaped c ['\\', 'u', '0', '0', Nat.digitChar (c.toNat / 16), Nat.digitChar (c.toNat % 16)]
  | plain {c : Char} (hquote : c ≠ '"') (hbackslash : c ≠ '\\') (h : 32 ≤ c.toNat) : Escaped c [c]

theorem escaped_escapeChar (c : Char) : Escaped c (escapeChar c) := by
  unfold escapeChar
  split_ifs with hmark hfeed hreturn htab hback hform hcontrol
  · obtain rfl | rfl : c = '"' ∨ c = '\\' := by simpa using hmark
    exacts [.quote, .backslash]
  · exact beq_iff_eq.mp hfeed ▸ .lineFeed
  · exact beq_iff_eq.mp hreturn ▸ .carriageReturn
  · exact beq_iff_eq.mp htab ▸ .tab
  · exact beq_iff_eq.mp hback ▸ .backspace
  · exact beq_iff_eq.mp hform ▸ .formFeed
  · rw [hexDigits_control _ hcontrol]
    exact .control hcontrol
  · simp only [Bool.or_eq_true, beq_iff_eq, not_or] at hmark
    exact .plain hmark.1 hmark.2 (Nat.le_of_not_lt hcontrol)

theorem stringBody_escapeChar (seen : List Nat) (c : Char) (rest : List Char) :
    stringBody seen (escapeChar c ++ rest) = stringBody (c.toNat :: seen) rest := by
  have h := escaped_escapeChar c
  generalize escapeChar c = written at h
  cases h with
  | quote | backslash | lineFeed | carriageReturn | tab | backspace | formFeed => rfl
  | control h =>
    simp only [List.cons_append, List.nil_append]
    rw [stringBody, hexQuad_control _ h]
  | plain hquote hbackslash h =>
    simp only [List.cons_append, List.nil_append]
    rw [stringBody, if_neg (by simp [hbackslash, Nat.not_lt.mpr h])]
    all_goals simp [hquote, hbackslash]

theorem stringBody_escaped (seen : List Nat) (cs rest : List Char) :
    stringBody seen (cs.flatMap escapeChar ++ '"' :: rest) =
    some ((cs.map Char.toNat).reverse ++ seen, rest) := by
  induction cs generalizing seen with
  | nil => rfl
  | cons c cs ih => rw [List.flatMap_cons, List.append_assoc, stringBody_escapeChar, ih]; simp

theorem string_escaped (s : String) (rest : List Char) :
    string (s.toList.flatMap escapeChar ++ '"' :: rest) = some (s, rest) := by
  rw [string, stringBody_escaped]
  simp [joinHalves_toNat]

theorem quoted_append (s : String) (cs : List Char) :
    quoted s ++ cs = '"' :: (s.toList.flatMap escapeChar ++ '"' :: cs) := by
  simp [quoted]

theorem natOf_toDigits (n : Nat) : natOf (Nat.toDigits 10 n) = n := by
  have h : Nat.ofDigitChars 10 (Nat.toDigits 10 n) 0 = n :=
    Nat.ofDigitChars_toDigits (by decide) (by decide)
  simpa only [natOf, Nat.ofDigitChars, Nat.mul_comm 10, Char.reduceToNat] using h

theorem span_toDigits (h : Follows rest) (n : Nat) :
    (Nat.toDigits 10 n ++ rest).span Char.isDigit = (Nat.toDigits 10 n, rest) := by
  have hdigits : ∀ c ∈ Nat.toDigits 10 n, c.isDigit = true := fun c hc =>
    Nat.isDigit_of_mem_toDigits (by decide) (by decide) hc
  rw [List.span_eq_takeWhile_dropWhile, List.takeWhile_append_of_pos hdigits,
    List.dropWhile_append_of_pos hdigits]
  cases h <;> simp [Char.isDigit]

theorem digitChar_eq_zero : ∀ n : Nat, n < 10 → n.digitChar = '0' → n = 0 := by
  decide

theorem head_toDigits {n : Nat} {ds : List Char} (h : Nat.toDigits 10 n = '0' :: ds) :
    n = 0 ∧ ds = [] := by
  induction n using Nat.strongRecOn generalizing ds with | ind n ih =>
  by_cases hlt : n < 10
  · rw [Nat.toDigits_of_lt_base hlt] at h
    obtain ⟨hzero, rfl⟩ : n.digitChar = '0' ∧ ds = [] := by simpa [eq_comm] using h
    exact ⟨digitChar_eq_zero n hlt hzero, rfl⟩
  · rw [Nat.toDigits_of_base_le (by decide) (by omega)] at h
    obtain ⟨hnil, -⟩ | ⟨ds', hds, -⟩ := List.append_eq_cons_iff.mp h
    · exact absurd hnil Nat.toDigits_ne_nil
    · have := (ih (n / 10) (by omega) hds).1
      omega

theorem whole_toDigits (h : Follows rest) (n : Nat) :
    whole (Nat.toDigits 10 n ++ rest) = some (Nat.toDigits 10 n, rest) := by
  have hspan := span_toDigits h n
  cases hn : Nat.toDigits 10 n with
  | nil => exact absurd hn Nat.toDigits_ne_nil
  | cons d ds =>
    rw [hn] at hspan
    by_cases hd : d = '0'
    · subst hd
      obtain ⟨-, rfl⟩ := head_toDigits hn
      rfl
    · rw [List.cons_append] at hspan ⊢
      rw [whole, hspan]
      simpa using hd

theorem fraction_of_follows (h : Follows rest) : fraction rest = some ([], rest) := by
  cases h <;> rfl

theorem exponent_of_follows (h : Follows rest) : exponent rest = some (none, rest) := by
  cases h <;> rfl

theorem unsigned_toDigits (h : Follows rest) (negative : Bool) (n : Nat) :
    unsigned negative (Nat.toDigits 10 n ++ rest) =
    some (.int (if negative then -(n : Int) else n), rest) := by
  simp [unsigned, whole_toDigits h, fraction_of_follows h, exponent_of_follows h, natOf_toDigits]

theorem number_of_isDigit {d : Char} (h : d.isDigit = true) (cs : List Char) :
    number (d :: cs) = unsigned false (d :: cs) ∧
    number ('-' :: d :: cs) = unsigned true (d :: cs) := by
  constructor
  all_goals
    rw [number]
    all_goals
      intros
      simp_all [Char.isDigit]

def BeginsNumber (c : Char) : Prop := c.isDigit = true ∨ c = '-'

theorem toDigits_cons (n : Nat) : ∃ d ds, Nat.toDigits 10 n = d :: ds ∧ d.isDigit = true := by
  cases hn : Nat.toDigits 10 n with
  | nil => exact absurd hn Nat.toDigits_ne_nil
  | cons d ds =>
    exact ⟨d, ds, rfl,
      Nat.isDigit_of_mem_toDigits (by decide) (by decide) (hn ▸ List.mem_cons_self)⟩

theorem intText_cons (n : Int) : ∃ c cs, intText n = c :: cs ∧ BeginsNumber c := by
  cases n with
  | ofNat n =>
    obtain ⟨d, ds, hds, hd⟩ := toDigits_cons n
    exact ⟨d, ds, hds, .inl hd⟩
  | negSucc n => exact ⟨'-', _, rfl, .inr rfl⟩

theorem number_intText (h : Follows rest) (n : Int) :
    number (intText n ++ rest) = some (.int n, rest) := by
  cases n with
  | ofNat n =>
    obtain ⟨d, ds, hds, hd⟩ := toDigits_cons n
    rw [intText, hds, List.cons_append, (number_of_isDigit hd _).1, ← List.cons_append, ← hds,
      unsigned_toDigits h]
    rfl
  | negSucc n =>
    obtain ⟨d, ds, hds, hd⟩ := toDigits_cons (n + 1)
    rw [intText, hds, List.cons_append, List.cons_append, (number_of_isDigit hd _).2,
      ← List.cons_append, ← hds, unsigned_toDigits h]
    rfl

theorem BeginsNumber.not_blank (h : BeginsNumber c) : 32 < c.toNat := by
  obtain hdigit | rfl := h
  · have : 48 ≤ c.toNat := (Char.isDigit_iff_toNat.mp hdigit).1
    omega
  · decide

theorem skipBlanks_cons (h : 32 < c.toNat) (cs : List Char) : skipBlanks (c :: cs) = c :: cs := by
  refine List.dropWhile_cons_of_neg ?_
  simp only [Bool.or_eq_true, beq_iff_eq]
  rintro (((rfl | rfl) | rfl) | rfl) <;> simp at h

theorem skipBlanks_skipBlanks (cs : List Char) : skipBlanks (skipBlanks cs) = skipBlanks cs :=
  List.dropWhile_idempotent _ cs

theorem skipBlanks_newline (level : Nat) (cs : List Char) :
    skipBlanks (newline level ++ cs) = skipBlanks cs := by
  refine List.dropWhile_append_of_pos fun c hc => ?_
  simp only [newline, List.mem_cons, List.mem_replicate] at hc
  obtain rfl | ⟨-, rfl⟩ := hc <;> rfl

theorem length_newline (level : Nat) : (newline level).length = 2 * level + 1 := by
  simp [newline]

attribute [local simp] value

theorem value_congr (h : skipBlanks cs = skipBlanks cs') (fuel : Nat) :
    value fuel cs = value fuel cs' := by
  cases fuel with
  | zero => rfl
  | succ fuel => simp [h]

theorem items_congr (h : skipBlanks cs = skipBlanks cs') (fuel : Nat) (seen : List Json) :
    items fuel seen cs = items fuel seen cs' := by
  cases fuel with
  | zero => rfl
  | succ fuel => rw [items, items, value_congr h]

theorem members_congr (h : skipBlanks cs = skipBlanks cs') (fuel : Nat)
    (seen : List (String × Json)) : members fuel seen cs = members fuel seen cs' := by
  cases fuel with
  | zero => rfl
  | succ fuel => rw [members, members, h]

theorem value_number (h : BeginsNumber c) (fuel : Nat) (cs : List Char) :
    value (fuel + 1) (c :: cs) = number (c :: cs) := by
  rw [value, skipBlanks_cons h.not_blank]
  split
  all_goals first
    | rfl
    | simp_all [BeginsNumber, Char.isDigit]

theorem value_str (s : String) (fuel : Nat) (rest : List Char) :
    value (fuel + 1) (quoted s ++ rest) = some (.str s, rest) := by
  rw [value, quoted_append, skipBlanks_cons (by decide)]
  simp only [string_escaped, Option.map_some]

theorem value_arr {rest : List Char} (h : skipBlanks rest = c :: cs) (hc : c ≠ ']') (fuel : Nat) :
    value (fuel + 1) ('[' :: rest) = items fuel [] rest := by
  rw [← items_congr (skipBlanks_skipBlanks rest), value, skipBlanks_cons (by decide)]
  simp only [h]
  split
  · simp_all
  · rfl

theorem value_obj {rest : List Char} (h : skipBlanks rest = c :: cs) (hc : c ≠ '}') (fuel : Nat) :
    value (fuel + 1) ('{' :: rest) = members fuel [] rest := by
  rw [← members_congr (skipBlanks_skipBlanks rest), value, skipBlanks_cons (by decide)]
  simp only [h]
  split
  · simp_all
  · rfl

theorem items_comma {rest : List Char} (h : value fuel cs = some (v, ',' :: rest))
    (seen : List Json) : items (fuel + 1) seen cs = items fuel (v :: seen) rest := by
  simp only [items, h, skipBlanks_cons (c := ',') (by decide)]

theorem items_close {rest : List Char} {level : Nat}
    (h : value fuel cs = some (v, newline level ++ ']' :: rest)) (seen : List Json) :
    items (fuel + 1) seen cs = some (.arr (v :: seen).reverse, rest) := by
  simp only [items, h, skipBlanks_newline, skipBlanks_cons (c := ']') (by decide)]

theorem value_space (fuel : Nat) (cs : List Char) : value fuel (' ' :: cs) = value fuel cs := by
  apply value_congr
  rfl

theorem members_comma {rest : List Char} (h : value fuel cs = some (v, ',' :: rest)) (key : String)
    (seen : List (String × Json)) :
    members (fuel + 1) seen (quoted key ++ ':' :: ' ' :: cs) =
    members fuel (assign key v seen) rest := by
  simp only [members, quoted_append, skipBlanks_cons (c := '"') (by decide), string_escaped,
    skipBlanks_cons (c := ':') (by decide), value_space, h, skipBlanks_cons (c := ',') (by decide)]

theorem members_close {rest : List Char} {level : Nat}
    (h : value fuel cs = some (v, newline level ++ '}' :: rest)) (key : String)
    (seen : List (String × Json)) :
    members (fuel + 1) seen (quoted key ++ ':' :: ' ' :: cs) =
    some (.obj (assign key v seen), rest) := by
  simp only [members, quoted_append, skipBlanks_cons (c := '"') (by decide), string_escaped,
    skipBlanks_cons (c := ':') (by decide), value_space, h, skipBlanks_newline,
    skipBlanks_cons (c := '}') (by decide)]

def partLines (level : Nat) (closing : Char) (p : List Char) : List (List Char) → List Char
  | [] => p ++ (newline level ++ [closing])
  | q :: ps => p ++ ',' :: (newline (level + 1) ++ partLines level closing q ps)

theorem enclose_cons (level : Nat) (opening closing : Char) (p : List Char)
    (ps : List (List Char)) :
    enclose level opening closing (p :: ps) =
    opening :: (newline (level + 1) ++ partLines level closing p ps) := by
  simp only [enclose, List.cons_append, List.append_assoc, List.cons.injEq, true_and,
    List.append_cancel_left_eq]
  induction ps generalizing p with
  | nil => simp [partLines]
  | cons q ps ih => simp [partLines, ← ih q]

theorem enclose_eq_cons (level : Nat) (opening closing : Char) (parts : List (List Char)) :
    ∃ cs, enclose level opening closing parts = opening :: cs := by
  cases parts <;> exact ⟨_, rfl⟩

theorem skipBlanks_partLines {p : List Char} (hp : p = c :: cs) (hc : 32 < c.toNat) (level : Nat)
    (closing : Char) (ps : List (List Char)) (rest : List Char) :
    ∃ cs', skipBlanks (newline (level + 1) ++ (partLines level closing p ps ++ rest)) =
    c :: cs' := by
  rw [skipBlanks_newline, hp]
  cases ps <;> exact ⟨_, skipBlanks_cons hc _⟩

/-- A value is read as it was written, its keys in order. -/
def ReadsBack (v : Json) : Prop :=
  ∀ level fuel rest, Follows rest → (write level v).length ≤ fuel + 1 →
    value (fuel + 1) (write level v ++ rest) = some (v.sorted, rest)

theorem items_partLines {v : Json} {vs : List Json} (h : ReadsBack v) (hs : ∀ w ∈ vs, ReadsBack w)
    (level : Nat) {fuel : Nat} (seen : List Json) (rest : List Char)
    (hfuel : (partLines level ']' (write (level + 1) v) (vs.map (write (level + 1)))).length ≤
      fuel) :
    items fuel seen (partLines level ']' (write (level + 1) v) (vs.map (write (level + 1))) ++
      rest) = some (.arr (seen.reverse ++ (v :: vs).map sorted), rest) := by
  induction vs generalizing v fuel seen with
  | nil =>
    simp only [List.map_nil, partLines, List.length_append, length_newline,
      List.length_cons] at hfuel ⊢
    obtain ⟨fuel, rfl⟩ : ∃ m, fuel = m + 2 := ⟨fuel - 2, by omega⟩
    have hv := h (level + 1) fuel (newline level ++ ']' :: rest) (.lineEnd _) (by omega)
    have := items_close hv seen
    simp only [newline, List.append_assoc, List.cons_append, List.nil_append] at this ⊢
    rw [this]
    simp
  | cons w ws ih =>
    simp only [List.map_cons, partLines, List.length_append, length_newline,
      List.length_cons] at hfuel ⊢
    obtain ⟨fuel, rfl⟩ : ∃ m, fuel = m + 2 := ⟨fuel - 2, by omega⟩
    have hv := h (level + 1) fuel _ (.comma (newline (level + 1)
      ++ partLines level ']' (write (level + 1) w) (ws.map (write (level + 1))) ++ rest)) (by omega)
    rw [List.append_assoc, List.cons_append, items_comma hv, List.append_assoc,
      items_congr (skipBlanks_newline _ _), ih (hs w List.mem_cons_self)
        (fun u hu => hs u (List.mem_cons_of_mem w hu)) (v.sorted :: seen) (by omega)]
    simp

theorem assign_of_notMem {key : String} {seen : List (String × Json)} (h : key ∉ seen.map Prod.fst)
    (v : Json) : assign key v seen = seen ++ [(key, v)] := by
  induction seen with
  | nil => rfl
  | cons m ms ih =>
    simp only [List.map_cons, List.mem_cons, not_or] at h
    rw [assign, if_neg (by simpa using Ne.symm h.1), ih h.2, List.cons_append]

def memberLine (level : Nat) (m : String × Json) : List Char :=
  quoted m.1 ++ ':' :: ' ' :: write level m.2

theorem write_obj_lines (level : Nat) (members : List (String × Json)) :
    write level (.obj members) =
    enclose level '{' '}' ((sortKeys members).map (memberLine (level + 1))) := by
  rw [write_obj, sortKeys_map, List.map_map]
  congr 1
  refine List.map_congr_left fun m _ => ?_
  simp [memberLine]

theorem fresh_key {key : String} {before after : List String} (h : (before ++ key :: after).Nodup) :
    key ∉ before :=
  fun hmem => (List.nodup_append.mp h).2.2 key hmem key List.mem_cons_self rfl

theorem members_partLines {m : String × Json} {ms : List (String × Json)} (h : ReadsBack m.2)
    (hs : ∀ m ∈ ms, ReadsBack m.2) (level : Nat) {fuel : Nat} (seen : List (String × Json))
    (rest : List Char) (distinct : (seen.map Prod.fst ++ (m :: ms).map Prod.fst).Nodup) (hfuel :
      (partLines level '}' (memberLine (level + 1) m) (ms.map (memberLine (level + 1)))).length ≤
      fuel) :
    members fuel seen
      (partLines level '}' (memberLine (level + 1) m) (ms.map (memberLine (level + 1))) ++ rest) =
    some (.obj (seen ++ (m :: ms).map fun m => (m.1, m.2.sorted)), rest) := by
  induction ms generalizing m fuel seen with
  | nil =>
    simp only [List.map_nil, partLines, memberLine, List.length_append, length_newline,
      List.length_cons] at hfuel ⊢
    obtain ⟨fuel, rfl⟩ : ∃ m, fuel = m + 2 := ⟨fuel - 2, by omega⟩
    have hv := h (level + 1) fuel (newline level ++ '}' :: rest) (.lineEnd _) (by omega)
    have := members_close hv m.1 seen
    simp only [newline, List.append_assoc, List.cons_append, List.nil_append] at this ⊢
    rw [this, assign_of_notMem (fresh_key distinct)]
    simp
  | cons w ws ih =>
    have hkeys : ((seen ++ [(m.1, m.2.sorted)]).map Prod.fst ++ (w :: ws).map Prod.fst).Nodup := by
      simpa using distinct
    simp only [List.map_cons, partLines, List.length_append, length_newline,
      List.length_cons] at hfuel ⊢
    have hline : (write (level + 1) m.2).length ≤ (memberLine (level + 1) m).length := by
      simp [memberLine]
      omega
    obtain ⟨fuel, rfl⟩ : ∃ m, fuel = m + 2 := ⟨fuel - 2, by omega⟩
    have hv := h (level + 1) fuel _ (.comma (newline (level + 1)
      ++ partLines level '}' (memberLine (level + 1) w) (ws.map (memberLine (level + 1))) ++ rest))
      (by omega)
    have hstep := members_comma hv m.1 seen
    rw [assign_of_notMem (fresh_key distinct), List.append_assoc,
      members_congr (skipBlanks_newline _ _), ih (hs w List.mem_cons_self)
      (fun u hu => hs u (List.mem_cons_of_mem w hu)) _ hkeys (by omega)] at hstep
    simpa [memberLine] using hstep

theorem write_cons (h : v.Plain) (level : Nat) :
    ∃ c cs, write level v = c :: cs ∧ 32 < c.toNat ∧ c ≠ ']' := by
  cases h with
  | null => exact ⟨'n', _, rfl, by decide, by decide⟩
  | bool b =>
    cases b with
    | true => exact ⟨'t', _, rfl, by decide, by decide⟩
    | false => exact ⟨'f', _, rfl, by decide, by decide⟩
  | int n =>
    obtain ⟨c, cs, hcs, hc⟩ := intText_cons n
    refine ⟨c, cs, hcs, hc.not_blank, ?_⟩
    rintro rfl
    simp [BeginsNumber, Char.isDigit] at hc
  | str s => exact ⟨'"', _, rfl, by decide, by decide⟩
  | @arr items each =>
    obtain ⟨cs, hcs⟩ := enclose_eq_cons level '[' ']' (items.map (write (level + 1)))
    exact ⟨'[', cs, (write_arr level items).trans hcs, by decide, by decide⟩
  | @obj members distinct each =>
    obtain ⟨cs, hcs⟩ :=
      enclose_eq_cons level '{' '}' ((sortKeys members).map (memberLine (level + 1)))
    exact ⟨'{', cs, (write_obj_lines level members).trans hcs, by decide, by decide⟩

theorem readsBack (h : v.Plain) : ReadsBack v := by
  induction h with
  | null => exact fun level fuel rest _ _ => rfl
  | bool b =>
    intro level fuel rest _ _
    cases b <;> rfl
  | int n =>
    intro level fuel rest hrest _
    obtain ⟨c, cs, hcs, hc⟩ := intText_cons n
    have hnumber := number_intText hrest n
    rw [hcs, List.cons_append] at hnumber
    rw [show write level (.int n) = intText n from rfl, hcs, List.cons_append,
      value_number hc, hnumber]
    rfl
  | str s => exact fun level fuel rest _ _ => value_str s fuel rest
  | @arr items each ih =>
    intro level fuel rest _ hfuel
    rw [sorted_arr]
    rw [write_arr] at hfuel ⊢
    cases items with
    | nil => rfl
    | cons v vs =>
      simp only [List.map_cons, enclose_cons, List.length_cons, List.length_append,
        length_newline] at hfuel ⊢
      obtain ⟨c, cs, hcs, hblank, hclose⟩ := write_cons (each v List.mem_cons_self) (level + 1)
      obtain ⟨cs', hskip⟩ :=
        skipBlanks_partLines hcs hblank level ']' (vs.map (write (level + 1))) rest
      rw [List.cons_append, List.append_assoc, value_arr hskip hclose,
        items_congr (skipBlanks_newline _ _)]
      exact items_partLines (ih v List.mem_cons_self)
        (fun w hw => ih w (List.mem_cons_of_mem v hw)) level [] rest (by omega)
  | @obj members distinct each ih =>
    intro level fuel rest _ hfuel
    have ih : ∀ m ∈ sortKeys members, ReadsBack m.2 :=
      fun m hm => ih m ((sortKeys_perm members).mem_iff.mp hm)
    have distinct := nodup_sortKeys distinct
    rw [sorted_obj, sortKeys_map]
    rw [write_obj_lines] at hfuel ⊢
    cases hsort : sortKeys members with
    | nil => rfl
    | cons m ms =>
      rw [hsort] at hfuel ih distinct
      simp only [List.map_cons, enclose_cons, List.length_cons, List.length_append,
        length_newline] at hfuel ⊢
      obtain ⟨cs', hskip⟩ := skipBlanks_partLines (quoted_append m.1 _) (by decide) level '}'
        (ms.map (memberLine (level + 1))) rest
      rw [List.cons_append, List.append_assoc]
      rw [memberLine, value_obj hskip (by decide), members_congr (skipBlanks_newline _ _)]
      exact members_partLines (ih m List.mem_cons_self)
        (fun w hw => ih w (List.mem_cons_of_mem m hw)) level [] rest distinct (by omega)

end Reader

end JniContracts.Json
