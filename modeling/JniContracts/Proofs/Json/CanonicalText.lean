import JniContracts.Proofs.Json.ReadBack

/-!
The canonical text of a value. It has no line ends but line feeds and stops at one, reading it gives
the value with its keys in order, and two values have the same text only if they differ in nothing
but the order of keys.
-/

namespace JniContracts.Json

open Canonical Reader

namespace Canonical

def Written (c : Char) : Prop := c = '\n' ∨ 32 ≤ c.toNat

theorem written_escapeChar (c : Char) : ∀ d ∈ escapeChar c, 32 ≤ d.toNat := by
  have h := escaped_escapeChar c
  generalize escapeChar c = written at h
  cases h with
  | quote | backslash | lineFeed | carriageReturn | tab | backspace | formFeed => simp
  | control h =>
    have hdigits : ∀ n : Nat, n < 16 → 32 ≤ n.digitChar.toNat := by decide
    simp only [List.forall_mem_cons, List.not_mem_nil, false_implies, implies_true, and_true]
    exact ⟨by decide, by decide, by decide, by decide, hdigits _ (by omega), hdigits _ (by omega)⟩
  | plain hquote hbackslash h => simpa using h

theorem written_quoted (s : String) : ∀ c ∈ quoted s, 32 ≤ c.toNat := by
  intro c hc
  simp only [quoted, List.cons_append, List.mem_cons, List.mem_append, List.mem_flatMap,
    List.not_mem_nil, or_false] at hc
  obtain rfl | ⟨d, -, hd⟩ | rfl := hc
  · decide
  · exact written_escapeChar d c hd
  · decide

theorem written_intText (n : Int) : ∀ c ∈ intText n, 32 ≤ c.toNat := by
  have hdigits : ∀ n, ∀ c ∈ Nat.toDigits 10 n, 32 ≤ c.toNat := fun n c hc =>
    (BeginsNumber.not_blank (.inl (Nat.isDigit_of_mem_toDigits (by decide) (by decide) hc))).le
  cases n with
  | ofNat n => exact hdigits n
  | negSucc n => exact List.forall_mem_cons.mpr ⟨by decide, hdigits (n + 1)⟩

theorem written_newline (level : Nat) : ∀ c ∈ newline level, Written c := by
  intro c hc
  simp only [newline, List.mem_cons, List.mem_replicate] at hc
  obtain rfl | ⟨-, rfl⟩ := hc
  · exact .inl rfl
  · exact .inr (by decide)

theorem written_partLines {closing : Char} (hclosing : Written closing) {p : List Char}
    {ps : List (List Char)} (hp : ∀ c ∈ p, Written c) (hps : ∀ q ∈ ps, ∀ c ∈ q, Written c)
    (level : Nat) : ∀ c ∈ partLines level closing p ps, Written c := by
  induction ps generalizing p with
  | nil =>
    simp only [partLines, List.forall_mem_append, List.forall_mem_singleton]
    exact ⟨hp, written_newline level, hclosing⟩
  | cons q ps ih =>
    simp only [List.forall_mem_cons] at hps
    simp only [partLines, List.forall_mem_append, List.forall_mem_cons]
    exact ⟨hp, .inr (by decide), written_newline (level + 1), ih hps.1 hps.2⟩

theorem written_enclose {opening closing : Char} (hopening : Written opening)
    (hclosing : Written closing) {parts : List (List Char)}
    (hparts : ∀ p ∈ parts, ∀ c ∈ p, Written c) (level : Nat) :
    ∀ c ∈ enclose level opening closing parts, Written c := by
  cases parts with
  | nil => simpa [enclose] using ⟨hopening, hclosing⟩
  | cons p ps =>
    simp only [List.forall_mem_cons] at hparts
    simp only [enclose_cons, List.forall_mem_cons, List.forall_mem_append]
    exact ⟨hopening, written_newline (level + 1),
      written_partLines hclosing hparts.1 hparts.2 level⟩

theorem written_write {v : Json} (h : v.Plain) (level : Nat) : ∀ c ∈ write level v, Written c := by
  induction h generalizing level with
  | null =>
    have hword : ∀ c ∈ "null".toList, 32 ≤ c.toNat := by simp
    exact fun c hc => .inr (hword c hc)
  | bool b =>
    have hwords : (∀ c ∈ "true".toList, 32 ≤ c.toNat) ∧ ∀ c ∈ "false".toList, 32 ≤ c.toNat := by
      simp
    cases b with
    | true => exact fun c hc => .inr (hwords.1 c hc)
    | false => exact fun c hc => .inr (hwords.2 c hc)
  | int n => exact fun c hc => .inr (written_intText n c hc)
  | str s => exact fun c hc => .inr (written_quoted s c hc)
  | arr each ih =>
    rw [write_arr]
    refine written_enclose (.inr (by decide)) (.inr (by decide)) (fun p hp => ?_) level
    obtain ⟨v, hv, rfl⟩ := List.mem_map.mp hp
    exact ih v hv (level + 1)
  | obj distinct each ih =>
    rw [write_obj_lines]
    refine written_enclose (.inr (by decide)) (.inr (by decide)) (fun p hp => ?_) level
    obtain ⟨m, hm, rfl⟩ := List.mem_map.mp hp
    simp only [memberLine, List.forall_mem_append, List.forall_mem_cons]
    exact ⟨fun c hc => .inr (written_quoted m.1 c hc), .inr (by decide), .inr (by decide),
      ih m ((sortKeys_perm _).mem_iff.mp hm) (level + 1)⟩

theorem notMem_return {v : Json} (h : v.Plain) (level : Nat) : '\r' ∉ write level v := by
  intro hmem
  have := written_write h level _ hmem
  simp [Written] at this

theorem partLines_last (level : Nat) (closing : Char) (p : List Char) (ps : List (List Char)) :
    (partLines level closing p ps).getLast? = some closing := by
  induction ps generalizing p with
  | nil => simp [partLines]
  | cons q ps ih => simp [partLines, List.getLast?_cons, ih]

theorem enclose_last (level : Nat) (opening closing : Char) (parts : List (List Char)) :
    (enclose level opening closing parts).getLast? = some closing := by
  cases parts with
  | nil => rfl
  | cons p ps => simp [enclose_cons, List.getLast?_cons, partLines_last]

/-- A written value does not stop at a line end. -/
theorem write_last {v : Json} (h : v.Plain) (level : Nat) :
    (write level v).getLast? ≠ some '\n' := by
  cases h with
  | null =>
    have hword : "null".toList.getLast? ≠ some '\n' := by simp
    exact hword
  | bool b =>
    have hwords : "true".toList.getLast? ≠ some '\n' ∧ "false".toList.getLast? ≠ some '\n' := by
      simp
    cases b with
    | true => exact hwords.1
    | false => exact hwords.2
  | int n =>
    intro hlast
    have := written_intText n _ (List.mem_of_getLast? hlast)
    simp at this
  | str s =>
    have hquoted : (quoted s).getLast? ≠ some '\n' := by simp [quoted, List.getLast?_cons]
    exact hquoted
  | arr each => simp [write_arr, enclose_last]
  | obj distinct each => simp [write_obj, enclose_last]

end Canonical

theorem unifyNewlines_of_notMem {cs : List Char} (h : '\r' ∉ cs) : Text.unifyNewlines cs = cs := by
  fun_induction Text.unifyNewlines cs with
  | case1 => rfl
  | case2 cs ih => simp at h
  | case3 c cs hne ih =>
    simp only [List.mem_cons, not_or] at h
    rw [ih h.2, if_neg (by simpa using Ne.symm h.1)]

/-- Line ends are as they should be before they are mended. -/
theorem toList_canonical {v : Json} (h : v.Plain) : v.canonical.toList = write 0 v ++ ['\n'] := by
  rw [canonical, unifyNewlines_of_notMem (notMem_return h 0), endLine,
    if_neg (by simpa using write_last h 0), String.toList_ofList]

theorem parse?_canonical {v : Json} (h : v.Plain) : parse? v.canonical = some v.sorted := by
  have hread := readsBack h 0 (write 0 v ++ ['\n']).length ['\n'] (.lineEnd []) (by simp; omega)
  have hblank : skipBlanks ['\n'] = [] := rfl
  simp only [parse?, toList_canonical h, hread, hblank, List.isEmpty_nil, if_true]

theorem canonical_congr {v w : Json} (h : Reordered v w) (hv : v.Plain) :
    v.canonical = w.canonical := by
  rw [canonical, canonical, write_congr h hv]

/-- Only values that differ in nothing but the order of keys have the same text. -/
theorem reordered_of_canonical_eq {v w : Json} (hv : v.Plain) (hw : w.Plain)
    (h : v.canonical = w.canonical) : Reordered v w := by
  have hsorted : v.sorted = w.sorted := by
    have := parse?_canonical hv
    rw [h, parse?_canonical hw] at this
    exact (Option.some.inj this).symm
  exact hv.reordered_sorted.trans (hsorted ▸ hw.reordered_sorted.symm)

end JniContracts.Json
