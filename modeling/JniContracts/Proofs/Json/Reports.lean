import JniContracts.Finding.Json
import JniContracts.Finding.Reader
import JniContracts.Proofs.Json.CanonicalText
import JniContracts.Proofs.NamePattern

/-!
Reports that are read again. How results are written as objects and read from them is left open; of
the two only a few laws are asked, and the writer and the reader of this library obey them. The
members of a report stand in the order of their keys, and not in the one in which they were put
together, and there are more of them than a result has fields.
-/

namespace JniContracts

open Schema

namespace Json

theorem lookup_of_mem {k : String} {v : Json} {ms : List (String × Json)}
    (distinct : (ms.map Prod.fst).Nodup) (h : (k, v) ∈ ms) : lookup k ms = some v := by
  induction ms with
  | nil => cases h
  | cons m ms ih =>
    rw [List.map_cons, List.nodup_cons] at distinct
    obtain rfl | h := List.mem_cons.mp h
    · simp [lookup]
    · have hne : m.1 ≠ k := fun heq => distinct.1 (heq ▸ List.mem_map_of_mem h)
      rw [lookup, if_neg (by simpa using hne), ih distinct.2 h]

theorem lookup_eq_none {k : String} {ms : List (String × Json)} (h : k ∉ ms.map Prod.fst) :
    lookup k ms = none := by
  induction ms with
  | nil => rfl
  | cons m ms ih =>
    rw [List.map_cons, List.mem_cons, not_or] at h
    rw [lookup, if_neg (by simpa using Ne.symm h.1), ih h.2]

theorem lookup_sorted {ms : List (String × Json)} (distinct : (ms.map Prod.fst).Nodup)
    (key : String) :
    lookup key (sortKeys (ms.map fun m => (m.1, m.2.sorted))) = (lookup key ms).map sorted := by
  have hkeys : (ms.map fun m => (m.1, m.2.sorted)).map Prod.fst = ms.map Prod.fst := by simp
  by_cases hmem : key ∈ ms.map Prod.fst
  · obtain ⟨⟨k, v⟩, hv, rfl⟩ := List.mem_map.mp hmem
    rw [lookup_of_mem distinct hv, Option.map_some]
    refine lookup_of_mem (nodup_sortKeys (hkeys ▸ distinct)) ?_
    exact (sortKeys_perm _).mem_iff.mpr (List.mem_map.mpr ⟨(k, v), hv, rfl⟩)
  · have hperm := (sortKeys_perm (ms.map fun m => (m.1, m.2.sorted))).map Prod.fst
    rw [hkeys] at hperm
    rw [lookup_eq_none hmem, lookup_eq_none (mt hperm.mem_iff.mp hmem), Option.map_none]

theorem lookup_assign {key k : String} (h : k ≠ key) (value : Json) (ms : List (String × Json)) :
    lookup k (assign key value ms) = lookup k ms := by
  induction ms with
  | nil => simp [assign, lookup, h.symm]
  | cons m ms ih =>
    rw [assign]
    split
    · rename_i hm
      simp [lookup, beq_iff_eq.mp hm, h.symm]
    · rw [lookup, lookup, ih]

theorem keys_assign (key : String) (value : Json) (ms : List (String × Json)) :
    (assign key value ms).map Prod.fst =
      if key ∈ ms.map Prod.fst then ms.map Prod.fst else ms.map Prod.fst ++ [key] := by
  induction ms with
  | nil => rfl
  | cons m ms ih =>
    rw [assign]
    split
    · rename_i hm
      simp [beq_iff_eq.mp hm]
    · rename_i hm
      have hne : key ≠ m.1 := fun h => hm (beq_iff_eq.mpr h.symm)
      simp only [List.map_cons, ih, List.mem_cons, hne, false_or]
      split <;> rfl

theorem mem_assign {key : String} {value : Json} {ms : List (String × Json)} {m : String × Json}
    (h : m ∈ assign key value ms) : m.2 = value ∨ m ∈ ms := by
  induction ms with
  | nil => exact .inl (by simp_all [assign])
  | cons m' ms ih => grind [assign]

theorem Plain.assign {ms : List (String × Json)} {value : Json} (h : (Json.obj ms).Plain)
    (hvalue : value.Plain) (key : String) : (Json.obj (Json.assign key value ms)).Plain := by
  cases h with
  | obj distinct each =>
    refine .obj ?_ fun m hm => ?_
    · rw [keys_assign]
      split
      · exact distinct
      · rename_i hnew
        exact List.nodup_append.mpr ⟨distinct, by simp, by grind⟩
    · rcases mem_assign hm with hm | hm
      · rwa [hm]
      · exact each m hm

theorem plain_ofOption (o : Option String) : (ofOption .str o).Plain := by
  cases o with
  | none => exact .null
  | some s => exact .str s

end Json

namespace ScanResult

def fields : List String := ["findings", "diagnostics", "files_scanned", "files_skipped", "partial"]

/-- What is asked of a writer of results as objects and of a reader of results: the reader undoes
the writer, and it sees neither the order of keys nor the keys that are no fields. -/
structure Codec (dump : ScanResult → List (String × Json)) (validate : Json → Option ScanResult) :
    Prop where
  keys : ∀ r, (dump r).map Prod.fst = fields
  plain : ∀ r, (Json.obj (dump r)).Plain
  validate_dump : ∀ r, validate (.obj (dump r)) = some r
  validate_reordered : ∀ {v w : Json}, v.Plain → Json.Reordered v w → validate w = validate v
  validate_assign : ∀ {key : String} {value : Json} {members : List (String × Json)},
    (Json.obj members).Plain → value.Plain → key ∉ fields →
      validate (.obj (Json.assign key value members)) = validate (.obj members)

theorem plain_countsJson (r : ScanResult) : r.countsJson.Plain := by
  refine .obj ?_ (List.forall_mem_map.mpr fun c _ => .int c.2)
  simp [counts, Severity.all, Severity.text]

theorem plain_verdict (r : ScanResult) : ∀ m ∈ r.verdict, m.2.Plain := by
  simp only [verdict, List.forall_mem_cons, List.not_mem_nil, false_implies, implies_true, and_true]
  exact ⟨.str _, .int _, r.plain_countsJson, .str _⟩

theorem verdict_notMem_fields (r : ScanResult) : ∀ m ∈ r.verdict, m.1 ∉ fields := by
  simp [verdict, fields]

variable {dump : ScanResult → List (String × Json)} {validate : Json → Option ScanResult}

theorem Codec.validate_added (h : Codec dump validate) {added members : List (String × Json)}
    (hplain : (Json.obj members).Plain) (hadded : ∀ m ∈ added, m.2.Plain ∧ m.1 ∉ fields) :
    let all := added.foldl (fun members (key, value) => Json.assign key value members) members
    (Json.obj all).Plain ∧ validate (.obj all) = validate (.obj members) := by
  induction added generalizing members with
  | nil => exact ⟨hplain, rfl⟩
  | cons m added ih =>
    obtain ⟨⟨hm, hkey⟩, hrest⟩ := List.forall_mem_cons.mp hadded
    obtain ⟨hall, hsame⟩ := ih (hplain.assign hm m.1) hrest
    exact ⟨hall, hsame.trans (h.validate_assign hplain hm hkey)⟩

theorem Codec.validate_report (h : Codec dump validate) (r : ScanResult) :
    (r.reportBy dump).Plain ∧ validate (r.reportBy dump) = some r := by
  obtain ⟨hplain, hsame⟩ := h.validate_added (h.plain r) fun m hm =>
    ⟨r.plain_verdict m hm, r.verdict_notMem_fields m hm⟩
  exact ⟨hplain, hsame.trans (h.validate_dump r)⟩

end ScanResult

namespace Schema

variable {α β : Type}

namespace Checked

def value? : Checked α → Option α
  | good a => some a
  | bad _ => none

@[simp] theorem value?_under (s : Step) (c : Checked α) : (c.under s).value? = c.value? := by
  cases c <;> rfl

@[simp] theorem value?_map (f : α → β) (c : Checked α) : (c.map f).value? = c.value?.map f := by
  cases c <;> rfl

@[simp] theorem value?_also (f : Checked (α → β)) (a : Checked α) :
    (f.also a).value? = f.value?.bind fun f => a.value?.map f := by
  cases f <;> cases a <;> rfl

end Checked

def Alike (r : Reader α) (ms ms' : List (String × Json)) (key : String) : Prop :=
  ((Json.lookup key ms').map fun v => (r v).value?) = (Json.lookup key ms).map fun v => (r v).value?

namespace Field

variable {r : Reader α} {ms ms' : List (String × Json)} {key : String}

theorem value?_eq_lookup (hkey : '-' ∉ key.toList) : Field.value? ms key = Json.lookup key ms := by
  have hsame : underscored key = key := by
    rw [underscored, ← String.toList_inj, String.toList_map]
    refine (List.map_congr_left fun c hc => ?_).trans (List.map_id key.toList)
    have hc : c ≠ '-' := fun h => hkey (h ▸ hc)
    simp [hc]
  rw [Field.value?, spelling?, hsame]
  cases h : Json.lookup key ms <;> simp [h]

theorem value?_of_lookup {v : Json} (h : Json.lookup key ms = some v) :
    Field.value? ms key = some v := by
  simp [Field.value?, spelling?, h]

theorem required_of_lookup {v : Json} {a : α} (h : Json.lookup key ms = some v)
    (hr : r v = .good a) : required ms key r = .good a := by
  rw [required, value?_of_lookup h]
  simp only [hr, Checked.under]

theorem withDefault_of_lookup {v : Json} {a : α} (h : Json.lookup key ms = some v)
    (hr : r v = .good a) (default : α) : withDefault ms key default r = .good a := by
  rw [withDefault, value?_of_lookup h]
  simp only [hr, Checked.under]

theorem value?_required (hkey : '-' ∉ key.toList) (h : Alike r ms ms' key) :
    (required ms' key r).value? = (required ms key r).value? := by
  rw [required, required, Checked.value?_under, Checked.value?_under, value?_eq_lookup hkey,
    value?_eq_lookup hkey]
  rw [Alike] at h
  cases hms : Json.lookup key ms <;> cases hms' : Json.lookup key ms' <;> simp_all

theorem value?_map_withDefault (f : α → β) (default : α) :
    ((withDefault ms key default r).map f).value? =
      (withDefault ms key (f default) fun v => (r v).map f).value? := by
  rw [withDefault, withDefault]
  cases Field.value? ms key with
  | none => rfl
  | some v => simp

theorem value?_withDefault (hkey : '-' ∉ key.toList) (h : Alike r ms ms' key) (default : α) :
    (withDefault ms' key default r).value? = (withDefault ms key default r).value? := by
  rw [withDefault, withDefault, value?_eq_lookup hkey, value?_eq_lookup hkey]
  rw [Alike] at h
  cases hms : Json.lookup key ms <;> cases hms' : Json.lookup key ms' <;> simp_all

end Field

namespace Reader

/-- A reader that does not see the order of keys. -/
def Unordered (r : Reader α) : Prop := ∀ v : Json, v.Plain → (r v.sorted).value? = (r v).value?

theorem unordered_text : Unordered text := fun v _ => by cases v <;> rfl

theorem unordered_int : Unordered int := fun v _ => by cases v <;> rfl

theorem unordered_bool : Unordered bool := fun v _ => by cases v <;> rfl

theorem unordered_choice (ofText? : String → Option α) : Unordered (choice ofText?) :=
  fun v _ => by cases v <;> rfl

theorem Unordered.optional {r : Reader α} (h : Unordered r) : Unordered (optional r) := by
  intro v hv
  have hsome := congrArg (Option.map some) (h v hv)
  cases v with
  | null => rfl
  | _ =>
    rw [← Checked.value?_map, ← Checked.value?_map] at hsome
    exact hsome

theorem text_str (s : String) : text (.str s) = .good s := rfl

theorem int_int (n : Int) : int (.int n) = .good n := rfl

theorem bool_bool (b : Bool) : bool (.bool b) = .good b := rfl

theorem optional_ofOption (o : Option String) : optional text (Json.ofOption .str o) = .good o := by
  cases o <;> rfl

theorem Unordered.list {r : Reader α} (h : Unordered r) : Unordered (list r) := by
  intro v hv
  cases hv with
  | @arr items each =>
    rw [Json.sorted_arr]
    have hitems (n : Nat) : (itemsFrom r n (items.map Json.sorted)).value? =
        (itemsFrom r n items).value? := by
      induction items generalizing n with
      | nil => rfl
      | cons v vs ih =>
        rw [List.forall_mem_cons] at each
        simp only [List.map_cons, itemsFrom, Checked.value?_also, Checked.value?_map,
          Checked.value?_under, h v each.1, ih each.2]
    exact hitems 0
  | _ => rfl

theorem Unordered.reordered {r : Reader α} (h : Unordered r) {v w : Json} (hv : v.Plain)
    (hw : Json.Reordered v w) : (r w).value? = (r v).value? := by
  have hsorted : some v.sorted = some w.sorted := by
    rw [← Json.parse?_canonical hv, ← Json.parse?_canonical (hw.plain hv),
      Json.canonical_congr hw hv]
  rw [← h v hv, Option.some.inj hsorted, h w (hw.plain hv)]

theorem itemsFrom_map {r : Reader α} {write : α → Json} {l : List α}
    (h : ∀ a ∈ l, r (write a) = .good a) (n : Nat) : itemsFrom r n (l.map write) = .good l := by
  induction l generalizing n with
  | nil => rfl
  | cons a l ih =>
    rw [List.forall_mem_cons] at h
    rw [List.map_cons, itemsFrom, h.1, ih h.2]
    rfl

theorem unordered_record {r : List (String × Json) → Checked α}
    (h : ∀ ms, (Json.obj ms).Plain →
      (r (Json.sortKeys (ms.map fun m => (m.1, m.2.sorted)))).value? = (r ms).value?) :
    Unordered (record r) := by
  intro v hv
  cases v with
  | obj ms =>
    rw [Json.sorted_obj]
    exact h ms hv
  | _ => rfl

theorem Unordered.alike {r : Reader α} (h : Unordered r) {ms : List (String × Json)}
    (hms : (Json.obj ms).Plain) (key : String) :
    Alike r ms (Json.sortKeys (ms.map fun m => (m.1, m.2.sorted))) key := by
  cases hms with
  | obj distinct each =>
    rw [Alike, Json.lookup_sorted distinct]
    by_cases hmem : key ∈ ms.map Prod.fst
    · obtain ⟨⟨k, v⟩, hv, rfl⟩ := List.mem_map.mp hmem
      rw [Json.lookup_of_mem distinct hv]
      exact congrArg some (h v (each (k, v) hv))
    · rw [Json.lookup_eq_none hmem]
      rfl

end Reader

end Schema

namespace Bindings

variable {l l' : List (String × String)}

theorem lookup_eq_some_iff {β : Type} {l : List (String × β)} (distinct : (l.map Prod.fst).Nodup)
    {v : String} {t : β} : l.lookup v = some t ↔ (v, t) ∈ l := by
  induction l with
  | nil => simp
  | cons e l ih =>
    obtain ⟨w, s⟩ := e
    rw [List.map_cons, List.nodup_cons] at distinct
    rw [lookup_cons_ite, List.mem_cons, Prod.mk.injEq]
    split
    · rename_i hv
      subst hv
      have hnot : (v, t) ∉ l := fun hm => distinct.1 (List.mem_map.mpr ⟨(v, t), hm, rfl⟩)
      simp [hnot, eq_comm]
    · rename_i hv
      simp [hv, ih distinct.2]

theorem get?_ofList (distinct : (l.map Prod.fst).Nodup) (v : String) :
    (ofList l).get? v = l.lookup v := by
  have hfold (b : Bindings) :
      (l.foldl (fun b e => b.insert e.1 e.2) b).get? v = (l.lookup v).or (b.get? v) := by
    induction l generalizing b with
    | nil => rfl
    | cons e l ih =>
      obtain ⟨w, s⟩ := e
      rw [List.map_cons, List.nodup_cons] at distinct
      rw [List.foldl_cons, ih distinct.2, get?_insert, lookup_cons_ite]
      split
      · rename_i hv
        have hnone : l.lookup v = none := by
          rw [List.lookup_eq_none_iff]
          exact fun e he => bne_iff_ne.mpr fun h => distinct.1 (hv ▸ h ▸ List.mem_map_of_mem he)
        rw [hnone]
        rfl
      · rfl
  exact (hfold empty).trans (Option.or_none)

theorem ofList_congr (h : l.Perm l') (distinct : (l.map Prod.fst).Nodup) :
    ofList l = ofList l' := by
  have distinct' : (l'.map Prod.fst).Nodup := (h.map Prod.fst).nodup_iff.mp distinct
  refine ext_get? fun v => Option.ext fun t => ?_
  rw [get?_ofList distinct, get?_ofList distinct', lookup_eq_some_iff distinct,
    lookup_eq_some_iff distinct', h.mem_iff]

theorem nodup_keys (b : Bindings) : (b.entries.map Prod.fst).Nodup :=
  List.pairwise_map.mpr (b.ordered.imp String.ne_of_lt)

theorem ofList_entries (b : Bindings) : ofList b.entries = b :=
  ext_get? fun v => get?_ofList b.nodup_keys v

theorem plain_toJson (b : Bindings) : b.toJson.Plain := by
  refine .obj ?_ fun m hm => ?_
  · rw [List.map_map]
    exact b.nodup_keys
  · obtain ⟨e, -, rfl⟩ := List.mem_map.mp hm
    exact .str e.2

theorem members_text {ms : List (String × Json)} :
    (Reader.members Reader.text ms).value? = some l ↔ ms = l.map fun e => (e.1, .str e.2) := by
  induction ms generalizing l with
  | nil => cases l <;> simp [Reader.members, Checked.value?]
  | cons m ms ih =>
    obtain ⟨k, v⟩ := m
    simp only [Reader.members, Checked.value?_also, Checked.value?_map, Checked.value?_under]
    cases v with
    | str s =>
      cases l with
      | nil => simp [Reader.text, Checked.value?]
      | cons e l =>
        obtain ⟨k', s'⟩ := e
        simp [Reader.text, Checked.value?, ← ih]
        grind
    | _ => cases l <;> simp [Reader.text, Checked.complain, Checked.value?]

theorem exists_texts {ms : List (String × Json)} (h : ∀ m ∈ ms, ∃ s, m.2 = .str s) :
    ∃ l : List (String × String), ms = l.map fun e => (e.1, .str e.2) := by
  induction ms with
  | nil => exact ⟨[], rfl⟩
  | cons m ms ih =>
    rw [List.forall_mem_cons] at h
    obtain ⟨⟨s, hs⟩, hms⟩ := h
    obtain ⟨l, rfl⟩ := ih hms
    exact ⟨(m.1, s) :: l, by rw [List.map_cons, ← hs]⟩

/-- Names may be bound in any order. -/
theorem unordered_table :
    Reader.Unordered fun v => (Reader.table Reader.text v).map Bindings.ofList := by
  intro v hv
  cases hv with
  | @obj ms distinct each =>
    rw [Json.sorted_obj, Checked.value?_map, Checked.value?_map, Reader.table, Reader.table]
    cases hms : (Reader.members Reader.text ms).value? with
    | some l =>
      obtain rfl := members_text.mp hms
      rw [List.map_map] at distinct
      have hsorted :
          Json.sortKeys ((l.map fun e => (e.1, Json.str e.2)).map fun m => (m.1, m.2.sorted)) =
          (Json.sortKeys l).map fun e => (e.1, .str e.2) := by
        rw [List.map_map, ← Json.sortKeys_map Json.str l]
        rfl
      rw [members_text.mpr hsorted, Option.map_some, Option.map_some]
      exact congrArg some (ofList_congr (Json.sortKeys_perm l).symm distinct).symm
    | none =>
      cases hms' : (Reader.members Reader.text
        (Json.sortKeys (ms.map fun m => (m.1, m.2.sorted)))).value? with
      | none => rfl
      | some l' =>
        -- texts are what they were before the sorting
        have htexts : ∀ m ∈ ms, ∃ s, m.2 = .str s := by
          intro m hm
          have hmem : (m.1, m.2.sorted) ∈ l'.map fun e => (e.1, Json.str e.2) := by
            rw [← members_text.mp hms', (Json.sortKeys_perm _).mem_iff]
            exact List.mem_map_of_mem hm
          obtain ⟨e, -, he⟩ := List.mem_map.mp hmem
          rw [Prod.mk.injEq] at he
          refine ⟨e.2, ?_⟩
          cases hm2 : m.2 with
          | str s => simp_all [Json.sorted]
          | _ => simp_all [Json.sorted]
        obtain ⟨l, hl⟩ := exists_texts htexts
        rw [members_text.mpr hl] at hms
        cases hms
  | _ => rfl

theorem read_toJson (b : Bindings) : Reader.table Reader.text b.toJson = .good b.entries := by
  have hvalue : (Reader.table Reader.text b.toJson).value? = some b.entries := members_text.mpr rfl
  cases h : Reader.table Reader.text b.toJson <;> simp_all [Checked.value?]

end Bindings

namespace Finding

theorem plain_toJson (f : Finding) : f.toJson.Plain := by
  refine .obj (by simp [entries]) ?_
  simp only [entries, List.forall_mem_cons, List.not_mem_nil, false_implies, implies_true, and_true]
  exact ⟨.str _, .str _, .int _, .int _, Json.plain_ofOption _, .str _, .str _,
    f.bindings.plain_toJson⟩

theorem read_entries (f : Finding) : Finding.read f.entries = .good f := by
  have hfield (key : String) (v : Json) (h : (key, v) ∈ f.entries) :
      Json.lookup key f.entries = some v := Json.lookup_of_mem (by simp [entries]) h
  have hseverity : Reader.choice Severity.ofText? (.str f.severity.text) = .good f.severity := by
    cases f.severity <;> rfl
  rw [Finding.read,
    Field.required_of_lookup (hfield "rule_id" _ (by simp [entries])) (Reader.text_str f.ruleId),
    Field.required_of_lookup (hfield "file" _ (by simp [entries])) (Reader.text_str f.file),
    Field.required_of_lookup (hfield "line" _ (by simp [entries])) (Reader.int_int f.line),
    Field.withDefault_of_lookup (hfield "column" _ (by simp [entries])) (Reader.int_int f.column),
    Field.withDefault_of_lookup (hfield "function" _ (by simp [entries]))
      (Reader.optional_ofOption f.function),
    Field.required_of_lookup (hfield "severity" _ (by simp [entries])) hseverity,
    Field.required_of_lookup (hfield "message" _ (by simp [entries])) (Reader.text_str f.message),
    Field.withDefault_of_lookup (hfield "bindings" _ (by simp [entries])) f.bindings.read_toJson]
  simp only [Checked.also, Checked.map, Bindings.ofList_entries]

theorem unordered_read : Reader.Unordered (Reader.record Finding.read) := by
  refine Reader.unordered_record fun ms hms => ?_
  have htext (key : String) := Reader.unordered_text.alike hms key
  have hint (key : String) := Reader.unordered_int.alike hms key
  have hname (key : String) := Reader.unordered_text.optional.alike hms key
  have hseverity (key : String) := (Reader.unordered_choice Severity.ofText?).alike hms key
  have hbindings (key : String) := Bindings.unordered_table.alike hms key
  simp only [Finding.read, Checked.value?_also, Field.value?_map_withDefault]
  rw [Field.value?_required (by decide) (htext "rule_id"),
    Field.value?_required (by decide) (htext "file"),
    Field.value?_required (by decide) (hint "line"),
    Field.value?_withDefault (by decide) (hint "column"),
    Field.value?_withDefault (by decide) (hname "function"),
    Field.value?_required (by decide) (hseverity "severity"),
    Field.value?_required (by decide) (htext "message"),
    Field.value?_withDefault (by decide) (hbindings "bindings")]

end Finding

namespace Diagnostic

theorem plain_toJson (d : Diagnostic) : d.toJson.Plain := by
  refine .obj (by simp [entries]) ?_
  simp only [entries, List.forall_mem_cons, List.not_mem_nil, false_implies, implies_true, and_true]
  exact ⟨.str _, .str _, .int _, Json.plain_ofOption _, Json.plain_ofOption _, .str _⟩

theorem read_entries (d : Diagnostic) : Diagnostic.read d.entries = .good d := by
  have hfield (key : String) (v : Json) (h : (key, v) ∈ d.entries) :
      Json.lookup key d.entries = some v := Json.lookup_of_mem (by simp [entries]) h
  have hkind : Reader.choice DiagnosticKind.ofText? (.str d.kind.text) = .good d.kind := by
    cases d.kind <;> rfl
  rw [Diagnostic.read,
    Field.required_of_lookup (hfield "kind" _ (by simp [entries])) hkind,
    Field.required_of_lookup (hfield "file" _ (by simp [entries])) (Reader.text_str d.file),
    Field.withDefault_of_lookup (hfield "line" _ (by simp [entries])) (Reader.int_int d.line),
    Field.withDefault_of_lookup (hfield "function" _ (by simp [entries]))
      (Reader.optional_ofOption d.function),
    Field.withDefault_of_lookup (hfield "rule_id" _ (by simp [entries]))
      (Reader.optional_ofOption d.ruleId),
    Field.required_of_lookup (hfield "message" _ (by simp [entries])) (Reader.text_str d.message)]
  rfl

theorem unordered_read : Reader.Unordered (Reader.record Diagnostic.read) := by
  refine Reader.unordered_record fun ms hms => ?_
  have htext (key : String) := Reader.unordered_text.alike hms key
  have hname (key : String) := Reader.unordered_text.optional.alike hms key
  have hkind (key : String) := (Reader.unordered_choice DiagnosticKind.ofText?).alike hms key
  have hline := Reader.unordered_int.alike hms "line"
  simp only [Diagnostic.read, Checked.value?_also]
  rw [Field.value?_required (by decide) (hkind "kind"),
    Field.value?_required (by decide) (htext "file"),
    Field.value?_withDefault (by decide) hline,
    Field.value?_withDefault (by decide) (hname "function"),
    Field.value?_withDefault (by decide) (hname "rule_id"),
    Field.value?_required (by decide) (htext "message")]

end Diagnostic

namespace ScanResult

theorem plain_entries (r : ScanResult) : (Json.obj r.entries).Plain := by
  refine .obj (by simp [entries]) ?_
  simp only [entries, List.forall_mem_cons, List.not_mem_nil, false_implies, implies_true, and_true]
  exact ⟨.arr (List.forall_mem_map.mpr fun f _ => f.plain_toJson),
    .arr (List.forall_mem_map.mpr fun d _ => d.plain_toJson), .int _, .int _, .bool _⟩

theorem read_entries (r : ScanResult) : ScanResult.read r.entries = .good r := by
  have hfield (key : String) (v : Json) (h : (key, v) ∈ r.entries) :
      Json.lookup key r.entries = some v := Json.lookup_of_mem (by simp [entries]) h
  have hfindings : Reader.list (Reader.record Finding.read) (.arr (r.findings.map Finding.toJson)) =
      .good r.findings := Reader.itemsFrom_map (fun f _ => f.read_entries) 0
  have hdiagnostics : Reader.list (Reader.record Diagnostic.read)
      (.arr (r.diagnostics.map Diagnostic.toJson)) = .good r.diagnostics :=
    Reader.itemsFrom_map (fun d _ => d.read_entries) 0
  rw [ScanResult.read,
    Field.withDefault_of_lookup (hfield "findings" _ (by simp [entries])) hfindings,
    Field.withDefault_of_lookup (hfield "diagnostics" _ (by simp [entries])) hdiagnostics,
    Field.withDefault_of_lookup (hfield "files_scanned" _ (by simp [entries]))
      (Reader.int_int r.filesScanned),
    Field.withDefault_of_lookup (hfield "files_skipped" _ (by simp [entries]))
      (Reader.int_int r.filesSkipped),
    Field.withDefault_of_lookup (hfield "partial" _ (by simp [entries]))
      (Reader.bool_bool r.incomplete)]
  rfl

/-- A result is read from its five fields alone. -/
theorem value?_read {ms ms' : List (String × Json)}
    (findings : Alike (Reader.list (Reader.record Finding.read)) ms ms' "findings")
    (diagnostics : Alike (Reader.list (Reader.record Diagnostic.read)) ms ms' "diagnostics")
    (scanned : Alike Reader.int ms ms' "files_scanned")
    (skipped : Alike Reader.int ms ms' "files_skipped")
    (incomplete : Alike Reader.bool ms ms' "partial") :
    (ScanResult.read ms').value? = (ScanResult.read ms).value? := by
  simp only [ScanResult.read, Checked.value?_also]
  rw [Field.value?_withDefault (by decide) findings,
    Field.value?_withDefault (by decide) diagnostics, Field.value?_withDefault (by decide) scanned,
    Field.value?_withDefault (by decide) skipped, Field.value?_withDefault (by decide) incomplete]

theorem unordered_read : Reader.Unordered (Reader.record ScanResult.read) :=
  Reader.unordered_record fun _ hms => value?_read
    (Finding.unordered_read.list.alike hms _) (Diagnostic.unordered_read.list.alike hms _)
    (Reader.unordered_int.alike hms _) (Reader.unordered_int.alike hms _)
    (Reader.unordered_bool.alike hms _)

theorem value?_read_assign {key : String} (h : key ∉ fields) (value : Json)
    (ms : List (String × Json)) :
    (ScanResult.read (Json.assign key value ms)).value? = (ScanResult.read ms).value? := by
  have halike {α : Type} (r : Reader α) {field : String} (hfield : field ∈ fields) :
      Alike r ms (Json.assign key value ms) field := by
    have hne : field ≠ key := fun heq => h (heq ▸ hfield)
    rw [Alike, Json.lookup_assign hne]
  exact value?_read (halike _ (by simp [fields])) (halike _ (by simp [fields]))
    (halike _ (by simp [fields])) (halike _ (by simp [fields])) (halike _ (by simp [fields]))

def ofJson? (v : Json) : Option ScanResult := (Reader.record ScanResult.read v).value?

theorem codec : Codec entries ofJson? where
  keys _ := rfl
  plain := plain_entries
  validate_dump r := congrArg Checked.value? r.read_entries
  validate_reordered hv hw := unordered_read.reordered hv hw
  validate_assign {_ value members} _ _ hkey := value?_read_assign hkey value members

end ScanResult

/-- The canonical text of a value without floats says all about it but the order of its keys, and
nothing else. So the result of a scan can be read from its report, whatever writes and reads
results. -/
theorem Json.canonical_faithful :
    (∀ v : Json, v.Plain →
      (∃ w, Json.parse? v.canonical = some w ∧ Json.Reordered v w) ∧
      (∀ w, Json.Reordered v w ↔ w.Plain ∧ w.canonical = v.canonical) ∧
      '\r' ∉ v.canonical.toList ∧
      ∃ body, v.canonical.toList = body ++ ['\n'] ∧ body.getLast? ≠ some '\n') ∧
    ∀ (dump : ScanResult → List (String × Json)) (validate : Json → Option ScanResult),
      ScanResult.Codec dump validate →
      ∀ r : ScanResult, ∃ w,
        Json.parse? (r.reportBy dump).canonical = some w ∧ validate w = some r := by
  refine ⟨fun v hv => ⟨?_, fun w => ⟨fun hw => ?_, fun hw => ?_⟩, ?_, ?_⟩,
    fun dump validate h r => ?_⟩
  · exact ⟨v.sorted, Json.parse?_canonical hv, hv.reordered_sorted⟩
  · exact ⟨hw.plain hv, (Json.canonical_congr hw hv).symm⟩
  · exact Json.reordered_of_canonical_eq hv hw.1 hw.2.symm
  · simp [Json.toList_canonical hv, Json.Canonical.notMem_return hv 0]
  · exact ⟨_, Json.toList_canonical hv, Json.Canonical.write_last hv 0⟩
  · obtain ⟨hplain, hread⟩ := h.validate_report r
    refine ⟨(r.reportBy dump).sorted, Json.parse?_canonical hplain, ?_⟩
    rw [h.validate_reordered hplain hplain.reordered_sorted, hread]

def Json.scrambled : Json :=
  .obj [("é\r\n", .arr [.int (-70), .obj [], .str "\"\\\x01"]),
    ("a", .obj [("z", .null), ("y", .bool true)])]

def ScanResult.leak : ScanResult where
  findings :=
    [⟨"RULE-1", "a.c", 3, 7, some "f", .error, "\"x\" leaks", .ofList [("y", "2"), ("x", "1")]⟩]
  diagnostics := [⟨.parseError, "b.c", 0, none, none, "no\ttext"⟩]
  filesScanned := 2
  filesSkipped := 1
  incomplete := true

theorem Json.canonical_faithful_scrambled :
    (Json.scrambled.Plain ∧
      (∃ w, Json.parse? Json.scrambled.canonical = some w ∧ Json.Reordered Json.scrambled w) ∧
      (∀ w, Json.Reordered Json.scrambled w ↔ w.Plain ∧ w.canonical = Json.scrambled.canonical) ∧
      '\r' ∉ Json.scrambled.canonical.toList ∧
      ∃ body, Json.scrambled.canonical.toList = body ++ ['\n'] ∧ body.getLast? ≠ some '\n') ∧
    ScanResult.Codec ScanResult.entries ScanResult.ofJson? ∧
    ∃ w, Json.parse? ScanResult.leak.report.canonical = some w ∧
      ScanResult.ofJson? w = some ScanResult.leak := by
  have hplain : Json.scrambled.Plain := by
    refine .obj (by simp) ?_
    simp only [List.forall_mem_cons, List.not_mem_nil, false_implies, implies_true, and_true]
    refine ⟨.arr ?_, .obj (by simp) ?_⟩
    · simp only [List.forall_mem_cons, List.not_mem_nil, false_implies, implies_true, and_true]
      exact ⟨.int _, .obj .nil (by simp), .str _⟩
    · simp only [List.forall_mem_cons, List.not_mem_nil, false_implies, implies_true, and_true]
      exact ⟨.null, .bool _⟩
  exact ⟨⟨hplain, Json.canonical_faithful.1 _ hplain⟩, ScanResult.codec,
    Json.canonical_faithful.2 ScanResult.entries ScanResult.ofJson? ScanResult.codec
    ScanResult.leak⟩

end JniContracts
