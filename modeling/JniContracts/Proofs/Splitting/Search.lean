import JniContracts.Proofs.Duty
import JniContracts.Proofs.Splitting.Graphs

/-!
The search for a violating path in the graphs before and after declarations are split. It comes to
the same result if the elements that stand for one of the graph before settle, break or leave open
what it does.
-/

namespace JniContracts.Flow

def firstVerdict {α : Type} (v : α → Verdict) : List α → Verdict
  | [] => .pending
  | a :: as => if v a = .pending then firstVerdict v as else v a

section FirstVerdict

variable {α β : Type} {v : α → Verdict} {as as' : List α}

theorem firstVerdict_append : firstVerdict v (as ++ as') =
    if firstVerdict v as = .pending then firstVerdict v as' else firstVerdict v as := by
  induction as with
  | nil => rfl
  | cons a as ih =>
    rw [List.cons_append, firstVerdict, firstVerdict]
    split
    · exact ih
    · rfl

theorem firstVerdict_pending (h : ∀ a ∈ as, v a = .pending) : firstVerdict v as = .pending := by
  induction as with
  | nil => rfl
  | cons a as ih =>
    rw [firstVerdict, if_pos (h a List.mem_cons_self)]
    exact ih fun x hx => h x (List.mem_cons_of_mem _ hx)

theorem firstVerdict_filter {p : α → Bool} (h : ∀ a ∈ as, p a = false → v a = .pending) :
    firstVerdict v (as.filter p) = firstVerdict v as := by
  induction as with
  | nil => rfl
  | cons a as ih =>
    have hrest := ih fun x hx => h x (List.mem_cons_of_mem _ hx)
    cases hp : p a with
    | true => rw [List.filter_cons_of_pos hp, firstVerdict, firstVerdict, hrest]
    | false =>
      rw [List.filter_cons_of_neg (by simp [hp]), firstVerdict,
        if_pos (h a List.mem_cons_self hp), hrest]

theorem firstVerdict_congr {w : α → Verdict} (h : ∀ a ∈ as, v a = w a) :
    firstVerdict v as = firstVerdict w as := by
  induction as with
  | nil => rfl
  | cons a as ih =>
    rw [firstVerdict, firstVerdict, h a List.mem_cons_self,
      ih fun x hx => h x (List.mem_cons_of_mem _ hx)]

theorem firstVerdict_map (u : β → α) (bs : List β) :
    firstVerdict v (bs.map u) = firstVerdict (fun b => v (u b)) bs := by
  induction bs with
  | nil => rfl
  | cons b bs ih => rw [List.map_cons, firstVerdict, firstVerdict, ih]

/-- A verdict that no earlier member contradicts. -/
theorem firstVerdict_of_ahead {a : α} (ha : v a ≠ .pending)
    (h : ∀ x ∈ as, v x = .pending ∨ v x = v a) : firstVerdict v (as ++ a :: as') = v a := by
  induction as with
  | nil => rw [List.nil_append, firstVerdict, if_neg ha]
  | cons x as ih =>
    rw [List.cons_append, firstVerdict]
    split
    · exact ih fun y hy => h y (List.mem_cons_of_mem _ hy)
    · rename_i hx
      exact (h x List.mem_cons_self).resolve_left hx

theorem firstVerdict_rows {v v' : Element → Verdict} {rows : List Row}
    (h : ∀ r ∈ rows, firstVerdict v' r.placed = v r.whole) :
    firstVerdict v' (rows.flatMap Row.placed) = firstVerdict v (rows.map Row.whole) := by
  induction rows with
  | nil => rfl
  | cons r rows ih =>
    rw [List.flatMap_cons, List.map_cons, firstVerdict_append, firstVerdict, h r List.mem_cons_self,
      ih fun x hx => h x (List.mem_cons_of_mem _ hx)]

end FirstVerdict

structure Graph.Unique (g : Graph) : Prop where
  keyed : g.Keyed
  distinct : g.Distinct

theorem unique_of_build {exits : List String} {f : Function} {g : Graph}
    (h : build exits f = .ok g) : g.Unique :=
  ⟨keyed_of_build h, distinct_of_build h⟩

theorem Graph.Splits.rows {R : Row → Prop} {g g' : Graph} (hg : g.Splits R g') :
    ∃ rows : List Row, (∀ r ∈ rows, R r) ∧ g.blocks.flatMap Block.elements = rows.map Row.whole ∧
    g'.blocks.flatMap Block.elements = rows.flatMap Row.placed := by
  have hblocks := hg.blocks
  generalize g.blocks = bs at hblocks ⊢
  generalize g'.blocks = bs' at hblocks ⊢
  induction hblocks with
  | nil => exact ⟨[], by simp, rfl, rfl⟩
  | cons hb _ ih =>
    obtain ⟨rows, hrows, he, he'⟩ := hb.rows
    obtain ⟨rest, hrest, hes, hes'⟩ := ih
    refine ⟨rows ++ rest, fun r hr => (List.mem_append.mp hr).elim (hrows r) (hrest r), ?_, ?_⟩
    · rw [List.flatMap_cons, List.map_append, he, hes]
    · rw [List.flatMap_cons, List.flatMap_append, he', hes']

/-- Control can come to an element before just if it can come to an element that stands for it
after. -/
theorem Graph.Splits.position? {R : Row → Prop} {g g' : Graph} (hg : g.Splits R g')
    {key key' : Address × Role}
    (h : ∀ r, R r → (r.whole.key = key ↔ ∃ e ∈ r.placed, e.key = key')) :
    (g'.position? key').isSome = (g.position? key).isSome := by
  obtain ⟨rows, hrows, he, he'⟩ := hg.rows
  rw [Bool.eq_iff_iff, Graph.position?_isSome, Graph.position?_isSome, he, he']
  constructor
  · rintro ⟨e, hmem, hkey⟩
    obtain ⟨r, hr, hmem⟩ := List.mem_flatMap.mp hmem
    exact ⟨r.whole, List.mem_map_of_mem hr, (h r (hrows r hr)).mpr ⟨e, hmem, hkey⟩⟩
  · rintro ⟨e, hmem, hkey⟩
    obtain ⟨r, hr, rfl⟩ := List.mem_map.mp hmem
    obtain ⟨e', hmem', hkey'⟩ := (h r (hrows r hr)).mp hkey
    exact ⟨e', List.mem_flatMap.mpr ⟨r, hr, hmem'⟩, hkey'⟩

namespace Obligation

def Passage.verdict : Passage → Verdict
  | settled => .satisfied
  | broken .. => .violated
  | passed _ => .pending

def judge (o : Obligation) (key : Address × Role) (e : Element) : Verdict :=
  if e.key = key then o.atTrigger else o.classify e

variable {R : Row → Prop} {g g' : Graph} {o o' : Obligation} {key key' : Address × Role}

theorem verdict_pass {v : Element → Verdict} (fromStart : Bool) (id : Nat) (es : List Element)
    (i : Nat) (lines : List Nat)
    (h : ∀ j e, es[j]? = some e → (o.verdict fromStart ⟨id, i + j⟩ e).1 = v e) :
    (o.pass fromStart id i lines es).verdict = firstVerdict v es := by
  induction es generalizing i lines with
  | nil => rfl
  | cons e es ih =>
    have he := h 0 e rfl
    have hes := fun lines => ih (i + 1) lines fun j x hx => by
      rw [Nat.add_assoc, Nat.add_comm 1]
      exact h (j + 1) x hx
    rw [pass, firstVerdict, ← he]
    rw [Nat.add_zero] at he ⊢
    cases hv : o.verdict fromStart ⟨id, i⟩ e with
    | mk verdict reason =>
      cases verdict with
      | pending => exact hes _
      | satisfied => rfl
      | violated => rfl

variable {b : Block}

theorem verdict_pass_start (hu : g.Unique) (ht : g.position? key = some o.trigger)
    (hb : b ∈ g.blocks) (lines : List Nat) :
    (o.pass true b.id 0 lines b.elements).verdict = firstVerdict (o.judge key) b.elements := by
  refine verdict_pass true b.id b.elements 0 lines fun j e he => ?_
  rw [Nat.zero_add]
  have hplaced : (⟨b.id, j⟩, e) ∈ g.placed := Graph.mem_placed.mpr ⟨b, hb, rfl, he⟩
  have hiff := hu.keyed.place_iff hu.distinct ht hplaced
  by_cases hkey : e.key = key
  · simp [verdict, judge, hkey, hiff.mpr hkey]
  · simp [verdict, judge, hkey, mt hiff.mp hkey]

variable {pre post : List Element} {e : Element}

theorem mem_placed_append (hb : b ∈ g.blocks)
    (hes : b.elements = pre ++ e :: post) : (⟨b.id, pre.length⟩, e) ∈ g.placed := by
  refine Graph.mem_placed.mpr ⟨b, hb, rfl, ?_⟩
  rw [hes, List.getElem?_append_right (Nat.le_refl _), Nat.sub_self]
  rfl

theorem key_ne_behind (hk : g.Keyed) (hb : b ∈ g.blocks) {x : Element}
    (hes : b.elements = pre ++ e :: post) (hx : x ∈ post) : x.key ≠ e.key := by
  intro hkey
  obtain ⟨mid, rest, rfl⟩ := List.append_of_mem hx
  have hes' : b.elements = (pre ++ e :: mid) ++ x :: rest := by rw [hes, List.append_assoc]; rfl
  have hplace := hk.place_eq (mem_placed_append hb hes') (mem_placed_append hb hes) hkey
  have hindex : (pre ++ e :: mid).length = pre.length := congrArg Position.index hplace
  simp at hindex

theorem verdict_pass_behind (hk : g.Keyed) (hb : b ∈ g.blocks)
    (hes : b.elements = pre ++ e :: post) (i : Nat) (lines : List Nat) :
    (o.pass false b.id i lines post).verdict = firstVerdict (o.judge e.key) post := by
  refine verdict_pass false b.id post i lines fun j x hx => ?_
  have hne := key_ne_behind hk hb hes (List.mem_of_getElem? hx)
  simp [verdict, judge, hne]

/-- What two obligations have to say of the rows for a search to come to the same result. -/
structure Accords (R : Row → Prop) (key key' : Address × Role) (o o' : Obligation) : Prop where
  atExit : o'.atExit = o.atExit
  judge : ∀ r, R r → firstVerdict (o'.judge key') r.placed = o.judge key r.whole
  last : ∀ r, R r → ∃ e, r.placed.getLast? = some e ∧ e.role = r.whole.role ∧
    (r.whole.role = .cond → ∀ k, o'.prune e k = o.prune r.whole k)
  behind : ∀ r, R r → r.whole.key = key → ∃ pre e post, r.placed = pre ++ e :: post ∧ e.key = key' ∧
    ∀ x ∈ post, o'.classify x = .pending

theorem getLast?_rows {rows : List Row} (h : ∀ r ∈ rows, r.placed ≠ []) :
    (rows.flatMap Row.placed).getLast? = rows.getLast?.bind fun r => r.placed.getLast? := by
  induction rows using List.reverseRecOn with
  | nil => rfl
  | append_singleton rows r _ =>
    have hr : r.placed ≠ [] := h r (by simp)
    rw [List.flatMap_append, List.flatMap_singleton, List.getLast?_append_of_ne_nil _ hr,
      List.getLast?_concat, Option.bind_some]

theorem Accords.followed (h : Accords R key key' o o') (hg : g.Splits R g') {b' : Block}
    (hb : b.Splits R b') : o'.followed g' b' = o.followed g b := by
  obtain ⟨rows, hrows, he, he'⟩ := hb.rows
  have hsuccessors : g'.successors b'.id = g.successors b.id := by
    rw [Graph.successors, Graph.successors, hg.edges, hb.id]
  have hne : ∀ r ∈ rows, r.placed ≠ [] := by
    intro r hr hnil
    obtain ⟨e, hlast, -⟩ := h.last r (hrows r hr)
    rw [hnil] at hlast
    cases hlast
  rw [Obligation.followed, Obligation.followed, he, he', getLast?_rows hne, List.getLast?_map,
    hsuccessors]
  cases hlast : rows.getLast? with
  | none => rfl
  | some r =>
    obtain ⟨e, hr, hrole, hprune⟩ := h.last r (hrows r (List.mem_of_getLast? hlast))
    simp only [Option.bind_some, Option.map_some, hr, hrole]
    split
    · rename_i hcond
      simp only [hprune (beq_iff_eq.mp hcond)]
    · rfl

theorem Accords.onward (h : Accords R key key' o o') (hg : g.Splits R g') {b' : Block}
    (hb : b.Splits R b') : o'.onward g' b' = o.onward g b := by
  rw [Obligation.onward, Obligation.onward, h.followed hg hb, hg.exit, h.atExit]

theorem block?_splits (hg : g.Splits R g') (id : Nat) : (g.block? id = none ∧ g'.block? id = none) ∨
    ∃ b b', g.block? id = some b ∧ g'.block? id = some b' ∧ b.Splits R b' := by
  rw [Graph.block?, Graph.block?]
  have hblocks := hg.blocks
  generalize g.blocks = bs at hblocks ⊢
  generalize g'.blocks = bs' at hblocks ⊢
  induction hblocks with
  | nil => exact .inl ⟨rfl, rfl⟩
  | @cons b b' bs bs' hb _ ih =>
    rw [List.find?_cons, List.find?_cons, hb.id]
    split
    · exact .inr ⟨b, b', rfl, rfl, hb⟩
    · exact ih

/-- Blocks that belong together leave an obligation open, settle it or break it together. -/
def SamePassage (g g' : Graph) (o o' : Obligation) (R : Row → Prop) : Prop :=
  ∀ b ∈ g.blocks, ∀ b' ∈ g'.blocks, b.Splits R b' → ∀ lines lines',
    (o'.pass true b'.id 0 lines' b'.elements).verdict =
      (o.pass true b.id 0 lines b.elements).verdict

theorem Accords.search (h : Accords R key key' o o') (hg : g.Splits R g')
    (hpass : SamePassage g g' o o' R) (fuel : Nat) (expanded : List Nat) (todo todo' : List Entry)
    (htodo : todo'.map Entry.block = todo.map Entry.block) :
    (o'.search g' fuel expanded todo').isSatisfied =
    (o.search g fuel expanded todo).isSatisfied := by
  induction fuel generalizing expanded todo todo' with
  | zero => rfl
  | succ fuel ih =>
    cases todo with
    | nil =>
      rw [List.map_eq_nil_iff.mp htodo]
      rfl
    | cons entry todo =>
      cases todo' with
      | nil => cases htodo
      | cons entry' todo' =>
        obtain ⟨hid, hrest⟩ := List.cons.inj htodo
        rw [Obligation.search, Obligation.search, hid]
        split
        · exact ih _ _ _ hrest
        rcases block?_splits hg entry.block with ⟨hb, hb'⟩ | ⟨b, b', hb, hb', hsplits⟩
        · rw [hb, hb']
          exact ih _ _ _ hrest
        · obtain ⟨hmem, hb₀⟩ := Graph.mem_of_block? hb
          obtain ⟨hmem', -⟩ := Graph.mem_of_block? hb'
          have hverdict := hpass b hmem b' hmem' hsplits entry.lines entry'.lines
          rw [hsplits.id, hb₀] at hverdict
          simp only [hb, hb', h.onward hg hsplits]
          generalize o.pass true entry.block 0 entry.lines b.elements = passage at hverdict ⊢
          generalize o'.pass true entry.block 0 entry'.lines b'.elements = passage' at hverdict ⊢
          cases passage <;> cases passage' <;> cases hverdict
          · exact ih _ _ _ hrest
          · rfl
          · cases o.onward g b with
            | none => rfl
            | some next =>
              refine ih _ _ _ ?_
              rw [List.map_append, List.map_append, hrest, List.map_map, List.map_map]
              rfl

theorem Accords.samePassage (h : Accords R key key' o o') (hu : g.Unique) (hu' : g'.Unique)
    (ht : g.position? key = some o.trigger) (ht' : g'.position? key' = some o'.trigger) :
    SamePassage g g' o o' R := by
  intro b hb b' hb' hsplits lines lines'
  obtain ⟨rows, hrows, he, he'⟩ := hsplits.rows
  rw [verdict_pass_start hu ht hb, verdict_pass_start hu' ht' hb', he, he']
  exact firstVerdict_rows fun r hr => h.judge r (hrows r hr)

def resume (o : Obligation) (g : Graph) (b : Block) : Passage → Coverage
  | .settled => .satisfied
  | .broken lines reason => .violated lines reason
  | .passed lines =>
    match o.onward g b with
    | none => .violated lines .exit
    | some next => o.search g (rounds g) [] (next.map (⟨·, lines⟩))

/-- The search starts behind the trigger in its block. -/
theorem coverage_eq (hu : g.Unique) (ht : g.position? key = some o.trigger) (hb : b ∈ g.blocks)
    (hes : b.elements = pre ++ e :: post) (he : e.key = key) :
    o.coverage g = o.resume g b (o.pass false b.id (pre.length + 1) [e.line] post) := by
  have hplace : ⟨b.id, pre.length⟩ = o.trigger :=
    (hu.keyed.place_iff hu.distinct ht (mem_placed_append hb hes)).mpr he
  have helement : g.elementAt? o.trigger = some e := by
    rw [← hplace, Graph.elementAt?, hu.distinct.block? hb, Option.bind_some, hes,
      List.getElem?_append_right (Nat.le_refl _), Nat.sub_self]
    rfl
  have hdrop : b.elements.drop (pre.length + 1) = post := by
    rw [hes, List.drop_append]
    simp
  rw [coverage, helement, ← hplace]
  simp only [hu.distinct.block? hb, hdrop]
  cases o.pass false b.id (pre.length + 1) [e.line] post <;> rfl

theorem Accords.resume (h : Accords R key key' o o') (hg : g.Splits R g')
    (hpass : SamePassage g g' o o' R) {b' : Block} (hb : b.Splits R b') {passage passage' : Passage}
    (hv : passage'.verdict = passage.verdict) :
    (o'.resume g' b' passage').isSatisfied = (o.resume g b passage).isSatisfied := by
  cases passage <;> cases passage' <;> cases hv
  · rfl
  · rfl
  · rw [Obligation.resume, Obligation.resume, h.onward hg hb, rounds, rounds, hg.edges]
    cases o.onward g b with
    | none => rfl
    | some next =>
      refine h.search hg hpass _ _ _ _ ?_
      rw [List.map_map, List.map_map]
      rfl

/-- Every path from the trigger settles the one obligation just if every path settles the other. -/
theorem Accords.coverage (h : Accords R key key' o o') (hg : g.Splits R g') (hu : g.Unique)
    (hu' : g'.Unique) (ht : g.position? key = some o.trigger)
    (ht' : g'.position? key' = some o'.trigger) :
    (o'.coverage g').isSatisfied = (o.coverage g).isSatisfied := by
  obtain ⟨e, hplaced, rfl⟩ := Graph.placed_of_position? ht
  obtain ⟨b, hb, hid, hget⟩ := Graph.mem_placed.mp hplaced
  rcases block?_splits hg b.id with ⟨hnone, -⟩ | ⟨b₀, b', hb₀, hb', hsplits⟩
  · rw [hu.distinct.block? hb] at hnone
    cases hnone
  rw [hu.distinct.block? hb] at hb₀
  cases hb₀
  obtain ⟨hmem', -⟩ := Graph.mem_of_block? hb'
  obtain ⟨rows, hrows, he, he'⟩ := hsplits.rows
  -- The row of the trigger, and the rows in front of it and behind it in the block.
  have hmem := List.mem_of_getElem? hget
  rw [he] at hmem
  obtain ⟨r, hr, rfl⟩ := List.mem_map.mp hmem
  obtain ⟨ps, e', qs, hparts, rfl, hqs⟩ := h.behind r (hrows r hr) rfl
  obtain ⟨pre, post, rfl⟩ := List.append_of_mem hr
  have hes : b.elements = pre.map Row.whole ++ r.whole :: post.map Row.whole := by
    rw [he, List.map_append, List.map_cons]
  have hes' :
      b'.elements = (pre.flatMap Row.placed ++ ps) ++ e' :: (qs ++ post.flatMap Row.placed) := by
    rw [he', List.flatMap_append, List.flatMap_cons, hparts]
    simp only [List.append_assoc, List.cons_append]
  have hpending : firstVerdict (o'.judge e'.key) qs = .pending :=
    firstVerdict_pending fun x hx => by
    rw [Obligation.judge, if_neg (key_ne_behind hu'.keyed hmem' hes' (List.mem_append_left _ hx))]
    exact hqs x hx
  rw [coverage_eq hu ht hb hes rfl, coverage_eq hu' ht' hmem' hes' rfl]
  refine h.resume hg (h.samePassage hu hu' ht ht') hsplits ?_
  rw [verdict_pass_behind hu.keyed hb hes, verdict_pass_behind hu'.keyed hmem' hes',
    firstVerdict_append, if_pos hpending]
  exact firstVerdict_rows fun x hx => h.judge x (hrows x (by simp [hx]))

end Obligation

end JniContracts.Flow
