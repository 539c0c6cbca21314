import JniContracts.Proofs.BlockEnds
import JniContracts.Proofs.EdgeLists

/-!
The shape of control-flow graphs. A finished graph keeps the blocks that control can come to and the
exit, with all edges between them. Control goes on from every kept block but the exit, and where it
can go on in several ways the last element of the block is the condition that decides.
-/

namespace JniContracts.Flow

open Execution

namespace Sealed

variable {b : Nat} {es : List Element} {edges : List Edge}

theorem ne_nil (h : Sealed b es edges) : edges ≠ [] := by
  cases h with
  | single | branch => simp
  | choice _ _ _ hne => exact hne

theorem nodup (h : Sealed b es edges) : edges.Nodup := by
  cases h with
  | single => simp
  | @branch _ e => cases e.alwaysHolds <;> simp
  | choice _ _ _ _ hn => exact hn

/-- A `goto` is the only way on from its block, so it does not matter when it is linked. -/
theorem comm_of_goto {gotos : List Edge} (h : Sealed b es (gotos ++ edges))
    (hg : ∀ x ∈ gotos, x.kind = .goto) : gotos ++ edges = edges ++ gotos := by
  have hout : 1 < (gotos ++ edges).length → gotos = [] := by
    intro hlen
    refine List.eq_nil_iff_forall_not_mem.mpr fun x hx => ?_
    have hmem : x ∈ gotos ++ edges := List.mem_append_left _ hx
    have hkind := hg x hx
    generalize gotos ++ edges = all at h hlen hmem
    cases h with
    | single => simp at hlen
    | @branch _ e => cases hh : e.alwaysHolds <;> simp [hh] at hmem hlen; grind
    | choice _ _ _ _ _ hk => exact hk x hmem hkind
  cases gotos with
  | nil => simp
  | cons x gotos =>
    cases edges with
    | nil => simp
    | cons y edges => simp at hout

theorem eq_length_of_cond (h : Sealed b es edges) {i : Nat} {e : Element} (hi : es[i]? = some e)
    (he : e.role = .cond) : i + 1 = es.length := by
  have hlast : ∀ (pre : List Element) (x : Element), Straight pre → (pre ++ [x])[i]? = some e →
      i + 1 = (pre ++ [x]).length := by
    intro pre x hpre hi
    obtain ⟨hlt, -⟩ := List.getElem?_eq_some_iff.mp hi
    rw [List.length_append, List.length_singleton] at hlt ⊢
    by_cases hin : i < pre.length
    · rw [List.getElem?_append_left hin] at hi
      exact absurd he (hpre e (List.mem_of_getElem? hi))
    · omega
  cases h with
  | single hs => exact absurd he (hs e (List.mem_of_getElem? hi))
  | branch hs => exact hlast _ _ hs hi
  | choice hs => exact hlast _ _ hs hi

theorem role_of_isBranch {e : Element} (h : e.isBranch = true) : e.role = .cond := by
  simp only [Element.isBranch, Bool.and_eq_true, beq_iff_eq] at h
  exact h.1

theorem getLast?_of_ways (h : Sealed b es edges) (hlen : 1 < edges.length) :
    ∃ e, es.getLast? = some e ∧ e.role = .cond := by
  cases h with
  | single => simp at hlen
  | @branch _ e _ _ _ he => exact ⟨e, by simp, role_of_isBranch he⟩
  | @choice _ e _ _ hr => exact ⟨e, by simp, hr⟩

theorem edges_of_branch (h : Sealed b es edges) {e : Element} (hl : es.getLast? = some e)
    (he : e.isBranch = true) :
    ∃ yes no, edges = ⟨b, yes, .branchTrue⟩ :: if e.alwaysHolds then []
    else [⟨b, no, .branchFalse⟩] := by
  cases h with
  | single hs => exact absurd (role_of_isBranch he) (hs e (List.mem_of_getLast? hl))
  | @branch _ e' yes no =>
    rw [List.getLast?_append, List.getLast?_singleton, Option.some_or, Option.some.injEq] at hl
    exact ⟨yes, no, by rw [hl]⟩
  | @choice _ e' _ _ _ hb =>
    rw [List.getLast?_append, List.getLast?_singleton, Option.some_or, Option.some.injEq] at hl
    rw [hl, he] at hb
    cases hb

end Sealed

variable {exits : List String} {f : Function} {g : Graph} {d : Draft} {e : Edge} {made : List Block}
  {links : List Edge} {b : Block}

theorem filter_resolve (labels : List (String × Nat)) (ps : List Pending) (b : Nat) :
    (ps.filterMap (resolve labels)).filter (·.source == b) =
    (ps.filter (·.source == b)).filterMap (resolve labels) := by
  rw [List.filter_filterMap, List.filterMap_filter]
  refine List.filterMap_congr fun p _ => ?_
  cases h : labels.lookup p.label <;> simp [resolve, h, Option.filter_some]

theorem kind_of_resolve {labels : List (String × Nat)} {ps : List Pending}
    (h : e ∈ ps.filterMap (resolve labels)) : e.kind = .goto := by
  obtain ⟨p, -, hp⟩ := List.mem_filterMap.mp h
  obtain ⟨t, -, rfl⟩ := Option.map_eq_some_iff.mp hp
  rfl

/-- The draft of a function when its gotos are linked: all blocks but the exit are sealed. -/
structure Completed (d : Draft) : Prop where
  ids : d.blocks.toList.map Block.id = List.range d.size
  size : 2 < d.size
  source : ∀ e ∈ d.edges.toList, e.source < d.size
  target : ∀ e ∈ d.edges.toList, e.target < d.size
  sealed : ∀ b, b < d.size → b ≠ exitId →
    Sealed b (d.code b) (d.edges.toList.filter (·.source == b))
  entry : d.code 0 = [] ∧ d.edges.toList.filter (·.source == 0) = [⟨0, 2, .fallThrough⟩]
  exit : d.code exitId = [] ∧ d.edges.toList.filter (·.source == exitId) = []

theorem completed_of_addFunction (h : addFunction exits f emptyDraft = .ok ((), d)) :
    Completed d := by
  obtain ⟨D₀, hdrawn, hblocks₀, hedges₀⟩ := drawn_of_addFunction h
  obtain ⟨r, d₁, hrun, hgotos⟩ := addFunction_ok h
  obtain ⟨hresolved, hblocks, hedges⟩ := linkGotos_ok hgotos
  obtain ⟨⟨cs, hadds⟩, hseals⟩ := (sealing f.body).part hrun
    (opened_blank (d₁.leave r exitId .ret).labels) (code_blank 2) hresolved exitId .ret (by simp)
  rw [← d₁.gotos_leave r exitId .ret] at hedges
  generalize d₁.leave r exitId .ret = D at *
  have hsize₀ : d.size = D₀.size := by rw [Draft.size, hblocks₀, Draft.size]
  have hsize : d.size = D.size := by rw [Draft.size, hblocks, Draft.size]
  have hcode : ∀ b, d.code b = D.code b := fun b => by rw [Draft.code, hblocks, Draft.code]
  have hedge : ∀ b, d.edges.toList.filter (·.source == b) =
      D.edges.toList.filter (·.source == b) ++ (D.gotos.filter (·.source == b)).filterMap
      (resolve D.labels) := by
    intro b
    rw [hedges, List.filter_append, filter_resolve]
  have hcode₀ : ∀ b, b < 2 → D.code b = [] := fun b hb => by
    rw [hadds.code b (by rw [size_blank]; omega) (by simp; omega), code_blank]
  have hout₀ : ∀ b, b < 2 → D.out D.labels b = if b = 0 then [⟨0, 2, .fallThrough⟩] else [] :=
    fun b hb => by
    rw [hadds.out b (by rw [size_blank]; omega) (by simp; omega) (by simp), out_blank]
  have hsealed : ∀ b, b < D.size → b ≠ exitId → Sealed b (D.code b) (D.out D.labels b) := by
    intro b hb hne
    by_cases hentry : b = 0
    · rw [hentry, hcode₀ 0 (by decide), hout₀ 0 (by decide)]
      exact .single straight_nil
    · refine hseals.closed b hb ?_ (by simp)
      simp only [Option.some.injEq, size_blank]
      rw [exitId] at hne
      omega
  have hlinked :
      ∀ b, b < D.size → b ≠ exitId → d.edges.toList.filter (·.source == b) = D.out D.labels b := by
    intro b hb hne
    rw [hedge]
    exact ((hsealed b hb hne).comm_of_goto fun e he => kind_of_resolve he).symm
  have hexit := hout₀ exitId (by decide)
  rw [Draft.out, if_neg (by decide), List.append_eq_nil_iff] at hexit
  have hlt := hdrawn.size
  refine ⟨?_, by omega, ?_, ?_, fun b hb hne => ?_, ⟨?_, ?_⟩, ?_, ?_⟩
  · rw [hblocks₀, hdrawn.sound.map_id, hsize₀]
  · rw [hsize₀, hedges₀]
    exact hdrawn.source_lt
  · rw [hsize₀, hedges₀]
    exact hdrawn.edge_lt
  · rw [hcode, hlinked b (by omega) hne]
    exact hsealed b (by omega) hne
  · rw [hcode, hcode₀ 0 (by decide)]
  · rw [hlinked 0 (by omega) (by decide), hout₀ 0 (by decide), if_pos rfl]
  · rw [hcode, hcode₀ exitId (by decide)]
  · rw [hedge, hexit.1, hexit.2, List.append_nil]

namespace Draft

def isKept (d : Draft) (id : Nat) : Bool :=
  (reachable d.edges.toList d.size).contains id || id == exitId

theorem blocks_finish (d : Draft) :
    d.finish.blocks = d.blocks.toList.filter fun b => d.isKept b.id := rfl

theorem unreachable_finish (d : Draft) :
    d.finish.unreachable = d.blocks.toList.filter fun b => !d.isKept b.id := rfl

theorem edges_finish (d : Draft) :
    d.finish.edges = d.edges.toList.filter fun e => d.isKept e.source && d.isKept e.target := rfl

theorem mem_edges_finish {d : Draft} :
    e ∈ d.finish.edges ↔
    e ∈ d.edges.toList ∧ d.isKept e.source = true ∧ d.isKept e.target = true := by
  rw [edges_finish, List.mem_filter, Bool.and_eq_true]

end Draft

namespace Completed

theorem isKept_iff (h : Completed d) (id : Nat) :
    d.isKept id = true ↔ Reached d.edges.toList id ∨ id = exitId := by
  have hz : 0 < d.size := Nat.lt_trans (by decide) h.size
  simp [Draft.isKept, mem_reachable hz h.target]

theorem lt_of_isKept (h : Completed d) {id : Nat} (hk : d.isKept id = true) : id < d.size := by
  rcases (h.isKept_iff id).mp hk with hr | rfl
  · exact hr.lt (Nat.lt_trans (by decide) h.size) h.target
  · exact Nat.lt_trans (by decide) h.size

theorem getElem?_id (h : Completed d) (hb : b ∈ d.blocks.toList) : d.blocks[b.id]? = some b := by
  obtain ⟨i, hi⟩ := List.getElem?_of_mem hb
  have hid : (List.range d.size)[i]? = some b.id := by
    rw [← h.ids, List.getElem?_map, hi, Option.map_some]
  obtain ⟨hlt, hget⟩ := List.getElem?_eq_some_iff.mp hid
  rw [List.getElem_range] at hget
  rw [← hget, ← Array.getElem?_toList, hi]

theorem code (h : Completed d) (hb : b ∈ d.blocks.toList) : d.code b.id = b.elements := by
  rw [Draft.code, h.getElem?_id hb, Option.map_some, Option.getD_some]

theorem has_finish (h : Completed d) {id : Nat} : d.finish.Has id ↔ d.isKept id = true := by
  constructor
  · rintro ⟨b, hb, rfl⟩
    exact (List.mem_filter.mp hb).2
  · intro hk
    have hid : id ∈ d.blocks.toList.map Block.id := h.ids ▸ List.mem_range.mpr (h.lt_of_isKept hk)
    obtain ⟨b, hb, rfl⟩ := List.mem_map.mp hid
    exact ⟨b, List.mem_filter.mpr ⟨hb, hk⟩, rfl⟩

/-- All ways on from a kept block are kept. -/
theorem kept_target (h : Completed d) (he : e ∈ d.edges.toList) (hk : d.isKept e.source = true) :
    d.isKept e.target = true := by
  rw [h.isKept_iff] at hk ⊢
  refine .inl ((hk.resolve_right fun hexit => ?_).tail ⟨e, he, rfl, rfl⟩)
  have hm : e ∈ d.edges.toList.filter (·.source == exitId) :=
    List.mem_filter.mpr ⟨he, by simp [hexit]⟩
  rw [h.exit.2] at hm
  cases hm

theorem successors (h : Completed d) {id : Nat} (hk : d.isKept id = true) :
    d.finish.successors id = d.edges.toList.filter (·.source == id) := by
  rw [Graph.successors, Draft.edges_finish, List.filter_filter]
  refine List.filter_congr fun e he => ?_
  by_cases hs : e.source = id
  · have ht := h.kept_target he (hs ▸ hk)
    simp [hs, hk, ht]
  · simp [hs]

theorem nodup_edges (h : Completed d) : d.edges.toList.Nodup := by
  refine List.nodup_iff_count_le_one.mpr fun e => ?_
  by_cases he : e ∈ d.edges.toList
  · have hout : e ∈ d.edges.toList.filter (·.source == e.source) :=
      List.mem_filter.mpr ⟨he, by simp⟩
    have hne : e.source ≠ exitId := by
      intro hexit
      rw [hexit, h.exit.2] at hout
      cases hout
    have hnodup := (h.sealed e.source (h.source e he) hne).nodup
    have hcount := List.nodup_iff_count_le_one.mp hnodup e
    rwa [List.count_filter (by simp)] at hcount
  · rw [List.count_eq_zero_of_not_mem he]
    exact Nat.zero_le 1

theorem count_edges (h : Completed d) (he : e ∈ d.finish.edges) : d.finish.edges.count e = 1 :=
  List.count_eq_one_of_mem (h.nodup_edges.filter _) he

theorem contains_dropped (h : Completed d) {id : Nat} (hid : id < d.size) :
    (d.finish.unreachable.map Block.id).contains id = !d.isKept id := by
  rw [Bool.eq_iff_iff, List.contains_iff_mem, List.mem_map]
  constructor
  · rintro ⟨b, hb, rfl⟩
    exact (List.mem_filter.mp hb).2
  · intro hk
    have hmade : id ∈ d.blocks.toList.map Block.id := h.ids ▸ List.mem_range.mpr hid
    obtain ⟨b, hb, rfl⟩ := List.mem_map.mp hmade
    exact ⟨b, List.mem_filter.mpr ⟨hb, hk⟩, rfl⟩

theorem lists (h : Completed d) (id : Nat) :
    ((Links.ofEdges d.edges.toList).cut (d.finish.unreachable.map Block.id)).out id =
        d.finish.successors id ∧
      ((Links.ofEdges d.edges.toList).cut (d.finish.unreachable.map Block.id)).into id =
        d.finish.predecessors id := by
  rw [Links.out_cut_ofEdges, Links.into_cut_ofEdges h.nodup_edges, Graph.successors,
    Graph.predecessors, Draft.edges_finish, List.filter_filter, List.filter_filter]
  constructor
  · refine List.filter_congr fun e he => ?_
    rw [h.contains_dropped (h.source e he), Bool.not_not]
    cases hk : d.isKept e.source with
    | false => simp
    | true => simp [h.kept_target he hk]
  · refine List.filter_congr fun e he => ?_
    rw [h.contains_dropped (h.source e he), h.contains_dropped (h.target e he), Bool.not_not,
      Bool.not_not, Bool.and_assoc]

end Completed

theorem completed_of_build (h : build exits f = .ok g) :
    ∃ d, addFunction exits f emptyDraft = .ok ((), d) ∧ Completed d ∧ g = d.finish := by
  obtain ⟨d, hrun, rfl⟩ := build_run h
  exact ⟨d, hrun, completed_of_addFunction hrun, rfl⟩

theorem sealed_of_build (h : build exits f = .ok g) (hb : b ∈ g.blocks) (hne : b.id ≠ g.exit) :
    Sealed b.id b.elements (g.successors b.id) := by
  obtain ⟨d, -, hd, rfl⟩ := completed_of_build h
  obtain ⟨hmem, hk⟩ := List.mem_filter.mp hb
  rw [hd.successors hk, ← hd.code hmem]
  exact hd.sealed b.id (hd.lt_of_isKept hk) hne

theorem exit_of_build (h : build exits f = .ok g) (hb : b ∈ g.blocks) (hexit : b.id = g.exit) :
    b.elements = [] ∧ g.successors b.id = [] := by
  obtain ⟨d, -, hd, rfl⟩ := completed_of_build h
  obtain ⟨hmem, hk⟩ := List.mem_filter.mp hb
  rw [hd.successors hk, ← hd.code hmem, hexit]
  exact hd.exit

def Joined (edges : List Edge) : Nat → Nat → Prop :=
  Relation.ReflTransGen fun a b => ∃ e ∈ edges, e.source = a ∧ e.target = b

/-- A finished graph, told from the blocks and edges that were made for it. -/
structure Graph.Formed (g : Graph) (made : List Block) (links : List Edge) : Prop where
  numbered : made.map Block.id = List.range made.length
  blocks : g.blocks.Sublist made
  unreachable : g.unreachable.Sublist made
  partition : (g.blocks ++ g.unreachable).Perm made
  kept : ∀ b ∈ made, b ∈ g.blocks ↔ Joined links g.entry b.id ∨ b.id = g.exit
  joined : ∀ b ∈ g.blocks, Joined g.edges g.entry b.id ∨ b.id = g.exit
  /-- Kept blocks keep their edges, and all of these are edges between kept blocks. -/
  out : ∀ b ∈ g.blocks, g.successors b.id = links.filter (·.source == b.id)
  /-- These are the lists that blocks have of their edges when those of the others are cut off. -/
  lists : ∀ id, ((Links.ofEdges links).cut (g.unreachable.map Block.id)).out id = g.successors id ∧
    ((Links.ofEdges links).cut (g.unreachable.map Block.id)).into id = g.predecessors id
  forth : ∀ b ∈ g.blocks, ∀ e ∈ g.successors b.id,
    g.Has e.source ∧ g.Has e.target ∧ (g.predecessors e.target).count e = 1
  back : ∀ b ∈ g.blocks, ∀ e ∈ g.predecessors b.id,
    g.Has e.source ∧ g.Has e.target ∧ (g.successors e.source).count e = 1
  cut : ∀ b ∈ g.unreachable, g.successors b.id = [] ∧ g.predecessors b.id = []
  entry : ∃ b ∈ g.blocks, b.id = g.entry ∧ b.elements = [] ∧ ∃ e, g.successors b.id = [e]
  exit : ∃ b ∈ g.blocks, b.id = g.exit ∧ b.elements = [] ∧ g.successors b.id = []
  /-- Control goes on from every kept block but the exit. -/
  onward : ∀ b ∈ g.blocks, b.id ≠ g.exit → g.successors b.id ≠ []

namespace Completed

theorem joined_of_reached (h : Completed d) {id : Nat} (hr : Reached d.edges.toList id) :
    Joined d.finish.edges 0 id := by
  induction hr with
  | refl => exact .refl
  | tail hr he ih =>
    obtain ⟨e, he, rfl, rfl⟩ := he
    have hk := (h.isKept_iff _).mpr (.inl hr)
    exact ih.tail ⟨e, Draft.mem_edges_finish.mpr ⟨he, hk, h.kept_target he hk⟩, rfl, rfl⟩

theorem has_of_mem_edges (h : Completed d) (he : e ∈ d.finish.edges) :
    d.finish.Has e.source ∧ d.finish.Has e.target := by
  rw [h.has_finish, h.has_finish]
  exact (Draft.mem_edges_finish.mp he).2

theorem formed (h : Completed d) : d.finish.Formed d.blocks.toList d.edges.toList := by
  have hkept : ∀ b ∈ d.finish.blocks, b ∈ d.blocks.toList ∧ d.isKept b.id = true :=
    fun b hb => List.mem_filter.mp hb
  have hhas : ∀ id, d.isKept id = true → ∃ b ∈ d.finish.blocks, b.id = id :=
    fun id => h.has_finish.mpr
  have hexit : d.isKept exitId = true := (h.isKept_iff _).mpr (.inr rfl)
  have hentry : d.isKept 0 = true := (h.isKept_iff _).mpr (.inl .refl)
  refine ⟨?_, List.filter_sublist, List.filter_sublist, List.filter_append_perm _ _, fun b hb => ?_,
    fun b hb => ?_, fun b hb => h.successors (hkept b hb).2, h.lists, fun b _ e he => ?_,
    fun b _ e he => ?_, fun b hb => ?_, ?_, ?_, fun b hb hne => ?_⟩
  · rw [h.ids, Array.length_toList, Draft.size]
  · rw [Draft.blocks_finish, List.mem_filter, h.isKept_iff]
    exact and_iff_right hb
  · exact ((h.isKept_iff _).mp (hkept b hb).2).imp_left h.joined_of_reached
  · have he := (List.mem_filter.mp he).1
    obtain ⟨hs, ht⟩ := h.has_of_mem_edges he
    exact ⟨hs, ht, by rw [Graph.predecessors, List.count_filter (by simp), h.count_edges he]⟩
  · have he := (List.mem_filter.mp he).1
    obtain ⟨hs, ht⟩ := h.has_of_mem_edges he
    exact ⟨hs, ht, by rw [Graph.successors, List.count_filter (by simp), h.count_edges he]⟩
  · rw [Draft.unreachable_finish, List.mem_filter] at hb
    have hcut : ¬d.isKept b.id = true := by simpa using hb.2
    constructor
    · refine List.filter_eq_nil_iff.mpr fun e he hs => hcut ?_
      exact beq_iff_eq.mp hs ▸ (Draft.mem_edges_finish.mp he).2.1
    · refine List.filter_eq_nil_iff.mpr fun e he ht => hcut ?_
      exact beq_iff_eq.mp ht ▸ (Draft.mem_edges_finish.mp he).2.2
  · obtain ⟨b, hb, hid⟩ := hhas 0 hentry
    refine ⟨b, hb, hid, ?_, ⟨0, 2, .fallThrough⟩, ?_⟩
    · rw [← h.code (hkept b hb).1, hid, h.entry.1]
    · rw [hid, h.successors hentry, h.entry.2]
  · obtain ⟨b, hb, hid⟩ := hhas exitId hexit
    refine ⟨b, hb, hid, ?_, ?_⟩
    · rw [← h.code (hkept b hb).1, hid, h.exit.1]
    · rw [hid, h.successors hexit, h.exit.2]
  · rw [h.successors (hkept b hb).2]
    exact (h.sealed _ (h.lt_of_isKept (hkept b hb).2) hne).ne_nil

end Completed

def Graph.Stands (g : Graph) (p : Position) : Prop :=
  ∃ b ∈ g.blocks, p.block = b.id ∧ p.index ≤ b.elements.length

theorem Graph.Formed.stands_of_moves (h : g.Formed made links) {p q : Position}
    {m : Move} (hm : g.Moves p m q) : g.Stands q := by
  cases hm with
  | run hb he => exact ⟨_, hb, rfl, (List.getElem?_eq_some_iff.mp he).1⟩
  | take hb he =>
    obtain ⟨-, ⟨b, hb', hid⟩, -⟩ := h.forth _ hb _ he
    exact ⟨b, hb', hid.symm, Nat.zero_le _⟩

theorem Graph.Formed.stands_of_walk (h : g.Formed made links) {p q : Position}
    {ms : List Move} (hw : g.Walk p ms q) (hp : g.Stands p) : g.Stands q := by
  induction hw with
  | refl p => exact hp
  | step hm _ ih => exact ih (h.stands_of_moves hm)

theorem Graph.Formed.moves_or_exit (h : g.Formed made links) (hd : g.Distinct) {p : Position}
    (hp : g.Stands p) : p = ⟨g.exit, 0⟩ ∨ ∃ m q, g.Moves p m q := by
  obtain ⟨n, i⟩ := p
  obtain ⟨b, hb, rfl, hi⟩ := hp
  by_cases hlt : i < b.elements.length
  · exact .inr ⟨_, _, .run hb (List.getElem?_eq_getElem hlt)⟩
  · have hend : i = b.elements.length := by
      dsimp only at hi
      omega
    subst hend
    by_cases hexit : b.id = g.exit
    · obtain ⟨b', hb', hid, hcode, -⟩ := h.exit
      have hsame := hd.eq_of_id hb hb' (hexit.trans hid.symm)
      subst hsame
      exact .inl (by rw [hcode, hid, List.length_nil])
    · obtain ⟨e, he⟩ := List.exists_mem_of_ne_nil _ (h.onward b hb hexit)
      exact .inr ⟨_, _, .take hb he⟩

/-- The graph of a function is well formed, and a walk from its entry can go on until it is at the
exit. -/
theorem build_formed (h : build exits f = .ok g) :
    ∃ d, (addFunction exits f).run emptyDraft = .ok ((), d) ∧
      g.Formed d.blocks.toList d.edges.toList ∧
      ∀ ms p, g.Walk ⟨g.entry, 0⟩ ms p → p = ⟨g.exit, 0⟩ ∨ ∃ m q, g.Moves p m q := by
  obtain ⟨d, hrun, hd, rfl⟩ := completed_of_build h
  have hformed := hd.formed
  refine ⟨d, hrun, hformed, fun ms p hw => ?_⟩
  obtain ⟨b, hb, hid, -⟩ := hformed.entry
  have hdistinct : d.finish.Distinct := by
    refine List.Nodup.sublist (hformed.blocks.map _) ?_
    rw [hformed.numbered]
    exact List.nodup_range
  exact hformed.moves_or_exit hdistinct (hformed.stands_of_walk hw ⟨b, hb, hid.symm, Nat.zero_le _⟩)

theorem build_formed_entangled :
    ∃ g d, build defaultExitFunctions entangled = .ok g ∧ g.unreachable ≠ [] ∧
      (addFunction defaultExitFunctions entangled).run emptyDraft = .ok ((), d) ∧
      g.Formed d.blocks.toList d.edges.toList ∧
      ∀ ms p, g.Walk ⟨g.entry, 0⟩ ms p → p = ⟨g.exit, 0⟩ ∨ ∃ m q, g.Moves p m q := by
  obtain ⟨g, h, hcut⟩ := exists_of_any (x := build defaultExitFunctions entangled)
    (p := (!·.unreachable.isEmpty)) (by decide +kernel)
  obtain ⟨d, hrun, hformed, hwalk⟩ := build_formed h
  exact ⟨g, d, h, by simpa using hcut, hrun, hformed, hwalk⟩

/-- Only the last element of a block is a condition, where control goes on in several ways there is
one, and the condition of an `if`, a `while` or a `for` has an edge for each way it can go and no
other. -/
theorem build_conditions_last (h : build exits f = .ok g) {b : Block} (hb : b ∈ g.blocks) :
    (∀ i e, b.elements[i]? = some e → e.role = .cond → i + 1 = b.elements.length) ∧
    (1 < (g.successors b.id).length → ∃ e, b.elements.getLast? = some e ∧ e.role = .cond) ∧
    ∀ e, b.elements.getLast? = some e → e.isBranch = true →
      ∃ yes no, g.successors b.id =
        ⟨b.id, yes, .branchTrue⟩ :: if e.alwaysHolds then [] else [⟨b.id, no, .branchFalse⟩] := by
  by_cases hexit : b.id = g.exit
  · obtain ⟨hcode, hout⟩ := exit_of_build h hb hexit
    simp [hcode, hout]
  · have hsealed := sealed_of_build h hb hexit
    exact ⟨fun i e => hsealed.eq_length_of_cond, hsealed.getLast?_of_ways,
      fun e => hsealed.edges_of_branch⟩

/-- `while (1) if (n) return;` -/
def patient : Function where
  name := "patient"
  params := []
  locals := []
  pos := ⟨1, 1⟩
  body := .whileDo (.literal "1" .number ⟨1, 8⟩)
    (.ifElse (.name "n" ⟨1, 15⟩) (.ret none ⟨1, 18⟩) none ⟨1, 11⟩) ⟨1, 1⟩

theorem build_conditions_last_patient :
    ∃ g b, build defaultExitFunctions patient = .ok g ∧ b ∈ g.blocks ∧
    (∃ e, b.elements.getLast? = some e ∧ e.alwaysHolds = true) ∧
    (∀ i e, b.elements[i]? = some e → e.role = .cond → i + 1 = b.elements.length) ∧
    (1 < (g.successors b.id).length → ∃ e, b.elements.getLast? = some e ∧ e.role = .cond) ∧
    ∀ e, b.elements.getLast? = some e → e.isBranch = true → ∃ yes no, g.successors b.id =
      ⟨b.id, yes, .branchTrue⟩ :: if e.alwaysHolds then [] else [⟨b.id, no, .branchFalse⟩] := by
  obtain ⟨g, h, hsome⟩ := exists_of_any (x := build defaultExitFunctions patient)
    (p := (·.blocks.any (·.elements.getLast?.any Element.alwaysHolds))) (by decide +kernel)
  obtain ⟨b, hb, hholds⟩ := List.any_eq_true.mp hsome
  exact ⟨g, b, h, hb, by simpa [Option.any_eq_true] using hholds, build_conditions_last h hb⟩

end JniContracts.Flow
