import JniContracts.Proofs.Edits
import JniContracts.Proofs.Elements
import JniContracts.Proofs.Lowering
import JniContracts.Proofs.Reachable
import JniContracts.Proofs.Simulation
import JniContracts.Proofs.Walk
import Mathlib.Data.List.Flatten

/-!
The control-flow graph of a function keeps the control flow of its body: the walks through the graph
from its entry show the same events as the executions of the body.
-/

namespace JniContracts.Flow

open Execution

def Draft.chart (d : Draft) : Chart := ⟨d.code, d.out d.labels⟩

/-- The draft of a function before gotos are linked. -/
structure Drawn (exits : List String) (body : Stmt) (d : Draft) : Prop where
  charted : Charted d.chart exits d.labels body ⟨2, 0⟩
  sound : d.Sound
  elements : d.elements.Perm (body.elements.filter Element.isPlaced)
  entry : d.chart.Leads ⟨0, 0⟩ 2
  size : 2 < d.size

variable {d d' : Draft}

theorem linkGotos_ok {ps : List Pending} (h : linkGotos ps d = .ok ((), d')) :
    (∀ p ∈ ps, ∃ t, d.labels.lookup p.label = some t) ∧ d'.blocks = d.blocks ∧
    d'.edges.toList = d.edges.toList ++ ps.filterMap (resolve d.labels) := by
  induction ps generalizing d with
  | nil =>
    cases h
    simp
  | cons p ps ih =>
    rw [linkGotos] at h
    obtain ⟨d₀, d₁, hget, hrun⟩ := bind_ok h
    cases hget
    obtain ⟨t, d₂, ht, hrest⟩ := bind_ok hrun
    obtain ⟨hl, rfl⟩ := target_ok ht
    rw [link_bind] at hrest
    obtain ⟨hps, hblocks, hedges⟩ := ih hrest
    refine ⟨fun p' hp => ?_, hblocks, ?_⟩
    · rcases List.mem_cons.mp hp with rfl | hp
      · exact ⟨t, hl⟩
      · exact hps p' hp
    · simp [hedges, Draft.link, resolve, hl]

def emptyDraft : Draft := ⟨#[], #[], [], []⟩

def blankDraft : Draft :=
  emptyDraft.push .entry |>.push .exit |>.push .body |>.link ⟨0, 2, .fallThrough⟩

theorem size_blank : blankDraft.size = 3 := rfl

theorem code_blank (b : Nat) : blankDraft.code b = [] := by
  have h : emptyDraft.code b = [] := rfl
  simp [blankDraft, h]

theorem out_blank (labels : List (String × Nat)) (b : Nat) :
    blankDraft.out labels b = if b = 0 then [⟨0, 2, .fallThrough⟩] else [] := by
  have h : emptyDraft.out labels b = [] := rfl
  simp [blankDraft, h]

theorem sound_blank : blankDraft.Sound := by
  have h : emptyDraft.Sound := by constructor <;> simp [emptyDraft]
  exact (((h.push _).push _).push _).link (by decide) (by decide)

theorem opened_blank (labels : List (String × Nat)) : Opened labels (some 2) none blankDraft := by
  refine ⟨fun b hb => ?_, ?_, by simp⟩
  · rw [size_blank] at hb
    have hne : b ≠ 0 := by omega
    simp [out_blank, hne]
  · rintro _ ⟨⟩
    exact ⟨by decide, by simp [out_blank]⟩

variable {f : Function}

theorem addFunction_ok {exits : List String} (h : addFunction exits f emptyDraft = .ok ((), d')) :
    ∃ r d₁, addStmt exits ⟨none, none, none⟩ [] [] f.body (some 2) blankDraft = .ok (r, d₁) ∧
      linkGotos d₁.gotos (d₁.leave r exitId .ret) = .ok ((), d') := by
  rw [addFunction] at h
  simp only [newBlock_bind, link_bind] at h
  obtain ⟨r, d₁, hrun, hrest⟩ := bind_ok h
  rw [linkFrom_bind] at hrest
  obtain ⟨d₀, d₂, hget, hrest⟩ := bind_ok hrest
  cases hget
  refine ⟨r, d₁, hrun, ?_⟩
  rw [← Draft.gotos_leave d₁ r exitId .ret]
  exact hrest

theorem drawn_of_addFunction {exits : List String}
    (h : addFunction exits f emptyDraft = .ok ((), d')) :
    ∃ d, Drawn exits f.body d ∧ d'.blocks = d.blocks ∧
    d'.edges.toList = d.edges.toList ++ d.gotos.filterMap (resolve d.labels) := by
  obtain ⟨r, d₁, hrun, hgotos⟩ := addFunction_ok h
  obtain ⟨hresolved, hblocks, hedges⟩ := linkGotos_ok hgotos
  have hg := d₁.gotos_leave r exitId .ret
  rw [← hg] at hedges hresolved
  obtain ⟨⟨es, hes, hperm⟩, hnext⟩ := editable f.body _ _ _ _ _ _ _ hrun
    ⟨by decide, by simp, by simp, by simp⟩ (by simp [size_blank])
  obtain ⟨cs, hlays⟩ :=
    adequate f.body _ _ _ _ _ _ _ hrun (opened_blank (d₁.leave r exitId .ret).labels)
  have hnamed := hlays.named
  rw [← d₁.labels_leave r exitId .ret] at hnamed
  obtain ⟨hadds, hlaid⟩ := hlays.leave (opened_blank _) exitId .ret (by simp)
  have hedits : Edits blankDraft es (d₁.leave r exitId .ret) :=
    hes.leave hnext (Nat.lt_of_lt_of_le (by decide) hes.size_le)
  generalize d₁.leave r exitId .ret = d at *
  have hsound := hedits.sound sound_blank
  have hsize := hadds.size
  rw [size_blank] at hsize
  have hcode : ∀ b, b < 2 → d.code b = [] := fun b hb => by
    rw [hadds.code b (by rw [size_blank]; omega) (by simp; omega), code_blank]
  have hout : ∀ b, b < 2 → d.out d.labels b = if b = 0 then [⟨0, 2, .fallThrough⟩] else [] :=
    fun b hb => by
    rw [hadds.out b (by rw [size_blank]; omega) (by simp; omega) (by simp), out_blank]
  refine ⟨d, ⟨⟨?_, fun name t ht => ?_, fun name t t' ht ht' => ?_, hcode exitId (by decide), ?_⟩,
    hsound, ?_, ⟨.fallThrough, ⟨?_, hout 0 (by decide)⟩, decided_eq_nil (by simp)⟩, by omega⟩,
    hblocks, hedges⟩
  · obtain ⟨out, hl, hj⟩ :=
      hlaid d.chart ⟨fun _ _ _ _ => ⟨rfl, rfl⟩, by simp, List.Subset.refl _, hresolved⟩
    rw [Draft.front_new (code_blank 2)] at hl
    exact ⟨cs, ⟨none, none, none⟩, out, hl, ⟨rfl, rfl⟩, fun o ho => (hj o ho).skips⟩
  · obtain ⟨l, k, s, p, hw, hs⟩ :=
      (hnamed _ ht).resolve_left (by simp [blankDraft, Draft.link, Draft.push, emptyDraft]) .stop
    exact ⟨l.child 0 s, k, l, s, p, hw, hs, rfl⟩
  · exact congrArg Prod.snd (List.inj_on_of_nodup_map hsound.unique ht ht' rfl)
  · exact hout exitId (by decide)
  · have hp := hedits.elements_perm
    rw [show blankDraft.elements = [] from rfl, List.nil_append] at hp
    exact hp.trans hperm
  · exact (congrArg List.length (hcode 0 (by decide))).symm

theorem Draft.source_of_mem_out {b : Nat} {e : Edge} (h : e ∈ d.chart.out b) : e.source = b := by
  rcases List.mem_append.mp h with he | he
  · obtain ⟨p, hp, hr⟩ := List.mem_filterMap.mp he
    obtain ⟨t, -, rfl⟩ := Option.map_eq_some_iff.mp hr
    exact beq_iff_eq.mp (List.mem_filter.mp hp).2
  · exact beq_iff_eq.mp (List.mem_filter.mp he).2

theorem Draft.mem_edges (d : Draft) (e : Edge) :
    e ∈ d.edges.toList ++ d.gotos.filterMap (resolve d.labels) ↔ e ∈ d.chart.out e.source := by
  have hsource : ∀ p, resolve d.labels p = some e → p.source = e.source := fun p hp => by
    obtain ⟨t, -, rfl⟩ := Option.map_eq_some_iff.mp hp
    rfl
  simp only [Draft.chart, Draft.out, List.mem_append, List.mem_filterMap, List.mem_filter,
    beq_iff_eq, and_true]
  constructor
  · rintro (he | ⟨p, hp, hr⟩)
    · exact .inr he
    · exact .inl ⟨p, ⟨hp, hsource p hr⟩, hr⟩
  · rintro (⟨p, ⟨hp, -⟩, hr⟩ | he)
    · exact .inr ⟨p, hp, hr⟩
    · exact .inl he

theorem Drawn.edge_lt {exits : List String} {body : Stmt} (h : Drawn exits body d) :
    ∀ e ∈ d.edges.toList ++ d.gotos.filterMap (resolve d.labels), e.target < d.size := by
  intro e he
  rcases List.mem_append.mp he with he | he
  · exact (h.sound.edges e (Array.mem_def.mpr he)).2
  · obtain ⟨p, -, hr⟩ := List.mem_filterMap.mp he
    obtain ⟨t, ht, rfl⟩ := Option.map_eq_some_iff.mp hr
    obtain ⟨pre, post, hl, -⟩ := List.lookup_eq_some_iff.mp ht
    exact h.sound.labels (p.label, t) (by simp [hl])

theorem Drawn.source_lt {exits : List String} {body : Stmt} (h : Drawn exits body d) :
    ∀ e ∈ d.edges.toList ++ d.gotos.filterMap (resolve d.labels), e.source < d.size := by
  intro e he
  rcases List.mem_append.mp he with he | he
  · exact (h.sound.edges e (Array.mem_def.mpr he)).1
  · obtain ⟨p, hp, hr⟩ := List.mem_filterMap.mp he
    obtain ⟨t, -, rfl⟩ := Option.map_eq_some_iff.mp hr
    exact h.sound.gotos p hp

namespace Graph

def Has (g : Graph) (id : Nat) : Prop := ∃ b ∈ g.blocks, b.id = id

/-- A graph shows what a chart has, as far as control can come. -/
structure Realizes (g : Graph) (C : Chart) : Prop where
  distinct : g.Distinct
  code : ∀ b ∈ g.blocks, C.code b.id = b.elements
  edge : ∀ e ∈ g.edges, e ∈ C.out e.source
  closed : ∀ id, g.Has id → ∀ e ∈ C.out id, e.source = id ∧ e ∈ g.edges ∧ g.Has e.target
  entry : g.Has g.entry
  exit : g.exit = exitId
  /-- Control can come to each block that has elements. -/
  reached : ∀ b ∈ g.blocks, b.elements ≠ [] → ∃ es, C.Steps ⟨g.entry, 0⟩ es ⟨b.id, 0⟩

end Graph

variable {C : Chart}

/-- Control comes to a block from the first one by running the blocks on the way. -/
theorem Chart.steps_of_reached {edges : List Edge} (h : ∀ e ∈ edges, e ∈ C.out e.source) {b : Nat}
    (hr : Reached edges b) : ∃ es, C.Steps ⟨0, 0⟩ es ⟨b, 0⟩ := by
  induction hr with
  | refl => exact ⟨[], .refl _⟩
  | tail _ he ih =>
    obtain ⟨es, hs⟩ := ih
    obtain ⟨e, he, rfl, rfl⟩ := he
    have hread : C.Reads ⟨e.source, 0⟩ (C.code e.source) ⟨e.source, (C.code e.source).length⟩ :=
      ⟨List.prefix_refl _, by simp⟩
    exact ⟨_, (hs.append hread.steps).append (Chart.Step.follow rfl (h e he)).steps⟩

theorem Draft.Sound.map_id (h : d.Sound) : d.blocks.toList.map Block.id = List.range d.size := by
  refine List.ext_getElem (by simp [Draft.size]) fun i hi _ => ?_
  have hin : i < d.blocks.size := by simpa using hi
  simpa using h.ids i d.blocks[i] (Array.getElem?_eq_getElem hin)

theorem finish_blocks (hs : d.Sound) (hb : d'.blocks = d.blocks) (hz : 0 < d.size)
    (hlt : ∀ e ∈ d'.edges.toList, e.target < d.size) (b : Block) :
    b ∈ d'.finish.blocks ↔
    d.blocks[b.id]? = some b ∧ (Reached d'.edges.toList b.id ∨ b.id = exitId) := by
  have hmem : b ∈ d.blocks.toList ↔ d.blocks[b.id]? = some b := by
    constructor
    · intro h
      obtain ⟨i, hi⟩ := List.getElem?_of_mem h
      rw [Array.getElem?_toList] at hi
      rw [hs.ids i b hi]
      exact hi
    · intro h
      rw [← Array.getElem?_toList] at h
      exact List.mem_of_getElem? h
  rw [← mem_reachable hz hlt, ← hmem]
  simp [Draft.finish, hb, Draft.size]

theorem Drawn.has_iff {exits : List String} {body : Stmt} (h : Drawn exits body d)
    (hb : d'.blocks = d.blocks)
    (he : d'.edges.toList = d.edges.toList ++ d.gotos.filterMap (resolve d.labels)) (id : Nat) :
    d'.finish.Has id ↔ Reached d'.edges.toList id ∨ id = exitId := by
  have hlt := h.edge_lt
  rw [← he] at hlt
  have hz : 0 < d.size := Nat.lt_trans (by decide) h.size
  constructor
  · rintro ⟨b, hm, rfl⟩
    exact ((finish_blocks h.sound hb hz hlt b).mp hm).2
  · intro hid
    have hin : id < d.size :=
      hid.elim (Reached.lt hz hlt) fun hexit => hexit ▸ Nat.lt_trans (by decide) h.size
    have hget : d.blocks[id]? = some (d.blocks[id]) := Array.getElem?_eq_getElem hin
    have hid' : (d.blocks[id]).id = id := h.sound.ids id _ hget
    exact ⟨d.blocks[id],
      (finish_blocks h.sound hb hz hlt _).mpr ⟨by rw [hid', hget], by rwa [hid']⟩, hid'⟩

theorem Drawn.realizes {exits : List String} {body : Stmt} (h : Drawn exits body d)
    (hb : d'.blocks = d.blocks)
    (he : d'.edges.toList = d.edges.toList ++ d.gotos.filterMap (resolve d.labels)) :
    d'.finish.Realizes d.chart := by
  have hlt := h.edge_lt
  rw [← he] at hlt
  have hz : 0 < d.size := Nat.lt_trans (by decide) h.size
  have hhas := fun id => (h.has_iff hb he id).mpr
  refine ⟨?_, fun b hm => ?_, fun e hm => ?_, fun id hid e hm => ?_, hhas 0 (.inl .refl), rfl, ?_⟩
  · refine List.Nodup.sublist (List.filter_sublist.map _)
      (?_ : (d'.blocks.toList.map Block.id).Nodup)
    rw [hb, h.sound.map_id]
    exact List.nodup_range
  · have hget := ((finish_blocks h.sound hb hz hlt b).mp hm).1
    simp [Draft.chart, Draft.code, hget]
  · rw [← d.mem_edges, ← he]
    exact List.mem_of_mem_filter hm
  · have hsource := Draft.source_of_mem_out hm
    obtain ⟨b, hmem, hbid⟩ := hid
    have hkept := ((finish_blocks h.sound hb hz hlt b).mp hmem).2
    rw [hbid] at hkept
    have hin : Reached d'.edges.toList id := by
      refine hkept.resolve_right fun hexit => ?_
      rw [hexit, h.charted.exitOut] at hm
      simp at hm
    have hedge : e ∈ d'.edges.toList := by
      rw [he, d.mem_edges, hsource]
      exact hm
    have htarget : Reached d'.edges.toList e.target := hin.tail ⟨e, hedge, hsource, rfl⟩
    refine ⟨hsource, ?_, hhas _ (.inl htarget)⟩
    have hsize' : d'.blocks.size = d.size := by rw [hb, Draft.size]
    rw [← mem_reachable hz hlt] at hin htarget
    simp [Draft.finish, hsize', Array.mem_def.mpr hedge, hsource, hin, htarget]
  · intro b hm hne
    obtain ⟨hget, hkept⟩ := (finish_blocks h.sound hb hz hlt b).mp hm
    have hcode : d.chart.code b.id = b.elements := by simp [Draft.chart, Draft.code, hget]
    have hin : Reached d'.edges.toList b.id := by
      refine hkept.resolve_right fun hexit => hne ?_
      rw [← hcode, hexit]
      exact h.charted.exitCode
    refine Chart.steps_of_reached (fun e hedge => ?_) hin
    rw [← d.mem_edges, ← he]
    exact hedge

theorem build_run {exits : List String} {g : Graph} (h : build exits f = .ok g) :
    ∃ d, addFunction exits f emptyDraft = .ok ((), d) ∧ g = d.finish := by
  cases hrun : (addFunction exits f).run ⟨#[], #[], [], []⟩ with
  | error e =>
    rw [build, hrun] at h
    cases h
  | ok r =>
    rw [build, hrun] at h
    cases h
    exact ⟨r.2, hrun, rfl⟩

theorem build_ok {exits : List String} {g : Graph} (h : build exits f = .ok g) :
    ∃ d, Drawn exits f.body d ∧ g.Realizes d.chart ∧ g.entry = 0 ∧
      (g.blocks.flatMap Block.elements).Sublist d.elements := by
  obtain ⟨d', hrun, rfl⟩ := build_run h
  obtain ⟨d, hd, hb, he⟩ := drawn_of_addFunction hrun
  refine ⟨d, hd, hd.realizes hb he, rfl, ?_⟩
  rw [Draft.elements, ← hb]
  exact List.filter_sublist.flatMap _

def Move.events : Move → List Event
  | run _ e => [.ran e]
  | take b e => decided b.elements e.kind

theorem Graph.Realizes.step_of_moves {g : Graph} (h : g.Realizes C) {p q : Position} {m : Move}
    (hm : g.Moves p m q) : C.Step p m.events q := by
  cases hm with
  | run hb he =>
    refine .read ?_
    rw [h.code _ hb]
    exact he
  | @take b e hb he =>
    obtain ⟨he, hs⟩ := List.mem_filter.mp he
    have hcode := h.code b hb
    have hout := h.edge e he
    rw [beq_iff_eq.mp hs] at hout
    rw [Move.events, ← hcode]
    exact .follow (p := ⟨b.id, _⟩) (by simp [hcode]) hout

variable {es : List Event}

theorem Graph.Realizes.moves_of_step {g : Graph} (h : g.Realizes C) {p q : Position}
    (hs : C.Step p es q) (hp : g.Has p.block) :
    ∃ m, g.Moves p m q ∧ m.events = es ∧ g.Has q.block := by
  obtain ⟨b, hb, hid⟩ := hp
  have hcode := h.code b hb
  obtain ⟨n, i⟩ := p
  cases hid
  cases hs with
  | @read e he =>
    rw [hcode] at he
    exact ⟨.run ⟨b.id, i⟩ e, .run hb he, rfl, b, hb, rfl⟩
  | @follow e hi he =>
    obtain ⟨hsource, hedge, htarget⟩ := h.closed b.id ⟨b, hb, rfl⟩ e he
    simp only [hcode] at hi ⊢
    cases hi
    exact ⟨.take b e, .take hb (List.mem_filter.mpr ⟨hedge, beq_iff_eq.mpr hsource⟩), rfl, htarget⟩

/-- A state of an execution and a position in the graph from which the same can happen. -/
def Aligned (exits : List String) (body : Stmt) (g : Graph) (s : State) (p : Position) : Prop :=
  ∃ C labels start, Charted C exits labels body start ∧ g.Realizes C ∧ Sits C exits labels s p ∧
    g.Has p.block

variable {exits : List String} {body : Stmt} {g : Graph} {s s' : State} {p q : Position}

theorem aligned_start (h : build exits f = .ok g) :
    Aligned exits f.body g (start f.body) ⟨g.entry, 0⟩ := by
  obtain ⟨d, hd, hg, hentry, -⟩ := build_ok h
  obtain ⟨cs, hpl⟩ := hd.charted.placed
  refine ⟨d.chart, d.labels, _, hd.charted, hg, ⟨⟨2, 0⟩, cs, ?_, hpl⟩, hg.entry⟩
  rw [hentry]
  exact hd.entry.skips

theorem steps_of_walk (h : g.Realizes C) {ms : List Move} (hw : g.Walk p ms q) :
    C.Steps p (ms.flatMap Move.events) q := by
  induction hw with
  | refl p => exact .refl p
  | step hm _ ih => exact .step (h.step_of_moves hm) ih

theorem walk_of_steps (h : g.Realizes C) (hs : C.Steps p es q)
    (hp : g.Has p.block) : ∃ ms, g.Walk p ms q ∧ ms.flatMap Move.events = es ∧ g.Has q.block := by
  induction hs with
  | refl p => exact ⟨[], .refl p, rfl, hp⟩
  | step hs _ ih =>
    obtain ⟨m, hm, rfl, hq⟩ := h.moves_of_step hs hp
    obtain ⟨ms, hw, rfl, hr⟩ := ih hq
    exact ⟨m :: ms, .step hm hw, rfl, hr⟩

/-- What an execution does can be done in the graph. -/
theorem Aligned.walk (h : Aligned exits body g s p) (hs : Steps exits body s es s') :
    ∃ ms q, g.Walk p ms q ∧ ms.flatMap Move.events = es ∧ Aligned exits body g s' q := by
  obtain ⟨C, labels, start, hC, hg, hsit, hp⟩ := h
  obtain ⟨q, hq, hsit'⟩ := forward_steps hC hs hsit
  obtain ⟨ms, hw, hes, hhas⟩ := walk_of_steps hg hq hp
  exact ⟨ms, q, hw, hes, C, labels, start, hC, hg, hsit', hhas⟩

/-- What can be done in the graph is done by an execution. -/
theorem Aligned.steps (h : Aligned exits body g s p) {ms : List Move} (hw : g.Walk p ms q) :
    ∃ s', Steps exits body s (ms.flatMap Move.events) s' ∧ Aligned exits body g s' q := by
  obtain ⟨C, labels, start, hC, hg, hsit, hp⟩ := h
  obtain ⟨s', hs, hsit'⟩ := backward_steps hC (steps_of_walk hg hw) hsit
  obtain ⟨ms', -, -, hhas⟩ := walk_of_steps hg (steps_of_walk hg hw) hp
  exact ⟨s', hs, C, labels, start, hC, hg, hsit', hhas⟩

theorem Aligned.left (h : Aligned exits body g s ⟨g.exit, 0⟩) : Steps exits body s [] .left := by
  obtain ⟨C, labels, start, hC, hg, hsit, -⟩ := h
  rw [hg.exit] at hsit
  exact left_of_exit hC hsit

theorem Aligned.exit (h : Aligned exits body g .left p) :
    ∃ ms, g.Walk p ms ⟨g.exit, 0⟩ ∧ ms.flatMap Move.events = [] := by
  obtain ⟨C, labels, start, hC, hg, hsit, hp⟩ := h
  obtain ⟨ms, hw, hes, -⟩ := walk_of_steps hg (Chart.Skips.steps hsit) hp
  rw [← hg.exit] at hw
  exact ⟨ms, hw, hes⟩

theorem filterMap_events (ms : List Move) :
    (ms.flatMap Move.events).filterMap Event.element? = ms.filterMap Move.element? := by
  induction ms with
  | nil => rfl
  | cons m ms ih =>
    cases m with
    | run p e => simp [Move.events, Move.element?, Event.element?, ih]
    | take b e =>
      have h : (decided b.elements e.kind).filterMap Event.element? = [] := by
        unfold decided
        split <;> try split
        all_goals rfl
      rw [List.flatMap_cons, List.filterMap_append, Move.events, h, ih]
      rfl

/-- The graph of a function has the control flow of its body: the elements along its paths from the
entry are those that executions of the body run, and the paths to the exit are those of executions
that leave the function. -/
theorem build_preserves_traces {f : Function} (h : build exits f = .ok g) (t : List Element) :
    ((∃ ms p, g.Walk ⟨g.entry, 0⟩ ms p ∧ ms.filterMap Move.element? = t) ↔
      ∃ es s, Steps exits f.body (start f.body) es s ∧ es.filterMap Event.element? = t) ∧
    ((∃ ms, g.Walk ⟨g.entry, 0⟩ ms ⟨g.exit, 0⟩ ∧ ms.filterMap Move.element? = t) ↔
      ∃ es, Steps exits f.body (start f.body) es .left ∧ es.filterMap Event.element? = t) := by
  have ha := aligned_start h
  refine ⟨⟨?_, ?_⟩, ⟨?_, ?_⟩⟩
  · rintro ⟨ms, p, hw, rfl⟩
    obtain ⟨s, hs, -⟩ := ha.steps hw
    exact ⟨_, s, hs, filterMap_events ms⟩
  · rintro ⟨es, s, hs, rfl⟩
    obtain ⟨ms, p, hw, rfl, -⟩ := ha.walk hs
    exact ⟨ms, p, hw, (filterMap_events ms).symm⟩
  · rintro ⟨ms, hw, rfl⟩
    obtain ⟨s, hs, hexit⟩ := ha.steps hw
    refine ⟨_, hs.append hexit.left, ?_⟩
    rw [List.append_nil, filterMap_events]
  · rintro ⟨es, hs, rfl⟩
    obtain ⟨ms, p, hw, rfl, hleft⟩ := ha.walk hs
    obtain ⟨ms', hw', hes'⟩ := hleft.exit
    refine ⟨ms ++ ms', hw.append hw', ?_⟩
    rw [← filterMap_events, List.flatMap_append, hes', List.append_nil]

/-- `switch (n) { do { case 1: f; } while (0); default: goto end; } end: return;` -/
def entangled : Function where
  name := "entangled"
  params := []
  locals := []
  pos := ⟨1, 1⟩
  body := .block
    [.switch (.name "n" ⟨2, 1⟩) (.block
      [.doWhile (.case (some (.literal "1" .number ⟨3, 1⟩))
      (.simple (.expr (.name "f" ⟨3, 9⟩) ⟨3, 9⟩)) ⟨3, 1⟩) (.literal "0" .number ⟨4, 1⟩) ⟨3, 1⟩,
      .case none (.goto "end" ⟨5, 9⟩) ⟨5, 1⟩] ⟨2, 9⟩) ⟨2, 1⟩,
     .label "end" (.ret none ⟨6, 5⟩) ⟨6, 1⟩] ⟨1, 9⟩

theorem build_preserves_traces_entangled :
    ∃ g, build defaultExitFunctions entangled = .ok g ∧ ((∃ ms p, g.Walk ⟨g.entry, 0⟩ ms p ∧
      ms.filterMap Move.element? = entangled.body.elements.take 3) ↔
      ∃ es s, Steps defaultExitFunctions entangled.body (start entangled.body) es s ∧
      es.filterMap Event.element? = entangled.body.elements.take 3) ∧
    ((∃ ms, g.Walk ⟨g.entry, 0⟩ ms ⟨g.exit, 0⟩ ∧
      ms.filterMap Move.element? = entangled.body.elements.take 3) ↔
      ∃ es, Steps defaultExitFunctions entangled.body (start entangled.body) es .left ∧
      es.filterMap Event.element? = entangled.body.elements.take 3) := by
  obtain ⟨g, h, -⟩ := exists_of_any (x := build defaultExitFunctions entangled) (p := fun _ => true)
    (by decide +kernel)
  exact ⟨g, h, build_preserves_traces h _⟩

end JniContracts.Flow
