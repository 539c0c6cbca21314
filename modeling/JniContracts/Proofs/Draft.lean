import JniContracts.Proofs.Layout

/-!
Graphs under construction, as plain values. Each statement changes a draft by new blocks, elements
behind a block, edges, gotos and labels, and what is seen of a draft are the code of its blocks and
the edges out of them.
-/

namespace JniContracts.Flow

open Execution

namespace Draft

def size (d : Draft) : Nat := d.blocks.size

/-- A new block, which gets the number `d.size`. -/
def push (d : Draft) (kind : BlockKind) : Draft :=
  { d with blocks := d.blocks.push ⟨d.blocks.size, kind, []⟩ }

def append (d : Draft) (id : Nat) (es : List Element) : Draft :=
  { d with blocks := d.blocks.modify id fun b => { b with elements := b.elements ++ es } }

def link (d : Draft) (e : Edge) : Draft := { d with edges := d.edges.push e }

def linkIf (d : Draft) (c : Bool) (e : Edge) : Draft := if c then d.link e else d

def leave (d : Draft) (source : Option Nat) (target : Nat) (kind : EdgeKind) : Draft :=
  match source with
  | some s => d.link ⟨s, target, kind⟩
  | none => d

def jump (d : Draft) (p : Pending) : Draft := { d with gotos := d.gotos ++ [p] }

def name (d : Draft) (label : String) (id : Nat) : Draft :=
  { d with labels := d.labels ++ [(label, id)] }

def openIf (d : Draft) (cur : Nat) (l : Located) : Draft :=
  d.append cur l.condition
    |>.push .join
    |>.push .yes
    |>.link ⟨cur, d.size + 1, .branchTrue⟩

def openElse (d : Draft) (cur : Nat) : Draft :=
  d.push .no |>.link ⟨cur, d.size, .branchFalse⟩

def openWhile (d : Draft) (cur : Nat) (l : Located) : Draft :=
  d.push .loopHeader
    |>.link ⟨cur, d.size, .fallThrough⟩
    |>.append d.size l.condition
    |>.push .loopBody
    |>.push .loopExit
    |>.link ⟨d.size, d.size + 1, .branchTrue⟩
    |>.linkIf l.stmt.mayEnd ⟨d.size, d.size + 2, .branchFalse⟩

def openDo (d : Draft) (cur : Nat) : Draft :=
  d.push .loopBody
    |>.link ⟨cur, d.size, .fallThrough⟩
    |>.push .loopHeader
    |>.push .loopExit

def closeDo (d : Draft) (m : LoopBlocks) (l : Located) : Draft :=
  d.append m.header l.condition
    |>.linkIf l.stmt.mayRepeat ⟨m.header, m.body, .backEdge⟩
    |>.linkIf l.stmt.mayEnd ⟨m.header, m.after, .branchFalse⟩

def openFor (d : Draft) (cur : Nat) (l : Located) : Draft :=
  d.append cur l.initial
    |>.push .loopHeader
    |>.link ⟨cur, d.size, .fallThrough⟩
    |>.append d.size l.condition
    |>.push .loopStep
    |>.append (d.size + 1) l.advance
    |>.link ⟨d.size + 1, d.size, .backEdge⟩
    |>.push .loopBody
    |>.push .loopExit
    |>.link ⟨d.size, d.size + 2, .branchTrue⟩
    |>.linkIf l.stmt.mayEnd ⟨d.size, d.size + 3, .branchFalse⟩

def openSwitch (d : Draft) (cur : Nat) (l : Located) : Draft :=
  d.append cur l.condition |>.push .switchExit |>.push .body

def openCase (d : Draft) (cur dispatch : Nat) : Draft :=
  d.push .case |>.link ⟨cur, d.size, .fallThrough⟩ |>.link ⟨dispatch, d.size, .switchCase⟩

def openLabel (d : Draft) (cur : Nat) (label : String) : Draft :=
  d.push .label |>.link ⟨cur, d.size, .fallThrough⟩ |>.name label d.size

def code (d : Draft) (b : Nat) : List Element := (d.blocks[b]?.map (·.elements)).getD []

end Draft

def resolve (labels : List (String × Nat)) (p : Pending) : Option Edge :=
  (labels.lookup p.label).map (⟨p.source, ·, .goto⟩)

namespace Draft

/-- The edges out of a block, those for gotos with them. -/
def out (d : Draft) (labels : List (String × Nat)) (b : Nat) : List Edge :=
  (d.gotos.filter (·.source == b)).filterMap (resolve labels) ++ d.edges.toList.filter
    (·.source == b)

section Views

variable (d : Draft) (labels : List (String × Nat))

@[simp] theorem size_push (kind : BlockKind) : (d.push kind).size = d.size + 1 := by
  simp [push, size]

@[simp] theorem size_append (id : Nat) (es : List Element) : (d.append id es).size = d.size := by
  simp [append, size]

@[simp] theorem size_link (e : Edge) : (d.link e).size = d.size := rfl

@[simp] theorem size_linkIf (c : Bool) (e : Edge) : (d.linkIf c e).size = d.size := by
  cases c <;> rfl

@[simp] theorem size_leave (s : Option Nat) (t : Nat) (kind : EdgeKind) :
    (d.leave s t kind).size = d.size := by
  cases s <;> rfl

@[simp] theorem size_jump (p : Pending) : (d.jump p).size = d.size := rfl

@[simp] theorem size_name (n : String) (id : Nat) : (d.name n id).size = d.size := rfl

theorem code_of_size_le {b : Nat} (h : d.size ≤ b) : d.code b = [] := by
  simp [code, Array.getElem?_eq_none (show d.blocks.size ≤ b from h)]

@[simp] theorem code_push (kind : BlockKind) (b : Nat) : (d.push kind).code b = d.code b := by
  simp only [code, push, Array.getElem?_push]
  split
  · rename_i h
    simp [h]
  · rfl

theorem code_append (es : List Element) {id : Nat} (h : id < d.size) (b : Nat) :
    (d.append id es).code b = d.code b ++ if b = id then es else [] := by
  simp only [code, append, Array.getElem?_modify]
  by_cases hb : b = id
  · subst hb
    have hlt : b < d.blocks.size := h
    simp [hlt]
  · simp [hb, Ne.symm hb]

@[simp] theorem code_link (e : Edge) (b : Nat) : (d.link e).code b = d.code b := rfl

@[simp] theorem code_linkIf (c : Bool) (e : Edge) (b : Nat) : (d.linkIf c e).code b = d.code b := by
  cases c <;> rfl

@[simp] theorem code_leave (s : Option Nat) (t : Nat) (kind : EdgeKind) (b : Nat) :
    (d.leave s t kind).code b = d.code b := by
  cases s <;> rfl

@[simp] theorem code_jump (p : Pending) (b : Nat) : (d.jump p).code b = d.code b := rfl

@[simp] theorem code_name (n : String) (id b : Nat) : (d.name n id).code b = d.code b := rfl

@[simp] theorem out_push (kind : BlockKind) (b : Nat) :
    (d.push kind).out labels b = d.out labels b := rfl

@[simp] theorem out_append (id : Nat) (es : List Element) (b : Nat) :
    (d.append id es).out labels b = d.out labels b := rfl

@[simp] theorem out_link (e : Edge) (b : Nat) :
    (d.link e).out labels b = d.out labels b ++ if b = e.source then [e] else [] := by
  by_cases h : b = e.source
  · simp [out, link, h]
  · simp [out, link, h, Ne.symm h]

@[simp] theorem out_linkIf (c : Bool) (e : Edge) (b : Nat) :
    (d.linkIf c e).out labels b = d.out labels b ++ if c = true ∧
    b = e.source then [e] else [] := by
  cases c with
  | false => simp [linkIf]
  | true => simp [linkIf]

@[simp] theorem out_leave (s : Option Nat) (t : Nat) (kind : EdgeKind) (b : Nat) :
    (d.leave s t kind).out labels b = d.out labels b ++ if s =
    some b then [⟨b, t, kind⟩] else [] := by
  cases s with
  | none => simp [leave]
  | some s =>
    by_cases h : b = s
    · simp [leave, h]
    · simp [leave, h, Ne.symm h]

@[simp] theorem out_name (n : String) (id b : Nat) : (d.name n id).out labels b = d.out labels b :=
  rfl

theorem out_jump_of_ne {p : Pending} {b : Nat} (h : b ≠ p.source) :
    (d.jump p).out labels b = d.out labels b := by
  simp [out, jump, Ne.symm h]

theorem out_jump_source {p : Pending} (h : d.out labels p.source = []) :
    (d.jump p).out labels p.source = (resolve labels p).toList := by
  simp only [out, List.append_eq_nil_iff] at h
  simp only [out, jump, List.filter_append, List.filterMap_append, h.1, h.2]
  cases hr : resolve labels p <;> simp [hr]

@[simp] theorem labels_push (kind : BlockKind) : (d.push kind).labels = d.labels := rfl

@[simp] theorem labels_append (id : Nat) (es : List Element) : (d.append id es).labels = d.labels :=
  rfl

@[simp] theorem labels_link (e : Edge) : (d.link e).labels = d.labels := rfl

@[simp] theorem labels_linkIf (c : Bool) (e : Edge) : (d.linkIf c e).labels = d.labels := by
  cases c <;> rfl

@[simp] theorem labels_leave (s : Option Nat) (t : Nat) (kind : EdgeKind) :
    (d.leave s t kind).labels = d.labels := by
  cases s <;> rfl

@[simp] theorem gotos_linkIf (c : Bool) (e : Edge) : (d.linkIf c e).gotos = d.gotos := by
  cases c <;> rfl

@[simp] theorem gotos_leave (s : Option Nat) (t : Nat) (kind : EdgeKind) :
    (d.leave s t kind).gotos = d.gotos := by
  cases s <;> rfl

section Opened

variable (cur b : Nat) (l : Located)

@[simp] theorem size_openIf : (d.openIf cur l).size = d.size + 2 := by simp [openIf]

@[simp] theorem size_openElse : (d.openElse cur).size = d.size + 1 := by simp [openElse]

@[simp] theorem size_openWhile : (d.openWhile cur l).size = d.size + 3 := by simp [openWhile]

@[simp] theorem size_openDo : (d.openDo cur).size = d.size + 3 := by simp [openDo]

@[simp] theorem size_closeDo (m : LoopBlocks) : (d.closeDo m l).size = d.size := by simp [closeDo]

@[simp] theorem size_openFor : (d.openFor cur l).size = d.size + 4 := by simp [openFor]

@[simp] theorem size_openSwitch : (d.openSwitch cur l).size = d.size + 2 := by simp [openSwitch]

@[simp] theorem size_openCase (k : Nat) : (d.openCase cur k).size = d.size + 1 := by simp [openCase]

@[simp] theorem size_openLabel (n : String) : (d.openLabel cur n).size = d.size + 1 :=
  by simp [openLabel]

variable {cur}

theorem code_openIf (h : cur < d.size) :
    (d.openIf cur l).code b = d.code b ++ if b = cur then l.condition else [] := by
  simp [openIf, code_append _ _ h]

@[simp] theorem code_openElse : (d.openElse cur).code b = d.code b := by simp [openElse]

theorem code_openWhile :
    (d.openWhile cur l).code b = d.code b ++ if b = d.size then l.condition else [] := by
  have h : d.size < ((d.push .loopHeader).link ⟨cur, d.size, .fallThrough⟩).size := by simp
  simp [openWhile, code_append _ _ h]

@[simp] theorem code_openDo : (d.openDo cur).code b = d.code b := by simp [openDo]

theorem code_closeDo {m : LoopBlocks} (h : m.header < d.size) :
    (d.closeDo m l).code b = d.code b ++ if b = m.header then l.condition else [] := by
  simp [closeDo, code_append _ _ h]

theorem code_openFor (h : cur < d.size) :
    (d.openFor cur l).code b = ((d.code b ++ if b = cur then l.initial else []) ++
      if b = d.size then l.condition else []) ++ if b = d.size + 1 then l.advance else [] := by
  have h₁ :
      d.size <
      (((d.append cur l.initial).push .loopHeader).link ⟨cur, d.size, .fallThrough⟩).size := by
    simp
  have h₂ : d.size + 1 < (((((d.append cur l.initial).push .loopHeader).link
      ⟨cur, d.size, .fallThrough⟩).append d.size l.condition).push .loopStep).size := by
    simp
  simp [openFor, code_append _ _ h, code_append _ _ h₁, code_append _ _ h₂]

theorem code_openSwitch (h : cur < d.size) :
    (d.openSwitch cur l).code b = d.code b ++ if b = cur then l.condition else [] := by
  simp [openSwitch, code_append _ _ h]

@[simp] theorem code_openCase (k : Nat) : (d.openCase cur k).code b = d.code b := by simp [openCase]

@[simp] theorem code_openLabel (n : String) : (d.openLabel cur n).code b = d.code b :=
  by simp [openLabel]

theorem out_openIf : (d.openIf cur l).out labels b = d.out labels b ++
    if b = cur then [⟨cur, d.size + 1, .branchTrue⟩] else [] := by
  simp [openIf]

theorem out_openElse : (d.openElse cur).out labels b = d.out labels b ++
    if b = cur then [⟨cur, d.size, .branchFalse⟩] else [] := by
  simp [openElse]

theorem out_openWhile : (d.openWhile cur l).out labels b =
    ((d.out labels b ++ if b = cur then [⟨cur, d.size, .fallThrough⟩] else []) ++
      if b = d.size then [⟨d.size, d.size + 1, .branchTrue⟩] else []) ++
      if l.stmt.mayEnd = true ∧ b = d.size then [⟨d.size, d.size + 2, .branchFalse⟩] else [] := by
  simp [openWhile]

theorem out_openDo : (d.openDo cur).out labels b = d.out labels b ++
    if b = cur then [⟨cur, d.size, .fallThrough⟩] else [] := by
  simp [openDo]

theorem out_closeDo (m : LoopBlocks) :
    (d.closeDo m l).out labels b = (d.out labels b ++ if l.stmt.mayRepeat = true ∧
      b = m.header then [⟨m.header, m.body, .backEdge⟩] else []) ++ if l.stmt.mayEnd = true ∧
    b = m.header then [⟨m.header, m.after, .branchFalse⟩] else [] := by
  simp [closeDo]

theorem out_openFor : (d.openFor cur l).out labels b =
    (((d.out labels b ++ if b = cur then [⟨cur, d.size, .fallThrough⟩] else []) ++
      if b = d.size + 1 then [⟨d.size + 1, d.size, .backEdge⟩] else []) ++
      if b = d.size then [⟨d.size, d.size + 2, .branchTrue⟩] else []) ++
      if l.stmt.mayEnd = true ∧ b = d.size then [⟨d.size, d.size + 3, .branchFalse⟩] else [] := by
  simp [openFor]

@[simp] theorem out_openSwitch : (d.openSwitch cur l).out labels b = d.out labels b :=
  by simp [openSwitch]

theorem out_openCase (k : Nat) : (d.openCase cur k).out labels b =
    (d.out labels b ++ if b = cur then [⟨cur, d.size, .fallThrough⟩] else []) ++
      if b = k then [⟨k, d.size, .switchCase⟩] else [] := by
  simp [openCase]

theorem out_openLabel (n : String) : (d.openLabel cur n).out labels b = d.out labels b ++
    if b = cur then [⟨cur, d.size, .fallThrough⟩] else [] := by
  simp [openLabel]

theorem labels_openWhile : (d.openWhile cur l).labels = d.labels := by simp [openWhile]

theorem labels_openFor : (d.openFor cur l).labels = d.labels := by simp [openFor]

@[simp] theorem labels_closeDo (m : LoopBlocks) : (d.closeDo m l).labels = d.labels :=
  by simp [closeDo]

@[simp] theorem gotos_closeDo (m : LoopBlocks) : (d.closeDo m l).gotos = d.gotos :=
  by simp [closeDo, append]

end Opened

end Views

end Draft

section Running

/-! What the construction of each statement does to a draft. -/

variable {α : Type}

theorem bind_ok {β : Type} {x : BuildM α} {f : α → BuildM β} {d : Draft} {r : β × Draft}
    (h : (x >>= f) d = .ok r) : ∃ a d₁, x d = .ok (a, d₁) ∧ f a d₁ = .ok r := by
  change (x d >>= fun p => f p.1 p.2) = .ok r at h
  cases hx : x d with
  | error e =>
    rw [hx] at h
    cases h
  | ok p =>
    rw [hx] at h
    exact ⟨p.1, p.2, rfl, h⟩

theorem newBlock_bind (kind : BlockKind) (f : Nat → BuildM α) (d : Draft) :
    (newBlock kind >>= f) d = f d.size (d.push kind) := rfl

theorem append_bind (id : Nat) (e : Element) (f : Unit → BuildM α) (d : Draft) :
    (append id e >>= f) d = f () (d.append id [e]) := rfl

theorem link_bind (s t : Nat) (kind : EdgeKind) (f : Unit → BuildM α) (d : Draft) :
    (link s t kind >>= f) d = f () (d.link ⟨s, t, kind⟩) := rfl

theorem linkFrom_bind (s : Option Nat) (t : Nat) (kind : EdgeKind) (f : Unit → BuildM α)
    (d : Draft) : (linkFrom s t kind >>= f) d = f () (d.leave s t kind) := by
  cases s with
  | none => rw [linkFrom, pure_bind, Draft.leave]
  | some s => exact link_bind s t kind f d

theorem ite_link_bind (c : Bool) (s t : Nat) (kind : EdgeKind) (f : Unit → BuildM α) (d : Draft) :
    (if c = true then link s t kind >>= f else f ()) d =
      f () (d.linkIf c ⟨s, t, kind⟩) := by
  cases c with
  | true => exact link_bind s t kind f d
  | false => rfl

theorem target_ok {t : Option Nat} {e : FlowError} {d d' : Draft} {id : Nat}
    (h : target t e d = .ok (id, d')) : t = some id ∧ d' = d := by
  cases t with
  | none => cases h
  | some t =>
    cases h
    exact ⟨rfl, rfl⟩

theorem Draft.append_nil (d : Draft) (id : Nat) : d.append id [] = d := by
  have h : d.blocks.modify id (fun b => { b with elements := b.elements ++ [] }) = d.blocks := by
    apply Array.ext_getElem?
    intro i
    rw [Array.getElem?_modify]
    split <;> simp
  rw [Draft.append, h]

variable {exits : List String} {sc : Scope} {up : List Stmt} {addr : Address} {cur : Nat}
  {d d' : Draft} {next : Option Nat}

theorem addStmt_none (s : Stmt) :
    addStmt exits sc up addr s none d =
    addStmt exits sc up addr s (some d.size) (d.push .body) := by
  cases s <;> simp only [addStmt, current, newBlock_bind, pure_bind]

theorem addStmt_simple {x : Simple}
    (h : addStmt exits sc up addr (.simple x) (some cur) d = .ok (next, d')) :
    (x.leaves exits = false ∧ next = some cur ∧
      d' = d.append cur (Located.evaluated ⟨up, addr, .simple x⟩ .stmt x)) ∨
    (x.leaves exits = true ∧ next = none ∧ d' = (d.append cur
      [Located.element ⟨up, addr, .simple x⟩ .stmt x.exprs]).link ⟨cur, exitId, .exit⟩) := by
  cases x with
  | expr e p =>
    simp only [addStmt, current, pure_bind, append_bind] at h
    cases he : isExitCall exits e with
    | false =>
      rw [he] at h
      cases h
      exact .inl ⟨he, rfl, rfl⟩
    | true =>
      rw [he, if_pos rfl, link_bind] at h
      cases h
      exact .inr ⟨he, rfl, rfl⟩
  | decl t ds p =>
    simp only [addStmt, current, pure_bind] at h
    refine .inl ⟨rfl, ?_⟩
    cases hx : (Simple.decl t ds p).exprs.isEmpty with
    | true =>
      rw [hx] at h
      cases h
      exact ⟨rfl, by simp [Located.evaluated, hx, Draft.append_nil]⟩
    | false =>
      rw [hx, Bool.not_false, if_pos rfl, append_bind] at h
      cases h
      exact ⟨rfl, by simp [Located.evaluated, hx, Located.element]⟩

variable {p : Pos}

theorem addStmt_ret {v : Option Expr}
    (h : addStmt exits sc up addr (.ret v p) (some cur) d = .ok (next, d')) :
    next = none ∧ d' = (d.append cur [Located.element ⟨up, addr, .ret v p⟩ .ret v.toList]).link
      ⟨cur, exitId, .ret⟩ := by
  simp only [addStmt, current, pure_bind, append_bind, link_bind] at h
  cases h
  exact ⟨rfl, rfl⟩

theorem addStmt_goto {name : String}
    (h : addStmt exits sc up addr (.goto name p) (some cur) d = .ok (next, d')) :
    next = none ∧ d' = (d.append cur [Located.element ⟨up, addr, .goto name p⟩ .goto []]).jump
      ⟨cur, name, p.line⟩ := by
  simp only [addStmt, current, pure_bind, append_bind] at h
  cases h
  exact ⟨rfl, rfl⟩

theorem addStmt_brk (h : addStmt exits sc up addr (.brk p) (some cur) d = .ok (next, d')) :
    ∃ t, sc.brk = some t ∧ next = none ∧ d' = d.link ⟨cur, t, .brk⟩ := by
  simp only [addStmt, current, pure_bind] at h
  obtain ⟨t, d₁, hrun, hrest⟩ := bind_ok h
  obtain ⟨ht, rfl⟩ := target_ok hrun
  rw [link_bind] at hrest
  cases hrest
  exact ⟨t, ht, rfl, rfl⟩

theorem addStmt_cont (h : addStmt exits sc up addr (.cont p) (some cur) d = .ok (next, d')) :
    ∃ t, sc.cont = some t ∧ next = none ∧ d' = d.link ⟨cur, t, .cont⟩ := by
  simp only [addStmt, current, pure_bind] at h
  obtain ⟨t, d₁, hrun, hrest⟩ := bind_ok h
  obtain ⟨ht, rfl⟩ := target_ok hrun
  rw [link_bind] at hrest
  cases hrest
  exact ⟨t, ht, rfl, rfl⟩

variable {c : Expr}

theorem addStmt_ifElse {a b : Stmt}
    (h : addStmt exits sc up addr (.ifElse c a (some b) p) (some cur) d = .ok (next, d')) :
    ∃ r d₁ r' d₂, next = some d.size ∧
      addStmt exits sc (up ++ [Stmt.ifElse c a (some b) p]) (addr ++ [0]) a (some (d.size + 1))
        (d.openIf cur ⟨up, addr, .ifElse c a (some b) p⟩) = .ok (r, d₁) ∧
      addStmt exits sc (up ++ [Stmt.ifElse c a (some b) p]) (addr ++ [1]) b (some d₁.size)
        ((d₁.leave r d.size .fallThrough).openElse cur) = .ok (r', d₂) ∧
      d' = d₂.leave r' d.size .fallThrough := by
  simp only [addStmt, addElse, current, pure_bind, append_bind, newBlock_bind, link_bind,
    bind_assoc, Draft.size_append, Draft.size_push] at h
  obtain ⟨r, d₁, ha, h⟩ := bind_ok h
  simp only [linkFrom_bind, newBlock_bind, link_bind] at h
  obtain ⟨r', d₂, hb, h⟩ := bind_ok h
  rw [linkFrom_bind] at h
  cases h
  rw [Draft.size_leave] at hb
  refine ⟨r, d₁, r', d₂, rfl, ha, ?_, rfl⟩
  rw [Draft.openElse, Draft.size_leave]
  exact hb

theorem addStmt_ifOnly {a : Stmt}
    (h : addStmt exits sc up addr (.ifElse c a none p) (some cur) d = .ok (next, d')) :
    ∃ r d₁, next = some d.size ∧ addStmt exits sc (up ++ [Stmt.ifElse c a none p]) (addr ++ [0]) a
      (some (d.size + 1)) (d.openIf cur ⟨up, addr, .ifElse c a none p⟩) = .ok (r, d₁) ∧
    d' = (d₁.leave r d.size .fallThrough).link ⟨cur, d.size, .branchFalse⟩ := by
  simp only [addStmt, addElse, current, pure_bind, append_bind, newBlock_bind, link_bind,
    Draft.size_append, Draft.size_push] at h
  obtain ⟨r, d₁, ha, h⟩ := bind_ok h
  rw [linkFrom_bind, link_bind] at h
  cases h
  exact ⟨r, d₁, rfl, ha, rfl⟩

variable {b : Stmt}

theorem addStmt_whileDo
    (h : addStmt exits sc up addr (.whileDo c b p) (some cur) d = .ok (next, d')) :
    ∃ r d₁, next = some (d.size + 2) ∧
    addStmt exits { sc with brk := some (d.size + 2), cont := some d.size }
      (up ++ [Stmt.whileDo c b p]) (addr ++ [0]) b (some (d.size + 1))
      (d.openWhile cur ⟨up, addr, .whileDo c b p⟩) = .ok (r, d₁) ∧
    d' = d₁.leave r d.size .backEdge := by
  simp only [addStmt, current, pure_bind, append_bind, newBlock_bind, link_bind,
    Draft.size_append, Draft.size_push, Draft.size_link] at h
  rw [ite_link_bind] at h
  obtain ⟨r, d₁, hb, h⟩ := bind_ok h
  rw [linkFrom_bind] at h
  cases h
  exact ⟨r, d₁, rfl, hb, rfl⟩

theorem addStmt_doWhile
    (h : addStmt exits sc up addr (.doWhile b c p) (some cur) d = .ok (next, d')) :
    ∃ r d₁, next = some (d.size + 2) ∧
    addStmt exits { sc with brk := some (d.size + 2), cont := some (d.size + 1) }
      (up ++ [Stmt.doWhile b c p]) (addr ++ [0]) b (some d.size) (d.openDo cur) = .ok (r, d₁) ∧
    d' = (d₁.leave r (d.size + 1) .fallThrough).closeDo ⟨d.size + 1, d.size + 1, d.size, d.size + 2⟩
      ⟨up, addr, .doWhile b c p⟩ := by
  simp only [addStmt, current, pure_bind, newBlock_bind, link_bind, Draft.size_push,
    Draft.size_link] at h
  obtain ⟨r, d₁, hb, h⟩ := bind_ok h
  rw [linkFrom_bind, append_bind, ite_link_bind, ite_link_bind] at h
  cases h
  exact ⟨r, d₁, rfl, hb, rfl⟩

theorem addStmt_forDo {i : Option Simple} {c t : Option Expr}
    (h : addStmt exits sc up addr (.forDo i c t b p) (some cur) d = .ok (next, d')) :
    ∃ r d₁, next = some (d.size + 3) ∧
      addStmt exits { sc with brk := some (d.size + 3), cont := some (d.size + 1) }
        (up ++ [Stmt.forDo i c t b p]) (addr ++ [1]) b (some (d.size + 2))
        (d.openFor cur ⟨up, addr, .forDo i c t b p⟩) = .ok (r, d₁) ∧
      d' = d₁.leave r (d.size + 1) .fallThrough := by
  have hi : ∀ (α : Type) (f : Unit → BuildM α) (x : Simple),
      (if (!x.exprs.isEmpty) = true then
          append cur ⟨addr ++ [0], .simple x, .init, x.exprs, up ++ [Stmt.forDo i c t b p]⟩ >>= f
        else f ()) d =
        f () (d.append cur
        ((Located.child ⟨up, addr, .forDo i c t b p⟩ 0 (.simple x)).evaluated .init x)) := by
    intro α f x
    cases hx : x.exprs.isEmpty with
    | true => simp [Located.evaluated, hx, Draft.append_nil]
    | false => simp [Located.evaluated, hx, append_bind, Located.element, Located.child]
  simp only [addStmt, current, pure_bind] at h
  cases i <;> cases c <;> cases t <;> simp only [hi, append_bind, newBlock_bind, link_bind,
    Draft.size_append, Draft.size_push, Draft.size_link, ite_link_bind] at h
  all_goals
    obtain ⟨r, d₁, hb, h⟩ := bind_ok h
    rw [linkFrom_bind] at h
    cases h
    refine ⟨r, d₁, rfl, ?_, rfl⟩
    simpa [Draft.openFor, Located.initial, Located.condition, Located.advance, Located.element,
      Stmt.control?, Stmt.mayEnd, Draft.append_nil, Draft.linkIf, Nat.add_assoc] using hb

theorem addStmt_switch
    (h : addStmt exits sc up addr (.switch c b p) (some cur) d = .ok (next, d')) :
    ∃ r d₁, next = some d.size ∧
    addStmt exits { sc with brk := some d.size, dispatch := some cur } (up ++ [Stmt.switch c b p])
      (addr ++ [0]) b (some (d.size + 1)) (d.openSwitch cur ⟨up, addr, .switch c b p⟩) =
      .ok (r, d₁) ∧
    d' = (d₁.leave r d.size .fallThrough).linkIf (!hasDefault b) ⟨cur, d.size, .switchCase⟩ := by
  simp only [addStmt, current, pure_bind, append_bind, newBlock_bind, Draft.size_append,
    Draft.size_push] at h
  obtain ⟨r, d₁, hb, h⟩ := bind_ok h
  rw [linkFrom_bind, ite_link_bind] at h
  cases h
  exact ⟨r, d₁, rfl, hb, rfl⟩

theorem addStmt_case {v : Option Expr}
    (h : addStmt exits sc up addr (.case v b p) (some cur) d = .ok (next, d')) :
    ∃ k, sc.dispatch = some k ∧
    addStmt exits sc (up ++ [Stmt.case v b p]) (addr ++ [0]) b (some d.size) (d.openCase cur k) =
      .ok (next, d') := by
  simp only [addStmt, current, pure_bind] at h
  obtain ⟨k, d₁, hrun, hrest⟩ := bind_ok h
  obtain ⟨hk, rfl⟩ := target_ok hrun
  simp only [newBlock_bind, link_bind] at hrest
  exact ⟨k, hk, hrest⟩

theorem addStmt_label {name : String}
    (h : addStmt exits sc up addr (.label name b p) (some cur) d = .ok (next, d')) :
    d.labels.lookup name = none ∧ addStmt exits sc (up ++ [Stmt.label name b p]) (addr ++ [0]) b
      (some d.size) (d.openLabel cur name) = .ok (next, d') := by
  simp only [addStmt, openLabel, current, pure_bind, bind_assoc] at h
  obtain ⟨d₀, d₁, hget, h⟩ := bind_ok h
  cases hget
  cases hl : d.labels.lookup name with
  | some t =>
    rw [hl] at h
    cases h
  | none =>
    rw [hl] at h
    simp only [Option.isSome_none, Bool.false_eq_true, if_false] at h
    exact ⟨rfl, h⟩

end Running

end JniContracts.Flow
