import JniContracts.Flow.Coverage
import JniContracts.Proofs.Spelling.Statements

/-!
The control-flow graph of a function in the uniform form has the same blocks and edges, with the
elements in the uniform form, and a search through it comes to the same result.
-/

namespace JniContracts

def Function.uniform (f : Function) : Function :=
  { f with body := f.body.uniform, pos := f.pos.flat }

theorem Function.Alike.uniform_eq {f f' : Function} (h : f.Alike f') : f.uniform = f'.uniform := by
  rw [Function.uniform, Function.uniform, h.body.uniform_eq, flat_eq h.line, h.name,
    h.params, h.locals]

namespace Flow

def Block.uniform (b : Block) : Block := ⟨b.id, b.kind, b.elements.map Element.uniform⟩

def Draft.uniform (d : Draft) : Draft := { d with blocks := d.blocks.map Block.uniform }

def Graph.uniform (g : Graph) : Graph :=
  { g with blocks := g.blocks.map Block.uniform, unreachable := g.unreachable.map Block.uniform }

/-- One action does to a draft what the other does to its uniform form. -/
def Mirrors {α : Type} (m m' : BuildM α) : Prop :=
  ∀ d, m' d.uniform = (m d).map fun r => (r.1, r.2.uniform)

section Actions

variable {α β : Type}

theorem Mirrors.pure (a : α) : Mirrors (Pure.pure a) (Pure.pure a) := fun _ => rfl

theorem Mirrors.throw (e : FlowError) :
    Mirrors (MonadExcept.throw e : BuildM α) (MonadExcept.throw e) :=
  fun _ => rfl

theorem Mirrors.bind {m m' : BuildM α} {k k' : α → BuildM β} (hm : Mirrors m m')
    (hk : ∀ a, Mirrors (k a) (k' a)) : Mirrors (m >>= k) (m' >>= k') := by
  intro d
  have hrun := hm d
  cases h : m d with
  | error e =>
    rw [h] at hrun
    show ((m' d.uniform).bind fun r => k' r.1 r.2) = ((m d).bind fun r => k r.1 r.2).map _
    rw [h, hrun]
    rfl
  | ok r =>
    rw [h] at hrun
    show ((m' d.uniform).bind fun r => k' r.1 r.2) = ((m d).bind fun r => k r.1 r.2).map _
    rw [h, hrun]
    exact hk r.1 r.2

/-- What is read from a draft may only be used where its uniform form has the same. -/
theorem Mirrors.get_bind {k k' : Draft → BuildM β} (hk : ∀ d, Mirrors (k d) (k' d.uniform)) :
    Mirrors (get >>= k) (get >>= k') := fun d => hk d d

theorem Mirrors.ite {c c' : Prop} [Decidable c] [Decidable c'] {m m' n n' : BuildM α} (hc : c' ↔ c)
    (hm : Mirrors m m') (hn : Mirrors n n') :
    Mirrors (if c then m else n) (if c' then m' else n') := by
  by_cases h : c
  · rw [if_pos h, if_pos (hc.mpr h)]
    exact hm
  · rw [if_neg h, if_neg (mt hc.mp h)]
    exact hn

theorem Mirrors.when {c c' : Prop} [Decidable c] [Decidable c'] {m m' : BuildM Unit}
    {k k' : Unit → BuildM α} (hc : c' ↔ c) (hm : Mirrors m m') (hk : ∀ a, Mirrors (k a) (k' a)) :
    Mirrors (if c then m >>= k else k ()) (if c' then m' >>= k' else k' ()) :=
  .ite hc (.bind hm hk) (hk ())

theorem Mirrors.forM {γ : Type} {u : γ → γ} {m m' : γ → BuildM Unit}
    (hm : ∀ x, Mirrors (m x) (m' (u x))) (l : List γ) : Mirrors (l.forM m) ((l.map u).forM m') := by
  induction l with
  | nil => exact .pure ()
  | cons x l ih => exact .bind (hm x) fun _ => ih

theorem Mirrors.modify {f f' : Draft → Draft} (hf : ∀ d, f' d.uniform = (f d).uniform) :
    Mirrors (modify f) (modify f') := by
  intro d
  show Except.ok ((), f' d.uniform) = _
  rw [hf]
  rfl

theorem mirrors_newBlock (kind : BlockKind) : Mirrors (newBlock kind) (newBlock kind) := by
  intro d
  have hrun : ∀ d, newBlock kind d =
      .ok (d.blocks.size, { d with blocks := d.blocks.push ⟨d.blocks.size, kind, []⟩ }) :=
      fun _ => rfl
  have hsize : d.uniform.blocks.size = d.blocks.size := Array.size_map
  have hpush : d.uniform.blocks.push ⟨d.blocks.size, kind, []⟩ =
      (d.blocks.push ⟨d.blocks.size, kind, []⟩).map Block.uniform := by
    rw [Array.map_push]
    rfl
  rw [hrun, hrun, hsize, hpush]
  rfl

theorem mirrors_link (source target : Nat) (kind : EdgeKind) :
    Mirrors (link source target kind) (link source target kind) :=
  .modify fun _ => rfl

theorem mirrors_linkFrom (source : Option Nat) (target : Nat) (kind : EdgeKind) :
    Mirrors (linkFrom source target kind) (linkFrom source target kind) := by
  cases source with
  | none => exact .pure ()
  | some s => exact mirrors_link s target kind

theorem mirrors_append (id : Nat) (e : Element) : Mirrors (append id e) (append id e.uniform) := by
  refine .modify fun d => ?_
  have hblocks :
      (d.blocks.map Block.uniform).modify id
        (fun b => { b with elements := b.elements ++ [e.uniform] }) =
      (d.blocks.modify id fun b => { b with elements := b.elements ++ [e] }).map Block.uniform := by
    refine Array.ext_getElem? fun i => ?_
    simp only [Array.getElem?_modify, Array.getElem?_map]
    split
    · cases d.blocks[i]? with
      | none => rfl
      | some b => simp [Block.uniform]
    · rfl
  simp only [Draft.uniform, hblocks]

theorem mirrors_current (cur : Option Nat) : Mirrors (current cur) (current cur) := by
  cases cur with
  | none => exact mirrors_newBlock .body
  | some id => exact .pure id

theorem mirrors_target (t : Option Nat) (e : FlowError) : Mirrors (target t e) (target t e) := by
  cases t with
  | none => exact .throw e
  | some id => exact .pure id

theorem mirrors_openLabel (name : String) (line cur : Nat) :
    Mirrors (openLabel name line cur) (openLabel name line cur) := by
  refine .get_bind fun d => .when Iff.rfl (.throw _) fun _ => ?_
  refine .bind (mirrors_newBlock .label) fun block => ?_
  refine .bind (mirrors_link _ _ _) fun _ => ?_
  exact .bind (.modify fun _ => rfl) fun _ => .pure block

end Actions

section Statements

variable (exits : List String)

/-- The clauses of a `for` that are there become elements. -/
theorem addStmt_forDo_eq (scope : Scope) (up : List Stmt) (addr : Address) (i : Option Simple)
    (c t : Option Expr) (b : Stmt) (p : Pos) (cur : Option Nat) :
    addStmt exits scope up addr (.forDo i c t b p) cur = (do
      let cur ← current cur
      (i.toList.filter fun x => !x.exprs.isEmpty).forM fun x =>
        append cur ⟨addr ++ [0], .simple x, .init, x.exprs, up ++ [Stmt.forDo i c t b p]⟩
      let header ← newBlock .loopHeader
      link cur header .fallThrough
      c.toList.forM fun c' => append header ⟨addr, .forDo i c t b p, .cond, [c'], up⟩
      let step ← newBlock .loopStep
      t.toList.forM fun t' => append step ⟨addr, .forDo i c t b p, .step, [t'], up⟩
      link step header .backEdge
      let body ← newBlock .loopBody
      let after ← newBlock .loopExit
      link header body .branchTrue
      if c.any fun c => !isConstant trueLiterals c then link header after .branchFalse
      let inner := { scope with brk := some after, cont := some step }
      linkFrom (← addStmt exits inner (up ++ [Stmt.forDo i c t b p]) (addr ++ [1]) b (some body))
        step .fallThrough
      pure (some after)) := by
  rw [addStmt]
  refine congrArg (current cur >>= ·) (funext fun cur => ?_)
  cases i with
  | none => cases c <;> cases t <;> simp
  | some x =>
    cases hx : x.exprs.isEmpty <;> cases c <;> cases t <;> simp [hx]

mutual
theorem mirrors_addStmt :
    (s : Stmt) → (scope : Scope) → (up : List Stmt) → (addr : Address) → (cur : Option Nat) →
    Mirrors (addStmt exits scope up addr s cur)
      (addStmt exits scope (up.map Stmt.uniform) addr s.uniform cur)
  | .block ss p, scope, up, addr, cur => by
    have hss := mirrors_addAll ss scope (up ++ [Stmt.block ss p]) addr 0
    rw [List.map_append] at hss
    exact .bind (mirrors_current cur) fun cur => hss (some cur)
  | .simple x, scope, up, addr, cur => by
    rw [addStmt, Stmt.uniform, addStmt]
    refine .bind (mirrors_current cur) fun cur => ?_
    cases x with
    | expr e p =>
      refine .bind (mirrors_append cur _) fun _ => ?_
      exact .ite (by rw [isExitCall_uniform]) (.bind (mirrors_link _ _ _) fun _ => .pure none)
        (.pure (some cur))
    | decl t ds p =>
      have hexprs := Simple.exprs_uniform (.decl t ds p)
      have happend :=
        mirrors_append cur ⟨addr, .simple (.decl t ds p), .stmt, (Simple.decl t ds p).exprs, up⟩
      rw [Element.uniform, ← hexprs] at happend
      exact .when (by rw [hexprs, List.isEmpty_map]) happend fun _ => .pure (some cur)
  | .ret v p, scope, up, addr, cur => by
    refine .bind (mirrors_current cur) fun cur => ?_
    have hv : (v.map Expr.uniform).toList = v.toList.map Expr.uniform := by cases v <;> rfl
    have happend := mirrors_append cur ⟨addr, .ret v p, .ret, v.toList, up⟩
    rw [Element.uniform, ← hv] at happend
    exact .bind happend fun _ => .bind (mirrors_link _ _ _) fun _ => .pure none
  | .goto l p, scope, up, addr, cur => by
    refine .bind (mirrors_current cur) fun cur => ?_
    exact .bind (mirrors_append cur _) fun _ => .bind (.modify fun _ => rfl) fun _ => .pure none
  | .brk p, scope, up, addr, cur => by
    refine .bind (mirrors_current cur) fun cur => .bind (mirrors_target _ _) fun t => ?_
    exact .bind (mirrors_link _ _ _) fun _ => .pure none
  | .cont p, scope, up, addr, cur => by
    refine .bind (mirrors_current cur) fun cur => .bind (mirrors_target _ _) fun t => ?_
    exact .bind (mirrors_link _ _ _) fun _ => .pure none
  | .empty _, scope, up, addr, cur => .bind (mirrors_current cur) fun cur => .pure (some cur)
  | .ifElse c a b p, scope, up, addr, cur => by
    have ha := mirrors_addStmt a scope (up ++ [Stmt.ifElse c a b p]) (addr ++ [0])
    have hb := mirrors_addElse b scope (up ++ [Stmt.ifElse c a b p]) (addr ++ [1])
    rw [List.map_append] at ha hb
    refine .bind (mirrors_current cur) fun cur => .bind (mirrors_append cur _) fun _ => ?_
    refine .bind (mirrors_newBlock .join) fun join => .bind (mirrors_newBlock .yes) fun yes => ?_
    refine .bind (mirrors_link _ _ _) fun _ => .bind (ha (some yes)) fun out => ?_
    exact .bind (mirrors_linkFrom _ _ _) fun _ => .bind (hb cur join) fun _ => .pure (some join)
  | .whileDo c b p, scope, up, addr, cur => by
    have hb := fun scope => mirrors_addStmt b scope (up ++ [Stmt.whileDo c b p]) (addr ++ [0])
    rw [List.map_append] at hb
    refine .bind (mirrors_current cur) fun cur => .bind (mirrors_newBlock .loopHeader)
      fun header => ?_
    refine .bind (mirrors_link _ _ _) fun _ => .bind (mirrors_append header _) fun _ => ?_
    refine .bind (mirrors_newBlock .loopBody) fun body => .bind (mirrors_newBlock .loopExit)
      fun after => ?_
    refine .bind (mirrors_link _ _ _) fun _ => ?_
    refine .when (by rw [isConstant_uniform]) (mirrors_link _ _ _) fun _ => ?_
    exact .bind (hb _ (some body)) fun out => .bind (mirrors_linkFrom _ _ _)
      fun _ => .pure (some after)
  | .doWhile b c p, scope, up, addr, cur => by
    have hb := fun scope => mirrors_addStmt b scope (up ++ [Stmt.doWhile b c p]) (addr ++ [0])
    rw [List.map_append] at hb
    refine .bind (mirrors_current cur) fun cur => .bind (mirrors_newBlock .loopBody) fun body => ?_
    refine .bind (mirrors_link _ _ _) fun _ => .bind (mirrors_newBlock .loopHeader) fun header => ?_
    refine .bind (mirrors_newBlock .loopExit) fun after => .bind (hb _ (some body)) fun out => ?_
    refine .bind (mirrors_linkFrom _ _ _) fun _ => .bind (mirrors_append header _) fun _ => ?_
    refine .when (by rw [isConstant_uniform]) (mirrors_link _ _ _) fun _ => ?_
    exact .when (by rw [isConstant_uniform]) (mirrors_link _ _ _) fun _ => .pure (some after)
  | .forDo i c t b p, scope, up, addr, cur => by
    have hb := fun scope => mirrors_addStmt b scope (up ++ [Stmt.forDo i c t b p]) (addr ++ [1])
    have hinit : ((i.map Simple.uniform).toList.filter fun x => !x.exprs.isEmpty) =
        (i.toList.filter fun x => !x.exprs.isEmpty).map Simple.uniform := by
      cases i with
      | none => rfl
      | some x => cases hx : x.exprs.isEmpty <;> simp [Simple.exprs_uniform, hx]
    have hclause : ∀ o : Option Expr, (o.map Expr.uniform).toList = o.toList.map Expr.uniform :=
      fun o => by
      cases o <;> rfl
    have hend : ((c.map Expr.uniform).any fun c => !isConstant trueLiterals c) =
        c.any fun c => !isConstant trueLiterals c := by
      cases c with
      | none => rfl
      | some c => simp only [Option.map_some, Option.any_some, isConstant_uniform]
    rw [Stmt.uniform, addStmt_forDo_eq, addStmt_forDo_eq, hinit, hclause, hclause, hend]
    refine .bind (mirrors_current cur) fun cur => .bind (.forM (fun x => ?_) _) fun _ => ?_
    · have happend :=
        mirrors_append cur ⟨addr ++ [0], .simple x, .init, x.exprs, up ++ [Stmt.forDo i c t b p]⟩
      rw [Element.uniform, ← Simple.exprs_uniform, List.map_append] at happend
      exact happend
    rw [List.map_append] at hb
    refine .bind (mirrors_newBlock .loopHeader) fun header => .bind (mirrors_link _ _ _) fun _ => ?_
    refine .bind (.forM (fun x => ?_) _) fun _ => ?_
    · exact mirrors_append header _
    refine .bind (mirrors_newBlock .loopStep) fun step => .bind (.forM (fun x => ?_) _) fun _ => ?_
    · exact mirrors_append step _
    refine .bind (mirrors_link _ _ _) fun _ => .bind (mirrors_newBlock .loopBody) fun body => ?_
    refine .bind (mirrors_newBlock .loopExit) fun after => .bind (mirrors_link _ _ _) fun _ => ?_
    refine .when Iff.rfl (mirrors_link _ _ _) fun _ => .bind (hb _ (some body)) fun out => ?_
    exact .bind (mirrors_linkFrom _ _ _) fun _ => .pure (some after)
  | .switch c b p, scope, up, addr, cur => by
    have hb := fun scope => mirrors_addStmt b scope (up ++ [Stmt.switch c b p]) (addr ++ [0])
    rw [List.map_append] at hb
    refine .bind (mirrors_current cur) fun cur => .bind (mirrors_append cur _) fun _ => ?_
    refine .bind (mirrors_newBlock .switchExit) fun after => .bind (mirrors_newBlock .body)
      fun body => ?_
    refine .bind (hb _ (some body)) fun out => .bind (mirrors_linkFrom _ _ _) fun _ => ?_
    exact .when (by rw [Stmt.hasDefault_uniform]) (mirrors_link _ _ _) fun _ => .pure (some after)
  | .case v b p, scope, up, addr, cur => by
    have hb := mirrors_addStmt b scope (up ++ [Stmt.case v b p]) (addr ++ [0])
    rw [List.map_append] at hb
    refine .bind (mirrors_current cur) fun cur => .bind (mirrors_target _ _) fun dispatch => ?_
    refine .bind (mirrors_newBlock .case) fun block => .bind (mirrors_link _ _ _) fun _ => ?_
    exact .bind (mirrors_link _ _ _) fun _ => hb (some block)
  | .label name b p, scope, up, addr, cur => by
    have hb := mirrors_addStmt b scope (up ++ [Stmt.label name b p]) (addr ++ [0])
    rw [List.map_append] at hb
    refine .bind (mirrors_current cur) fun cur => ?_
    exact .bind (mirrors_openLabel name p.line cur) fun block => hb (some block)

theorem mirrors_addAll :
    (ss : List Stmt) → (scope : Scope) → (up : List Stmt) → (addr : Address) → (n : Nat) →
    (cur : Option Nat) → Mirrors (addAll exits scope up addr n ss cur)
      (addAll exits scope (up.map Stmt.uniform) addr n (Stmt.uniformAll ss) cur)
  | [], _, _, _, _, cur => .pure cur
  | s :: ss, scope, up, addr, n, cur =>
    .bind (mirrors_addStmt s scope up (addr ++ [n]) cur) fun next => mirrors_addAll ss scope up addr
      (n + 1) next

theorem mirrors_addElse :
    (o : Option Stmt) → (scope : Scope) → (up : List Stmt) → (addr : Address) → (cur join : Nat) →
    Mirrors (addElse exits scope up addr cur join o)
      (addElse exits scope (up.map Stmt.uniform) addr cur join (Stmt.uniformElse o))
  | none, _, _, _, cur, join => mirrors_link cur join .branchFalse
  | some s, scope, up, addr, cur, join => by
    refine .bind (mirrors_newBlock .no) fun no => ?_
    refine .bind (mirrors_link _ _ _) fun _ => ?_
    exact .bind (mirrors_addStmt s scope up addr (some no))
      fun out => mirrors_linkFrom out join .fallThrough
end

theorem mirrors_linkGotos (ps : List Pending) : Mirrors (linkGotos ps) (linkGotos ps) := by
  induction ps with
  | nil => exact .pure ()
  | cons p ps ih =>
    refine .get_bind fun d => .bind (mirrors_target _ _) fun t => ?_
    exact .bind (mirrors_link _ _ _) fun _ => ih

theorem mirrors_addFunction (f : Function) :
    Mirrors (addFunction exits f) (addFunction exits f.uniform) := by
  refine .bind (mirrors_newBlock .entry) fun entry => .bind (mirrors_newBlock .exit) fun exit => ?_
  refine .bind (mirrors_newBlock .body) fun start => .bind (mirrors_link _ _ _) fun _ => ?_
  refine .bind (mirrors_addStmt exits f.body _ [] [] (some start)) fun out => ?_
  refine .bind (mirrors_linkFrom _ _ _) fun _ => .get_bind fun d => ?_
  exact mirrors_linkGotos d.gotos

end Statements

theorem finish_uniform (d : Draft) : d.uniform.finish = d.finish.uniform := by
  have hsize : d.uniform.blocks.size = d.blocks.size := Array.size_map
  have hblocks : d.uniform.blocks.toList = d.blocks.toList.map Block.uniform := Array.toList_map
  simp only [Draft.finish, Graph.uniform, hsize, hblocks, List.filter_map]
  rfl

/-- The graph of the uniform form is the uniform form of the graph. -/
theorem build_uniform (exits : List String) (f : Function) :
    build exits f.uniform = (build exits f).map Graph.uniform := by
  have hrun := mirrors_addFunction exits f ⟨#[], #[], [], []⟩
  have hstart : Draft.uniform ⟨#[], #[], [], []⟩ = ⟨#[], #[], [], []⟩ := by simp [Draft.uniform]
  rw [hstart] at hrun
  have hbuild :
      ∀ f, build exits f = (addFunction exits f ⟨#[], #[], [], []⟩).map fun r => r.2.finish := by
    intro f
    rw [build, StateT.run]
    cases addFunction exits f ⟨#[], #[], [], []⟩ <;> rfl
  rw [hbuild, hbuild, hrun]
  cases addFunction exits f ⟨#[], #[], [], []⟩ with
  | error e => rfl
  | ok r => exact congrArg Except.ok (finish_uniform r.2)

section Graphs

variable (g : Graph)

theorem block?_uniform (id : Nat) : g.uniform.block? id = (g.block? id).map Block.uniform := by
  rw [Graph.block?, Graph.block?, Graph.uniform, List.find?_map]
  rfl

theorem elementAt?_uniform (p : Position) :
    g.uniform.elementAt? p = (g.elementAt? p).map Element.uniform := by
  rw [Graph.elementAt?, Graph.elementAt?, block?_uniform]
  cases g.block? p.block with
  | none => rfl
  | some b => simp only [Option.map_some, Option.bind_some, Block.uniform, List.getElem?_map]

theorem position?_uniform (key : Address × Role) : g.uniform.position? key = g.position? key := by
  have hplaced : g.uniform.placed = g.placed.map fun x => (x.1, x.2.uniform) := by
    simp only [Graph.placed, Graph.uniform, List.flatMap_map, List.map_flatMap, Block.uniform,
      List.zipIdx_map, List.map_map]
    rfl
  rw [Graph.position?, Graph.position?, hplaced, List.find?_map, Option.map_map]
  rfl

end Graphs

namespace Obligation

/-- Two obligations ask the same, one about the elements of a graph, the other about their uniform
forms. -/
structure Agrees (g : Graph) (o o' : Obligation) : Prop where
  trigger : o'.trigger = o.trigger
  atExit : o'.atExit = o.atExit
  atTrigger : o'.atTrigger = o.atTrigger
  classify : ∀ b ∈ g.blocks, ∀ e ∈ b.elements, o'.classify e.uniform = o.classify e
  prune : ∀ b ∈ g.blocks, ∀ e ∈ b.elements, ∀ k, o'.prune e.uniform k = o.prune e k

variable {g : Graph} {o o' : Obligation}

theorem Agrees.pass (h : Agrees g o o') {b : Block} (hb : b ∈ g.blocks) (fromStart : Bool)
    (id : Nat) :
    (es : List Element) → es ⊆ b.elements → (i : Nat) → (lines : List Nat) →
    o'.pass fromStart id i lines (es.map Element.uniform) = o.pass fromStart id i lines es
  | [], _, i, lines => rfl
  | e :: es, hes, i, lines => by
    have hverdict : o'.verdict fromStart ⟨id, i⟩ e.uniform = o.verdict fromStart ⟨id, i⟩ e := by
      rw [verdict, verdict, h.trigger, h.atTrigger, h.classify b hb e (hes List.mem_cons_self)]
    have hrest :=
      h.pass hb fromStart id es (List.subset_of_cons_subset hes) (i + 1) (lines ++ [e.line])
    rw [List.map_cons, Obligation.pass, Obligation.pass, hverdict, e.line_uniform, hrest]

theorem Agrees.onward (h : Agrees g o o') {b : Block} (hb : b ∈ g.blocks) :
    o'.onward g.uniform b.uniform = o.onward g b := by
  have hfollowed : o'.followed g.uniform b.uniform = o.followed g b := by
    simp only [followed, Block.uniform, List.getLast?_map]
    cases hlast : b.elements.getLast? with
    | none => rfl
    | some e =>
      have hprune := h.prune b hb e (List.mem_of_getLast? hlast)
      simp only [Option.map_some, hprune]
      rfl
  rw [Obligation.onward, Obligation.onward, hfollowed, h.atExit]
  rfl

theorem Agrees.search (h : Agrees g o o') (fuel : Nat) (expanded : List Nat) (todo : List Entry) :
    o'.search g.uniform fuel expanded todo = o.search g fuel expanded todo := by
  induction fuel generalizing expanded todo with
  | zero => rfl
  | succ fuel ih =>
    cases todo with
    | nil => rfl
    | cons entry todo =>
      rw [Obligation.search, Obligation.search, block?_uniform]
      cases hb : g.block? entry.block with
      | none => simp only [Option.map_none, ih]
      | some b =>
        have hmem : b ∈ g.blocks := List.mem_of_find?_eq_some hb
        have hpass := h.pass hmem true entry.block b.elements (List.Subset.refl _) 0 entry.lines
        simp only [Option.map_some, h.onward hmem, ih]
        rw [Block.uniform, hpass]

theorem Agrees.coverage (h : Agrees g o o') : o'.coverage g.uniform = o.coverage g := by
  rw [Obligation.coverage, Obligation.coverage, h.trigger, block?_uniform, elementAt?_uniform]
  cases hb : g.block? o.trigger.block with
  | none => rfl
  | some b =>
    have hmem : b ∈ g.blocks := List.mem_of_find?_eq_some hb
    cases g.elementAt? o.trigger with
    | none => rfl
    | some e =>
      have hpass :=
        h.pass hmem false b.id (b.elements.drop (o.trigger.index + 1)) (List.drop_subset _ _)
          (o.trigger.index + 1) [e.line]
      simp only [Option.map_some, h.onward hmem, h.search, e.line_uniform]
      rw [Block.uniform, ← List.map_drop, hpass]
      rfl

end Obligation

end Flow

end JniContracts
