import JniContracts.Proofs.ControlFlow

/-!
Which bodies have a control-flow graph. Whether a statement may stand where it does is told by the
statements around it and by the labels in front of it. The construction fails at the first statement
of the walk that may not, and a `goto` that leads nowhere is found only behind all of them.
-/

namespace JniContracts

namespace Stmt

mutual
def walkIn (up : List Stmt) (addr : Address) : Stmt → List Located
  | s@(block ss _) => ⟨up, addr, s⟩ :: walkInAll (up ++ [s]) addr 0 ss
  | s@(ifElse _ a b _) =>
    ⟨up, addr, s⟩ :: (walkIn (up ++ [s]) (addr ++ [0]) a ++ walkInElse (up ++ [s]) (addr ++ [1]) b)
  | s@(whileDo _ b _) => ⟨up, addr, s⟩ :: walkIn (up ++ [s]) (addr ++ [0]) b
  | s@(doWhile b _ _) => ⟨up, addr, s⟩ :: walkIn (up ++ [s]) (addr ++ [0]) b
  | s@(forDo i _ _ b _) =>
    ⟨up, addr, s⟩ :: (i.toList.map (fun x => ⟨up ++ [s], addr ++ [0], simple x⟩) ++
      walkIn (up ++ [s]) (addr ++ [1]) b)
  | s@(switch _ b _) => ⟨up, addr, s⟩ :: walkIn (up ++ [s]) (addr ++ [0]) b
  | s@(case _ b _) => ⟨up, addr, s⟩ :: walkIn (up ++ [s]) (addr ++ [0]) b
  | s@(label _ b _) => ⟨up, addr, s⟩ :: walkIn (up ++ [s]) (addr ++ [0]) b
  | s@(simple _) => [⟨up, addr, s⟩]
  | s@(goto _ _) => [⟨up, addr, s⟩]
  | s@(ret _ _) => [⟨up, addr, s⟩]
  | s@(brk _) => [⟨up, addr, s⟩]
  | s@(cont _) => [⟨up, addr, s⟩]
  | s@(empty _) => [⟨up, addr, s⟩]

def walkInAll (up : List Stmt) (addr : Address) : Nat → List Stmt → List Located
  | _, [] => []
  | n, s :: ss => walkIn up (addr ++ [n]) s ++ walkInAll up addr (n + 1) ss

def walkInElse (up : List Stmt) (addr : Address) : Option Stmt → List Located
  | none => []
  | some s => walkIn up addr s
end

def located (body : Stmt) : List Located := body.walkIn [] []

def label? : Stmt → Option String
  | label name _ _ => some name
  | _ => none

def goto? : Stmt → Option (String × Nat)
  | goto name p => some (name, p.line)
  | _ => none

mutual
theorem map_stmt_walkIn (up : List Stmt) (addr : Address) :
    ∀ s : Stmt, (s.walkIn up addr).map Located.stmt = s.walk
  | block ss p => by rw [walkIn, walk, List.map_cons, map_stmt_walkInAll]
  | ifElse c a b p => by
    rw [walkIn, walk, List.map_cons, List.map_append, map_stmt_walkIn, map_stmt_walkInElse]
  | whileDo c b p => by rw [walkIn, walk, List.map_cons, map_stmt_walkIn]
  | doWhile b c p => by rw [walkIn, walk, List.map_cons, map_stmt_walkIn]
  | forDo i c t b p => by
    rw [walkIn, walk, List.map_cons, List.map_append, map_stmt_walkIn]
    cases i <;> rfl
  | switch c b p => by rw [walkIn, walk, List.map_cons, map_stmt_walkIn]
  | case v b p => by rw [walkIn, walk, List.map_cons, map_stmt_walkIn]
  | label name b p => by rw [walkIn, walk, List.map_cons, map_stmt_walkIn]
  | simple x => by rw [walkIn, walk, List.map_singleton]
  | goto name p => by rw [walkIn, walk, List.map_singleton]
  | ret v p => by rw [walkIn, walk, List.map_singleton]
  | brk p => by rw [walkIn, walk, List.map_singleton]
  | cont p => by rw [walkIn, walk, List.map_singleton]
  | empty p => by rw [walkIn, walk, List.map_singleton]

theorem map_stmt_walkInAll (up : List Stmt) (addr : Address) :
    ∀ (n : Nat) (ss : List Stmt), (walkInAll up addr n ss).map Located.stmt = walkAll ss
  | n, [] => by rw [walkInAll, walkAll, List.map_nil]
  | n, s :: ss => by rw [walkInAll, walkAll, List.map_append, map_stmt_walkIn, map_stmt_walkInAll]

theorem map_stmt_walkInElse (up : List Stmt) (addr : Address) :
    ∀ s : Option Stmt, (walkInElse up addr s).map Located.stmt = walkElse s
  | none => by rw [walkInElse, walkElse, List.map_nil]
  | some s => by rw [walkInElse, walkElse, map_stmt_walkIn]
end

end Stmt

namespace Flow

def FlowError.isMalformed : FlowError → Bool
  | noLabel .. => false
  | _ => true

def labelsOf (ls : List Located) : List String := ls.filterMap (·.stmt.label?)

def gotosOf (ls : List Located) : List (String × Nat) := ls.filterMap (·.stmt.goto?)

def faultOf (seen : List String) (l : Located) : Option FlowError :=
  match l.stmt with
  | .label name _ p => if seen.contains name then some (.labelTwice name p.line) else none
  | .brk p => if l.up.any (fun s => s.isLoop || s.isSwitch) then none else some (.strayBreak p.line)
  | .cont p => if l.up.any Stmt.isLoop then none else some (.strayContinue p.line)
  | .case _ _ p => if l.up.any Stmt.isSwitch then none else some (.strayCase p.line)
  | _ => none

def firstFault (seen : List String) : List Located → Option FlowError
  | [] => none
  | l :: ls => (faultOf seen l).or (firstFault (seen ++ l.stmt.label?.toList) ls)

def firstLost (labels : List String) (gotos : List (String × Nat)) : Option FlowError :=
  (gotos.find? fun a => !labels.contains a.1).map fun a => .noLabel a.1 a.2

theorem labelsOf_cons (l : Located) (ls : List Located) :
    labelsOf (l :: ls) = l.stmt.label?.toList ++ labelsOf ls := by
  cases h : l.stmt.label? <;> simp [labelsOf, h]

theorem gotosOf_cons (l : Located) (ls : List Located) :
    gotosOf (l :: ls) = l.stmt.goto?.toList ++ gotosOf ls := by
  cases h : l.stmt.goto? <;> simp [gotosOf, h]

theorem firstFault_append (seen : List String) (ls ls' : List Located) :
    firstFault seen (ls ++ ls') =
    (firstFault seen ls).or (firstFault (seen ++ labelsOf ls) ls') := by
  induction ls generalizing seen with
  | nil => simp [firstFault, labelsOf]
  | cons l ls ih =>
    rw [List.cons_append, firstFault, firstFault, ih, labelsOf_cons, Option.or_assoc,
      List.append_assoc]

namespace Draft

def names (d : Draft) : List String := d.labels.map Prod.fst

def aims (d : Draft) : List (String × Nat) := d.gotos.map fun p => (p.label, p.line)

end Draft

/-- What building along a walk comes to. It fails with the first fault, or it has the labels and the
gotos of the walk. -/
inductive Comes {α : Type} (d : Draft) (ls : List Located) : Except FlowError
  (α × Draft) → Prop where
  | fails {e} (h : firstFault d.names ls = some e) : Comes d ls (.error e)
  | passes {a d'} (h : firstFault d.names ls = none) (hn : d'.names = d.names ++ labelsOf ls)
      (hg : d'.aims = d.aims ++ gotosOf ls) : Comes d ls (.ok (a, d'))

structure Follows {α : Type} (x : BuildM α) (ls : List Located) : Prop where
  comes : ∀ d, Comes d ls (x d)

namespace Follows

variable {α β : Type} {x y : BuildM α} {f : α → BuildM β} {ls ls' : List Located} {l : Located}

theorem bind (hx : Follows x ls) (hf : ∀ a, Follows (f a) ls') : Follows (x >>= f) (ls ++ ls') := by
  refine ⟨fun d => ?_⟩
  show Comes d (ls ++ ls') (x d >>= fun p => f p.1 p.2)
  have hd := hx.comes d
  generalize x d = r at hd ⊢
  cases hd with
  | fails h => exact .fails (by rw [firstFault_append, h, Option.some_or])
  | @passes a d₁ h hn hg =>
    have hfault : firstFault d.names (ls ++ ls') = firstFault d₁.names ls' := by
      rw [firstFault_append, h, Option.none_or, hn]
    show Comes d (ls ++ ls') (f a d₁)
    have hd := (hf a).comes d₁
    generalize f a d₁ = r at hd ⊢
    cases hd with
    | fails h' => exact .fails (hfault.trans h')
    | passes h' hn' hg' =>
      refine .passes (hfault.trans h') ?_ ?_
      · rw [hn', hn, labelsOf, labelsOf, labelsOf, List.filterMap_append, List.append_assoc]
      · rw [hg', hg, gotosOf, gotosOf, gotosOf, List.filterMap_append, List.append_assoc]

theorem silent (h : ∀ d, ∃ a d', x d = .ok (a, d') ∧ d'.labels = d.labels ∧ d'.gotos = d.gotos) :
    Follows x [] := by
  refine ⟨fun d => ?_⟩
  obtain ⟨a, d', hx, hl, hg⟩ := h d
  rw [hx]
  refine .passes rfl ?_ ?_
  · simp [Draft.names, hl, labelsOf]
  · simp [Draft.aims, hg, gotosOf]

theorem silent_bind (hx : Follows x []) (hf : ∀ a, Follows (f a) ls) : Follows (x >>= f) ls :=
  hx.bind hf

theorem bind_silent (hx : Follows x ls) (hf : ∀ a, Follows (f a) []) : Follows (x >>= f) ls := by
  simpa using hx.bind hf

theorem cons_bind (hx : Follows x [l]) (hf : ∀ a, Follows (f a) ls) : Follows (x >>= f) (l :: ls) :=
  hx.bind hf

theorem skip (hx : Follows x ls) (hf : ∀ seen, faultOf seen l = none) (hl : l.stmt.label? = none)
    (hg : l.stmt.goto? = none) : Follows x (l :: ls) := by
  refine ⟨fun d => ?_⟩
  have hfault : firstFault d.names (l :: ls) = firstFault d.names ls := by simp [firstFault, hf, hl]
  have hd := hx.comes d
  generalize x d = r at hd ⊢
  cases hd with
  | fails h => exact .fails (hfault.trans h)
  | passes h hn h' =>
    refine .passes (hfault.trans h) ?_ ?_
    · simpa [labelsOf_cons, hl] using hn
    · simpa [gotosOf_cons, hg] using h'

theorem ite {c : Prop} [Decidable c] (hx : Follows x ls) (hy : Follows y ls) :
    Follows (if c then x else y) ls := by
  split
  · exact hx
  · exact hy

end Follows

theorem follows_pure {α : Type} (a : α) : Follows (pure a) [] :=
  .silent fun d => ⟨a, d, rfl, rfl, rfl⟩

theorem follows_newBlock (kind : BlockKind) : Follows (newBlock kind) [] :=
  .silent fun d => ⟨d.size, d.push kind, rfl, rfl, rfl⟩

theorem follows_link (s t : Nat) (kind : EdgeKind) : Follows (link s t kind) [] :=
  .silent fun d => ⟨(), d.link ⟨s, t, kind⟩, rfl, rfl, rfl⟩

theorem follows_append (id : Nat) (e : Element) : Follows (append id e) [] :=
  .silent fun d => ⟨(), d.append id [e], rfl, rfl, rfl⟩

theorem follows_linkFrom (s : Option Nat) (t : Nat) (kind : EdgeKind) :
    Follows (linkFrom s t kind) [] := by
  cases s with
  | none => exact follows_pure ()
  | some s => exact follows_link s t kind

theorem follows_current (cur : Option Nat) : Follows (current cur) [] := by
  cases cur with
  | none => exact follows_newBlock _
  | some id => exact follows_pure id

variable {e : FlowError} {l : Located}

theorem follows_target {t : Option Nat}
    (hf : ∀ seen, faultOf seen l = if t.isSome then none else some e) (hl : l.stmt.label? = none)
    (hg : l.stmt.goto? = none) : Follows (target t e) [l] := by
  refine ⟨fun d => ?_⟩
  cases t with
  | none => exact .fails (by simp [firstFault, hf])
  | some t =>
    exact .passes (by simp [firstFault, hf]) (by simp [labelsOf, hl]) (by simp [gotosOf, hg])

theorem Draft.lookup_isSome (d : Draft) (name : String) :
    (d.labels.lookup name).isSome = d.names.contains name := by
  rw [Draft.names]
  induction d.labels with
  | nil => rfl
  | cons x xs ih =>
    rw [List.lookup_cons, List.map_cons, List.contains_cons, ← ih]
    cases name == x.1 <;> rfl

theorem follows_openLabel {name : String} {s : Stmt} {p : Pos} {up : List Stmt} {addr : Address}
    (cur : Nat) : Follows (openLabel name p.line cur) [⟨up, addr, .label name s p⟩] := by
  refine ⟨fun d => ?_⟩
  have hrun : openLabel name p.line cur d =
      if d.names.contains name then .error (.labelTwice name p.line)
        else .ok (d.size, d.openLabel cur name) := by
    show (if (d.labels.lookup name).isSome = true then _ else _ : BuildM Nat) d = _
    rw [d.lookup_isSome]
    split <;> rfl
  rw [hrun]
  split
  · rename_i h
    exact .fails (by simp only [firstFault, faultOf, h, if_true, Option.some_or])
  · rename_i h
    refine .passes (by simp only [firstFault, faultOf, h]; rfl) ?_ ?_
    · simp [Draft.names, Draft.openLabel, Draft.name, Draft.link, Draft.push, labelsOf, Stmt.label?]
    · simp [Draft.aims, Draft.openLabel, Draft.name, Draft.link, Draft.push, gotosOf, Stmt.goto?]

/-- The targets that a scope has are those that the statements around give. -/
structure Scope.Reflects (sc : Scope) (up : List Stmt) : Prop where
  brk : sc.brk.isSome = up.any fun s => s.isLoop || s.isSwitch
  cont : sc.cont.isSome = up.any Stmt.isLoop
  dispatch : sc.dispatch.isSome = up.any Stmt.isSwitch

namespace Scope.Reflects

variable {sc : Scope} {up : List Stmt} {s : Stmt}

theorem plain (h : sc.Reflects up) (hl : s.isLoop = false) (hs : s.isSwitch = false) :
    sc.Reflects (up ++ [s]) := by
  refine ⟨?_, ?_, ?_⟩
  · simp [h.brk, hl, hs]
  · simp [h.cont, hl]
  · simp [h.dispatch, hs]

theorem loop (h : sc.Reflects up) (hl : s.isLoop = true) (hs : s.isSwitch = false) (b c : Nat) :
    Scope.Reflects { sc with brk := some b, cont := some c } (up ++ [s]) := by
  refine ⟨?_, ?_, ?_⟩
  · simp [hl]
  · simp [hl]
  · simp [h.dispatch, hs]

theorem switch (h : sc.Reflects up) (hl : s.isLoop = false) (hs : s.isSwitch = true) (b k : Nat) :
    Scope.Reflects { sc with brk := some b, dispatch := some k } (up ++ [s]) := by
  refine ⟨?_, ?_, ?_⟩
  · simp [hs]
  · simp [h.cont, hl]
  · simp [hs]

end Scope.Reflects

def Walks (exits : List String) (s : Stmt) : Prop :=
  ∀ sc up addr cur, sc.Reflects up → Follows (addStmt exits sc up addr s cur) (s.walkIn up addr)

def WalksAll (exits : List String) (ss : List Stmt) : Prop :=
  ∀ sc up addr n cur, sc.Reflects up →
    Follows (addAll exits sc up addr n ss cur) (Stmt.walkInAll up addr n ss)

variable {exits : List String}

theorem walks_simple (x : Simple) : Walks exits (.simple x) := by
  intro sc up addr cur _
  rw [Stmt.walkIn]
  refine Follows.skip ?_ (fun _ => rfl) rfl rfl
  cases x with
  | expr e p =>
    rw [addStmt]
    refine (follows_current cur).silent_bind fun cur => (follows_append ..).silent_bind
      fun _ => .ite ?_ ?_
    · exact (follows_link ..).silent_bind fun _ => follows_pure none
    · exact follows_pure _
  | decl t ds p =>
    rw [addStmt]
    refine (follows_current cur).silent_bind fun cur => .ite ?_ ?_
    · exact (follows_append ..).silent_bind fun _ => follows_pure _
    · exact follows_pure _

theorem walks_ret (v : Option Expr) (p : Pos) : Walks exits (.ret v p) := by
  intro sc up addr cur _
  rw [addStmt, Stmt.walkIn]
  refine Follows.skip ?_ (fun _ => rfl) rfl rfl
  refine (follows_current cur).silent_bind fun cur => (follows_append ..).silent_bind fun _ => ?_
  exact (follows_link ..).silent_bind fun _ => follows_pure none

theorem walks_empty (p : Pos) : Walks exits (.empty p) := by
  intro sc up addr cur _
  rw [addStmt, Stmt.walkIn]
  exact Follows.skip ((follows_current cur).silent_bind fun cur => follows_pure _)
    (fun _ => rfl) rfl rfl

theorem walks_goto (name : String) (p : Pos) : Walks exits (.goto name p) := by
  intro sc up addr cur _
  rw [addStmt, Stmt.walkIn]
  refine (follows_current cur).silent_bind fun cur => (follows_append ..).silent_bind fun _ => ?_
  refine ⟨fun d => ?_⟩
  show Comes d _ (.ok (none, d.jump ⟨cur, name, p.line⟩))
  refine .passes rfl ?_ ?_
  · simp [Draft.names, Draft.jump, labelsOf, Stmt.label?]
  · simp [Draft.aims, Draft.jump, gotosOf, Stmt.goto?]

theorem walks_brk (p : Pos) : Walks exits (.brk p) := by
  intro sc up addr cur hsc
  rw [addStmt, Stmt.walkIn]
  refine (follows_current cur).silent_bind fun cur => Follows.bind_silent
    (follows_target ?_ rfl rfl) fun t => ?_
  · intro seen
    rw [faultOf, hsc.brk]
  · exact (follows_link ..).silent_bind fun _ => follows_pure none

theorem walks_cont (p : Pos) : Walks exits (.cont p) := by
  intro sc up addr cur hsc
  rw [addStmt, Stmt.walkIn]
  refine (follows_current cur).silent_bind fun cur => Follows.bind_silent
    (follows_target ?_ rfl rfl) fun t => ?_
  · intro seen
    rw [faultOf, hsc.cont]
  · exact (follows_link ..).silent_bind fun _ => follows_pure none

variable {b : Stmt}

theorem walks_case (v : Option Expr) (p : Pos) (hb : Walks exits b) :
    Walks exits (.case v b p) := by
  intro sc up addr cur hsc
  rw [addStmt, Stmt.walkIn]
  refine (follows_current cur).silent_bind fun cur => Follows.cons_bind
    (follows_target ?_ rfl rfl) fun k => ?_
  · intro seen
    rw [faultOf, hsc.dispatch]
  · refine (follows_newBlock _).silent_bind fun block => (follows_link ..).silent_bind fun _ => ?_
    exact (follows_link ..).silent_bind fun _ => hb _ _ _ _ (hsc.plain rfl rfl)

theorem walks_label (name : String) (p : Pos) (hb : Walks exits b) :
    Walks exits (.label name b p) := by
  intro sc up addr cur hsc
  rw [addStmt, Stmt.walkIn]
  refine (follows_current cur).silent_bind fun cur => Follows.cons_bind (follows_openLabel cur)
    fun block => ?_
  exact hb _ _ _ _ (hsc.plain rfl rfl)

theorem walks_ifElse {a : Stmt} {b : Option Stmt} (c : Expr) (p : Pos) (ha : Walks exits a)
    (hb : ∀ s, b = some s → Walks exits s) : Walks exits (.ifElse c a b p) := by
  intro sc up addr cur hsc
  have hin : sc.Reflects (up ++ [Stmt.ifElse c a b p]) := hsc.plain rfl rfl
  have helse :
      ∀ cur join, Follows (addElse exits sc (up ++ [Stmt.ifElse c a b p]) (addr ++ [1]) cur join b)
        (Stmt.walkInElse (up ++ [Stmt.ifElse c a b p]) (addr ++ [1]) b) := by
    intro cur join
    cases hs : b with
    | none =>
      rw [addElse, Stmt.walkInElse]
      exact follows_link ..
    | some s =>
      rw [addElse, Stmt.walkInElse, ← hs]
      refine (follows_newBlock _).silent_bind fun no => (follows_link ..).silent_bind fun _ => ?_
      exact (hb s hs _ _ _ _ hin).bind_silent fun r => follows_linkFrom ..
  rw [addStmt, Stmt.walkIn]
  refine Follows.skip ?_ (fun _ => rfl) rfl rfl
  refine (follows_current cur).silent_bind fun cur => (follows_append ..).silent_bind fun _ => ?_
  refine (follows_newBlock _).silent_bind fun join => (follows_newBlock _).silent_bind fun yes => ?_
  refine (follows_link ..).silent_bind fun _ => (ha _ _ _ _ hin).bind fun r => ?_
  refine (follows_linkFrom ..).silent_bind fun _ => (helse cur join).bind_silent fun _ => ?_
  exact follows_pure _

theorem walks_whileDo (c : Expr) (p : Pos) (hb : Walks exits b) : Walks exits (.whileDo c b p) := by
  intro sc up addr cur hsc
  have hbody := fun after header body =>
    hb _ _ (addr ++ [0]) (some body) (hsc.loop (s := .whileDo c b p) rfl rfl after header)
  rw [addStmt, Stmt.walkIn]
  refine Follows.skip ?_ (fun _ => rfl) rfl rfl
  refine (follows_current cur).silent_bind fun cur => (follows_newBlock _).silent_bind
    fun header => ?_
  refine (follows_link ..).silent_bind fun _ => (follows_append ..).silent_bind fun _ => ?_
  refine (follows_newBlock _).silent_bind fun body => (follows_newBlock _).silent_bind
    fun after => ?_
  refine (follows_link ..).silent_bind fun _ => ?_
  have hrest := (hbody after header body).bind_silent fun r =>
    (follows_linkFrom r header .backEdge).silent_bind fun _ => follows_pure (some after)
  exact .ite ((follows_link ..).silent_bind fun _ => hrest) hrest

theorem walks_doWhile (c : Expr) (p : Pos) (hb : Walks exits b) : Walks exits (.doWhile b c p) := by
  intro sc up addr cur hsc
  rw [addStmt, Stmt.walkIn]
  refine Follows.skip ?_ (fun _ => rfl) rfl rfl
  refine (follows_current cur).silent_bind fun cur => (follows_newBlock _).silent_bind
    fun body => ?_
  refine (follows_link ..).silent_bind fun _ => (follows_newBlock _).silent_bind fun header => ?_
  refine (follows_newBlock _).silent_bind fun after => ?_
  refine (hb _ _ _ _ (hsc.loop rfl rfl after header)).bind_silent fun r => ?_
  refine (follows_linkFrom ..).silent_bind fun _ => (follows_append ..).silent_bind fun _ => ?_
  have hend : Follows (if (!isConstant trueLiterals c) = true then
      link header after .branchFalse >>= fun _ => pure (some after) else pure (some after)) [] :=
    .ite ((follows_link ..).silent_bind fun _ => follows_pure _) (follows_pure _)
  exact .ite ((follows_link ..).silent_bind fun _ => hend) hend

theorem walks_forDo (i : Option Simple) (c t : Option Expr) (p : Pos) (hb : Walks exits b) :
    Walks exits (.forDo i c t b p) := by
  intro sc up addr cur hsc
  have hbody := fun after step body =>
    hb _ _ (addr ++ [1]) (some body) (hsc.loop (s := .forDo i c t b p) rfl rfl after step)
  rw [addStmt, Stmt.walkIn]
  refine Follows.skip ?_ (fun _ => rfl) rfl rfl
  refine (follows_current cur).silent_bind fun cur => ?_
  extract_lets loop
  -- behind the first clause there is nothing on the walk but the body
  have hloop : ∀ r, Follows (loop r) (b.walkIn (up ++ [Stmt.forDo i c t b p]) (addr ++ [1])) := by
    intro r
    refine (follows_newBlock _).silent_bind fun header => (follows_link ..).silent_bind fun _ => ?_
    extract_lets tested
    have htested :
        ∀ r, Follows (tested r) (b.walkIn (up ++ [Stmt.forDo i c t b p]) (addr ++ [1])) := by
      intro r
      refine (follows_newBlock _).silent_bind fun step => ?_
      extract_lets stepped
      have hstepped :
          ∀ r, Follows (stepped r) (b.walkIn (up ++ [Stmt.forDo i c t b p]) (addr ++ [1])) := by
        intro r
        refine (follows_link ..).silent_bind fun _ => (follows_newBlock _).silent_bind
          fun body => ?_
        refine (follows_newBlock _).silent_bind
          fun after => (follows_link ..).silent_bind fun _ => ?_
        have hrest := (hbody after step body).bind_silent fun r =>
          (follows_linkFrom r step .fallThrough).silent_bind fun _ => follows_pure (some after)
        exact .ite ((follows_link ..).silent_bind fun _ => hrest) hrest
      split
      · exact (follows_append ..).silent_bind hstepped
      · exact hstepped ()
    split
    · exact (follows_append ..).silent_bind htested
    · exact htested ()
  cases hi : i with
  | none =>
    rw [hi] at hloop
    exact hloop ()
  | some x =>
    rw [hi] at hloop
    refine Follows.skip ?_ (fun _ => rfl) rfl rfl
    exact .ite ((follows_append ..).silent_bind hloop) (hloop ())

theorem walks_switch (c : Expr) (p : Pos) (hb : Walks exits b) : Walks exits (.switch c b p) := by
  intro sc up addr cur hsc
  rw [addStmt, Stmt.walkIn]
  refine Follows.skip ?_ (fun _ => rfl) rfl rfl
  refine (follows_current cur).silent_bind fun cur => (follows_append ..).silent_bind fun _ => ?_
  refine (follows_newBlock _).silent_bind fun after => (follows_newBlock _).silent_bind
    fun body => ?_
  refine (hb _ _ _ _ (hsc.switch rfl rfl after cur)).bind_silent fun r => ?_
  refine (follows_linkFrom ..).silent_bind fun _ => ?_
  exact .ite ((follows_link ..).silent_bind fun _ => follows_pure _) (follows_pure _)

theorem walksAll_nil : WalksAll exits [] := by
  intro sc up addr n cur _
  rw [addAll, Stmt.walkInAll]
  exact follows_pure cur

theorem walksAll_cons {s : Stmt} {ss : List Stmt} (hs : Walks exits s) (hss : WalksAll exits ss) :
    WalksAll exits (s :: ss) := by
  intro sc up addr n cur hsc
  rw [addAll, Stmt.walkInAll]
  exact (hs _ _ _ _ hsc).bind fun next => hss _ _ _ _ _ hsc

theorem walks_block {ss : List Stmt} (p : Pos) (hss : WalksAll exits ss) :
    Walks exits (.block ss p) := by
  intro sc up addr cur hsc
  rw [addStmt, Stmt.walkIn]
  refine Follows.skip ?_ (fun _ => rfl) rfl rfl
  exact (follows_current cur).silent_bind fun cur => hss _ _ _ _ _ (hsc.plain rfl rfl)

mutual
/-- The construction meets the statements of a body in the order of its walk. -/
theorem walks : ∀ s : Stmt, Walks exits s
  | .block ss p => walks_block p (walksAll ss)
  | .simple x => walks_simple x
  | .ret v p => walks_ret v p
  | .goto name p => walks_goto name p
  | .brk p => walks_brk p
  | .cont p => walks_cont p
  | .empty p => walks_empty p
  | .ifElse c a none p => walks_ifElse c p (walks a) (by simp)
  | .ifElse c a (some b) p => walks_ifElse c p (walks a) fun s hs => Option.some.inj hs ▸ walks b
  | .whileDo c b p => walks_whileDo c p (walks b)
  | .doWhile b c p => walks_doWhile c p (walks b)
  | .forDo i c t b p => walks_forDo i c t p (walks b)
  | .switch c b p => walks_switch c p (walks b)
  | .case v b p => walks_case v p (walks b)
  | .label name b p => walks_label name p (walks b)

theorem walksAll : ∀ ss : List Stmt, WalksAll exits ss
  | [] => walksAll_nil
  | s :: ss => walksAll_cons (walks s) (walksAll ss)
end

theorem firstLost_cons (labels : List String) (a : String × Nat) (gotos : List (String × Nat)) :
    firstLost labels (a :: gotos) = if labels.contains a.1 then firstLost labels gotos
    else some (.noLabel a.1 a.2) := by
  rw [firstLost, List.find?_cons]
  cases labels.contains a.1 <;> rfl

theorem linkGotos_cons (p : Pending) (ps : List Pending) (d : Draft) :
    linkGotos (p :: ps) d =
      target (d.labels.lookup p.label) (.noLabel p.label p.line) d >>= fun r =>
        linkGotos ps (r.2.link ⟨p.source, r.1, .goto⟩) := by
  rw [linkGotos]
  rfl

theorem linkGotos_outcome (ps : List Pending) (d : Draft) :
    (firstLost d.names (ps.map fun p => (p.label, p.line)) = none ∧
      ∃ d', linkGotos ps d = .ok ((), d')) ∨ ∃ e,
    firstLost d.names (ps.map fun p => (p.label, p.line)) = some e ∧ linkGotos ps d = .error e := by
  induction ps generalizing d with
  | nil => exact .inl ⟨rfl, d, rfl⟩
  | cons p ps ih =>
    rw [linkGotos_cons, List.map_cons, firstLost_cons, ← d.lookup_isSome]
    cases d.labels.lookup p.label with
    | none => exact .inr ⟨.noLabel p.label p.line, rfl, rfl⟩
    | some t => exact ih (d.link ⟨p.source, t, .goto⟩)

theorem addFunction_eq (exits : List String) (f : Function) :
    addFunction exits f emptyDraft =
      addStmt exits ⟨none, none, none⟩ [] [] f.body (some 2) blankDraft >>= fun p =>
        linkGotos p.2.gotos (p.2.leave p.1 exitId .ret) := by
  rw [addFunction]
  simp only [newBlock_bind, link_bind]
  show (addStmt exits ⟨none, none, none⟩ [] [] f.body (some 2) blankDraft >>= fun p => _) = _
  congr 1
  funext p
  show (linkFrom p.1 exitId .ret >>= _ : BuildM Unit) p.2 = _
  rw [linkFrom_bind, ← Draft.gotos_leave p.2 p.1 exitId .ret]
  rfl

/-- What is wrong with a body: the first fault of its walk, else the first `goto` that leads
nowhere. -/
def flaw (body : Stmt) : Option FlowError :=
  (firstFault [] body.located).or (firstLost (labelsOf body.located) (gotosOf body.located))

theorem build_outcome (exits : List String) (f : Function) :
    (flaw f.body = none ∧ ∃ g, build exits f = .ok g) ∨
    ∃ e, flaw f.body = some e ∧ build exits f = .error e := by
  have hbuild : build exits f = (addFunction exits f emptyDraft).map fun r => r.2.finish := rfl
  rw [hbuild, addFunction_eq]
  have hcomes :=
    (@walks exits f.body ⟨none, none, none⟩ [] [] (some 2) ⟨rfl, rfl, rfl⟩).comes blankDraft
  generalize addStmt exits ⟨none, none, none⟩ [] [] f.body (some 2) blankDraft = r at hcomes ⊢
  cases hcomes with
  | @fails e h =>
    have hfault : firstFault [] f.body.located = some e := h
    exact .inr ⟨e, by rw [flaw, hfault, Option.some_or], rfl⟩
  | @passes r d h hn hg =>
    have hfault : firstFault [] f.body.located = none := h
    have hnames : (d.leave r exitId .ret).names = labelsOf f.body.located := by
      rw [Draft.names, Draft.labels_leave]
      exact hn
    have haims : (d.gotos.map fun p => (p.label, p.line)) = gotosOf f.body.located := hg
    rw [flaw, hfault, Option.none_or, ← hnames, ← haims]
    show (_ ∧ ∃ g, (linkGotos d.gotos (d.leave r exitId .ret)).map (fun r => r.2.finish) = .ok g) ∨
      ∃ e, _ ∧ (linkGotos d.gotos (d.leave r exitId .ret)).map (fun r => r.2.finish) = .error e
    rcases linkGotos_outcome d.gotos (d.leave r exitId .ret) with ⟨hl, d', hrun⟩ | ⟨e, hl, hrun⟩
    · exact .inl ⟨hl, d'.finish, by rw [hrun]; rfl⟩
    · exact .inr ⟨e, hl, by rw [hrun]; rfl⟩

structure MayStand (l : Located) : Prop where
  brk : ∀ p, l.stmt = .brk p → ∃ s ∈ l.up, s.isLoop = true ∨ s.isSwitch = true
  cont : ∀ p, l.stmt = .cont p → ∃ s ∈ l.up, s.isLoop = true
  case : ∀ v b p, l.stmt = .case v b p → ∃ s ∈ l.up, s.isSwitch = true

theorem mayStand_iff : MayStand l ↔
    (∀ p, l.stmt = .brk p → ∃ s ∈ l.up, s.isLoop = true ∨ s.isSwitch = true) ∧
      (∀ p, l.stmt = .cont p → ∃ s ∈ l.up, s.isLoop = true) ∧
      ∀ v b p, l.stmt = .case v b p → ∃ s ∈ l.up, s.isSwitch = true :=
  ⟨fun h => ⟨h.brk, h.cont, h.case⟩, fun h => ⟨h.1, h.2.1, h.2.2⟩⟩

variable {seen : List String}

theorem faultOf_eq_none_iff :
    faultOf seen l = none ↔ (∀ name ∈ l.stmt.label?, name ∉ seen) ∧ MayStand l := by
  obtain ⟨up, addr, stmt⟩ := l
  rw [mayStand_iff]
  cases stmt with
  | brk p =>
    have hfault :
        faultOf seen ⟨up, addr, .brk p⟩ = none ↔ ∃ s ∈ up, s.isLoop = true ∨ s.isSwitch = true := by
      simp only [faultOf, ite_eq_left_iff, reduceCtorEq, imp_false, not_not, List.any_eq_true,
        Bool.or_eq_true]
    simp [hfault, Stmt.label?]
  | _ => simp [faultOf, Stmt.label?]

variable {ls : List Located}

theorem firstFault_eq_none_iff :
    firstFault seen ls = none ↔
      (labelsOf ls).Nodup ∧ (∀ name ∈ labelsOf ls, name ∉ seen) ∧ ∀ l ∈ ls, MayStand l := by
  induction ls generalizing seen with
  | nil => simp [firstFault, labelsOf]
  | cons l ls ih =>
    rw [firstFault, Option.or_eq_none_iff, faultOf_eq_none_iff, ih, labelsOf_cons]
    cases h : l.stmt.label? with
    | none => simp; grind
    | some name => simp; grind

structure Faultless (ls : List Located) : Prop where
  labels : (labelsOf ls).Nodup
  stands : ∀ l ∈ ls, MayStand l

theorem firstFault_nil_iff : firstFault [] ls = none ↔ Faultless ls := by
  rw [firstFault_eq_none_iff]
  exact ⟨fun h => ⟨h.1, h.2.2⟩, fun h => ⟨h.labels, by simp, h.stands⟩⟩

theorem firstFault_eq_some_iff :
    firstFault seen ls = some e ↔ ∃ pre l post, ls = pre ++ l :: post ∧ firstFault seen pre = none ∧
      faultOf (seen ++ labelsOf pre) l = some e := by
  constructor
  · intro h
    induction ls generalizing seen with
    | nil => cases h
    | cons l ls ih =>
      rw [firstFault] at h
      cases hl : faultOf seen l with
      | some e' =>
        rw [hl, Option.some_or] at h
        exact ⟨[], l, ls, rfl, rfl, by simpa [labelsOf, hl] using h⟩
      | none =>
        rw [hl, Option.none_or] at h
        obtain ⟨pre, l', post, rfl, hpre, hl'⟩ := ih h
        refine ⟨l :: pre, l', post, rfl, by rw [firstFault, hl, Option.none_or, hpre], ?_⟩
        rwa [labelsOf_cons, ← List.append_assoc]
  · rintro ⟨pre, l, post, rfl, hpre, hl⟩
    rw [firstFault_append, hpre, Option.none_or, firstFault, hl, Option.some_or]

theorem firstLost_eq_none_iff {labels : List String} {gotos : List (String × Nat)} :
    firstLost labels gotos = none ↔ ∀ a ∈ gotos, a.1 ∈ labels := by
  simp [firstLost]

theorem firstLost_append (labels : List String) (gotos gotos' : List (String × Nat)) :
    firstLost labels (gotos ++ gotos') = (firstLost labels gotos).or (firstLost labels gotos') := by
  rw [firstLost, List.find?_append, Option.map_or]
  rfl

theorem goto?_eq_some {s : Stmt} {a : String × Nat} (h : s.goto? = some a) :
    ∃ name p, s = .goto name p ∧ a = (name, p.line) := by
  cases s with
  | goto name p => exact ⟨name, p, rfl, (Option.some.inj h).symm⟩
  | _ => cases h

theorem firstLost_eq_some_iff {labels : List String} :
    firstLost labels (gotosOf ls) = some e ↔
    ∃ (pre : List Located) (l : Located) (post : List Located) (name : String) (p : Pos),
    ls = pre ++ l :: post ∧ (∀ a ∈ gotosOf pre, a.1 ∈ labels) ∧ l.stmt = .goto name p ∧
    name ∉ labels ∧ e = .noLabel name p.line := by
  constructor
  · intro h
    induction ls with
    | nil => cases h
    | cons l ls ih =>
      rw [gotosOf_cons, firstLost_append] at h
      cases hl : firstLost labels l.stmt.goto?.toList with
      | some e' =>
        rw [hl, Option.some_or] at h
        cases ha : l.stmt.goto? with
        | none =>
          rw [ha] at hl
          cases hl
        | some a =>
          obtain ⟨name, p, hs, rfl⟩ := goto?_eq_some ha
          rw [ha, Option.toList_some, firstLost_cons] at hl
          split at hl
          · cases hl
          · rename_i hn
            cases hl
            exact ⟨[], l, ls, name, p, rfl, by simp [gotosOf], hs, by simpa using hn,
              (Option.some.inj h).symm⟩
      | none =>
        rw [hl, Option.none_or] at h
        obtain ⟨pre, l', post, name, p, rfl, hpre, hrest⟩ := ih h
        refine ⟨l :: pre, l', post, name, p, rfl, fun a ha => ?_, hrest⟩
        rw [gotosOf_cons] at ha
        exact (List.mem_append.mp ha).elim (firstLost_eq_none_iff.mp hl a) (hpre a)
  · rintro ⟨pre, l, post, name, p, rfl, hpre, hs, hn, rfl⟩
    have hgoto : l.stmt.goto? = some (name, p.line) := by rw [hs, Stmt.goto?]
    rw [gotosOf, List.filterMap_append, ← gotosOf, ← gotosOf, firstLost_append,
      firstLost_eq_none_iff.mpr hpre, Option.none_or, gotosOf_cons, hgoto, Option.toList_some,
      List.singleton_append, firstLost_cons, if_neg]
    simpa using hn

structure WellFormed (body : Stmt) : Prop where
  /-- No label is there twice. -/
  labels : (body.walk.filterMap Stmt.label?).Nodup
  stands : ∀ l ∈ body.located, MayStand l
  /-- Every `goto` has its label in the body. -/
  gotos : ∀ name p, .goto name p ∈ body.walk → name ∈ body.walk.filterMap Stmt.label?

theorem labelsOf_located (body : Stmt) :
    labelsOf body.located = body.walk.filterMap Stmt.label? := by
  rw [← Stmt.map_stmt_walkIn [] [] body, List.filterMap_map]
  rfl

theorem gotosOf_located (body : Stmt) : gotosOf body.located = body.walk.filterMap Stmt.goto? := by
  rw [← Stmt.map_stmt_walkIn [] [] body, List.filterMap_map]
  rfl

theorem flaw_eq_none_iff {body : Stmt} : flaw body = none ↔ WellFormed body := by
  rw [flaw, Option.or_eq_none_iff, firstFault_nil_iff, firstLost_eq_none_iff, gotosOf_located,
    labelsOf_located]
  constructor
  · rintro ⟨⟨hl, hs⟩, hg⟩
    refine ⟨labelsOf_located body ▸ hl, hs, fun name p hm => ?_⟩
    exact hg (name, p.line) (List.mem_filterMap.mpr ⟨_, hm, rfl⟩)
  · rintro ⟨hl, hs, hg⟩
    refine ⟨⟨(labelsOf_located body).symm ▸ hl, hs⟩, fun a ha => ?_⟩
    obtain ⟨s, hm, hs⟩ := List.mem_filterMap.mp ha
    obtain ⟨name, p, rfl, rfl⟩ := goto?_eq_some hs
    exact hg name p hm

/-- A fault is about a statement that may not stand where it does, and names its line. -/
theorem faultOf_eq_some (h : faultOf seen l = some e) :
    e.isMalformed = true ∧ e.line = l.stmt.line := by
  obtain ⟨up, addr, stmt⟩ := l
  cases stmt with
  | label | brk | cont | case =>
    simp only [faultOf] at h
    split at h <;> cases h
    exact ⟨rfl, rfl⟩
  | _ => cases h

/-- A body has a graph just if its labels, jumps and cases fit together. Otherwise the error is
about the first statement of the walk that may not stand where it does, and if there is none, about
the first `goto` of the walk whose label is missing. Where control can come plays no part in it. -/
theorem build_rejects_exactly (exits : List String) (f : Function) :
    ((∃ g, build exits f = .ok g) ↔ WellFormed f.body) ∧
    ∀ e, build exits f = .error e ↔
      (∃ pre l post, f.body.located = pre ++ l :: post ∧ Faultless pre ∧
        faultOf (labelsOf pre) l = some e ∧ e.isMalformed = true ∧ e.line = l.stmt.line) ∨
      (Faultless f.body.located ∧
        ∃ pre l post name p, f.body.located = pre ++ l :: post ∧
          (∀ a ∈ gotosOf pre, a.1 ∈ labelsOf f.body.located) ∧ l.stmt = .goto name p ∧
          name ∉ labelsOf f.body.located ∧ e = .noLabel name p.line) := by
  constructor
  · rw [← flaw_eq_none_iff]
    rcases build_outcome exits f with ⟨hflaw, hg⟩ | ⟨e, hflaw, he⟩
    · exact ⟨fun _ => hflaw, fun _ => hg⟩
    · simp [hflaw, he]
  · intro e
    have herror : build exits f = .error e ↔ flaw f.body = some e := by
      rcases build_outcome exits f with ⟨hflaw, g, hg⟩ | ⟨e', hflaw, he⟩
      · simp [hflaw, hg]
      · simp [hflaw, he]
    rw [herror, flaw, Option.or_eq_some_iff, firstFault_eq_some_iff, firstFault_nil_iff,
      firstLost_eq_some_iff]
    refine or_congr_left ?_
    constructor
    · rintro ⟨pre, l, post, hw, hpre, hl⟩
      exact ⟨pre, l, post, hw, firstFault_nil_iff.mp hpre, hl, faultOf_eq_some hl⟩
    · rintro ⟨pre, l, post, hw, hpre, hl, -⟩
      exact ⟨pre, l, post, hw, firstFault_nil_iff.mpr hpre, hl⟩

end Flow

end JniContracts
