import JniContracts.Proofs.Edits
import JniContracts.Proofs.Spelling.Graphs
import JniContracts.Proofs.Splitting.Rows

/-!
The control-flow graph of a function with split declarations has the same blocks and edges. In the
place of the element of a split declaration its block has the elements of the names that are given
values.
-/

namespace JniContracts

def Row.placed (r : Row) : List Element := r.parts.filter Element.isPlaced

theorem Element.Resembles.isPlaced {e e' : Element} (h : e.Resembles e') :
    e'.isPlaced = e.isPlaced := by
  obtain ⟨chosen, hs⟩ := h.stmt
  rw [Element.isPlaced, Element.isPlaced, hs, h.exprs]
  cases e.stmt <;> rfl

theorem Row.Fits.placed_eq_nil_iff {P : Address → Prop} {r : Row} (h : r.Fits P) :
    r.placed = [] ↔ r.whole.isPlaced = false := by
  have hexprs := h.exprs
  cases h with
  | kept h => simp [Row.placed, h.isPlaced]
  | @split addr t ds p up parts _ _ hparts =>
    have hplaced : ∀ e ∈ parts, e.isPlaced = !e.exprs.isEmpty := by
      intro e he
      obtain ⟨d, -, hd⟩ := exists_of_forall₂ hparts he
      rw [Element.isPlaced, hd.stmt]
    have hwhole : (ds.flatMap Declarator.assignments).isEmpty = parts.all (·.exprs.isEmpty) := by
      rw [show ds.flatMap Declarator.assignments = _ from hexprs, Bool.eq_iff_iff, List.isEmpty_iff,
        List.flatMap_eq_nil_iff, List.all_eq_true]
      simp only [List.isEmpty_iff]
    rw [Row.placed, List.filter_eq_nil_iff, Element.isPlaced, Bool.not_eq_false', hwhole,
      List.all_eq_true]
    refine forall₂_congr fun e he => ?_
    simp [hplaced e he]

namespace Flow

structure Block.Splits (R : Row → Prop) (b b' : Block) : Prop where
  id : b'.id = b.id
  kind : b'.kind = b.kind
  rows : ∃ rows : List Row, (∀ r ∈ rows, R r) ∧ b.elements = rows.map Row.whole ∧
    b'.elements = rows.flatMap Row.placed

structure Draft.Splits (R : Row → Prop) (d d' : Draft) : Prop where
  blocks : List.Forall₂ (Block.Splits R) d.blocks.toList d'.blocks.toList
  edges : d'.edges = d.edges
  labels : d'.labels = d.labels
  gotos : d'.gotos = d.gotos

theorem Draft.Splits.size {R : Row → Prop} {d d' : Draft} (h : d.Splits R d') :
    d'.blocks.size = d.blocks.size := by
  rw [← Array.length_toList, ← Array.length_toList]
  exact h.blocks.length_eq.symm

/-- Both fail for the same reason, or both come to the same result and to drafts that belong
together. -/
inductive Agree {α : Type} (R : Row → Prop) : Except FlowError (α × Draft) →
  Except FlowError (α × Draft) → Prop where
  | ok {a : α} {d d' : Draft} (h : d.Splits R d') : Agree R (.ok (a, d)) (.ok (a, d'))
  | error (e : FlowError) : Agree R (.error e) (.error e)

def Tracks {α : Type} (R : Row → Prop) (m m' : BuildM α) : Prop :=
  ∀ d d', Draft.Splits R d d' → Agree R (m d) (m' d')

section Actions

variable {α β : Type} {R : Row → Prop}

theorem Tracks.pure (a : α) : Tracks R (Pure.pure a) (Pure.pure a) := fun _ _ h => .ok h

theorem Tracks.throw (e : FlowError) :
    Tracks R (MonadExcept.throw e : BuildM α) (MonadExcept.throw e) :=
  fun _ _ _ => .error e

theorem Tracks.bind {m m' : BuildM α} {k k' : α → BuildM β} (hm : Tracks R m m')
    (hk : ∀ a, Tracks R (k a) (k' a)) : Tracks R (m >>= k) (m' >>= k') := by
  intro d d' h
  have hrun := hm d d' h
  show Agree R ((m d).bind fun r => k r.1 r.2) ((m' d').bind fun r => k' r.1 r.2)
  generalize m d = x at hrun ⊢
  generalize m' d' = y at hrun ⊢
  cases hrun with
  | error e => exact .error e
  | ok hr => exact hk _ _ _ hr

/-- What is read from a draft may only be used where the other draft has the same. -/
theorem Tracks.get_bind {k k' : Draft → BuildM β}
    (hk : ∀ d d', Draft.Splits R d d' → Tracks R (k d) (k' d')) :
    Tracks R (get >>= k) (get >>= k') := fun d d' h => hk d d' h d d' h

theorem Tracks.modify {f f' : Draft → Draft}
    (hf : ∀ d d', Draft.Splits R d d' → Draft.Splits R (f d) (f' d')) :
    Tracks R (modify f) (modify f') := fun d d' h => .ok (hf d d' h)

theorem Tracks.ite {c : Prop} [Decidable c] {m m' n n' : BuildM α} (hm : Tracks R m m')
    (hn : Tracks R n n') : Tracks R (if c then m else n) (if c then m' else n') := by
  split
  · exact hm
  · exact hn

theorem Tracks.when {c : Prop} [Decidable c] {m m' : BuildM Unit} {k k' : Unit → BuildM α}
    (hm : Tracks R m m') (hk : ∀ a, Tracks R (k a) (k' a)) :
    Tracks R (if c then m >>= k else k ()) (if c then m' >>= k' else k' ()) :=
  .ite (.bind hm hk) (hk ())

theorem Tracks.forM {γ : Type} {m m' : γ → BuildM Unit} {l : List γ}
    (hm : ∀ x ∈ l, Tracks R (m x) (m' x)) : Tracks R (l.forM m) (l.forM m') := by
  induction l with
  | nil => exact .pure ()
  | cons x l ih =>
    exact .bind (hm x List.mem_cons_self) fun _ => ih fun y hy => hm y (List.mem_cons_of_mem _ hy)

theorem tracks_newBlock (kind : BlockKind) : Tracks R (newBlock kind) (newBlock kind) := by
  intro d d' h
  have hrun : ∀ d, newBlock kind d =
      .ok (d.blocks.size, { d with blocks := d.blocks.push ⟨d.blocks.size, kind, []⟩ }) :=
      fun _ => rfl
  rw [hrun, hrun, h.size]
  refine .ok ⟨?_, h.edges, h.labels, h.gotos⟩
  simp only [Array.toList_push]
  exact List.rel_append h.blocks (.cons ⟨rfl, rfl, [], by simp, rfl, rfl⟩ .nil)

theorem tracks_link (source target : Nat) (kind : EdgeKind) :
    Tracks R (link source target kind) (link source target kind) :=
  .modify fun _ _ h => ⟨h.blocks, by rw [h.edges], h.labels, h.gotos⟩

theorem tracks_linkFrom (source : Option Nat) (target : Nat) (kind : EdgeKind) :
    Tracks R (linkFrom source target kind) (linkFrom source target kind) := by
  cases source with
  | none => exact .pure ()
  | some s => exact tracks_link s target kind

theorem tracks_current (cur : Option Nat) : Tracks R (current cur) (current cur) := by
  cases cur with
  | none => exact tracks_newBlock .body
  | some id => exact .pure id

theorem tracks_target (t : Option Nat) (e : FlowError) : Tracks R (target t e) (target t e) := by
  cases t with
  | none => exact .throw e
  | some id => exact .pure id

theorem tracks_openLabel (name : String) (line cur : Nat) :
    Tracks R (openLabel name line cur) (openLabel name line cur) := by
  refine .get_bind fun d d' h => ?_
  rw [h.labels]
  refine .when (.throw _) fun _ => .bind (tracks_newBlock .label) fun block => ?_
  refine .bind (tracks_link _ _ _) fun _ => ?_
  exact .bind (.modify fun _ _ h => ⟨h.blocks, h.edges, by rw [h.labels], h.gotos⟩)
    fun _ => .pure block

theorem forall₂_modify {γ δ : Type} {S : γ → δ → Prop} {f : γ → γ} {f' : δ → δ}
    (hf : ∀ a b, S a b → S (f a) (f' b)) {l : List γ} {l' : List δ}
    (h : List.Forall₂ S l l') (i : Nat) : List.Forall₂ S (l.modify i f) (l'.modify i f') := by
  induction h generalizing i with
  | nil => rw [List.modify_nil, List.modify_nil]; exact .nil
  | cons hab hl ih =>
    cases i with
    | zero => exact .cons (hf _ _ hab) hl
    | succ i => exact .cons hab (ih i)

/-- The element of a row goes into a block before, and the elements that stand for it after. -/
theorem Draft.Splits.append {d d' : Draft} (h : d.Splits R d') (id : Nat) {r : Row} (hr : R r) :
    (d.append id [r.whole]).Splits R (d'.append id r.placed) := by
  refine ⟨?_, h.edges, h.labels, h.gotos⟩
  simp only [Draft.append, Array.toList_modify]
  refine forall₂_modify (fun b b' hb => ?_) h.blocks id
  obtain ⟨rows, hrows, he, he'⟩ := hb.rows
  refine ⟨hb.id, hb.kind, rows ++ [r], fun x hx => ?_, ?_, ?_⟩
  · rcases List.mem_append.mp hx with hx | hx
    · exact hrows x hx
    · exact List.mem_singleton.mp hx ▸ hr
  · rw [List.map_append, he]
    rfl
  · rw [List.flatMap_append, List.flatMap_singleton, he']

theorem tracks_append (id : Nat) {e e' : Element} (he : e'.isPlaced = true) (hr : R ⟨e, [e']⟩) :
    Tracks R (append id e) (append id e') := by
  have hplaced : Row.placed ⟨e, [e']⟩ = [e'] := by simp [Row.placed, he]
  refine .modify fun d d' h => ?_
  have happend := h.append id hr
  rw [hplaced] at happend
  exact happend

end Actions

section Statements

variable {R : Row → Prop} (exits : List String)

theorem Draft.append_append (d : Draft) (id : Nat) (es es' : List Element) :
    (d.append id es).append id es' = d.append id (es ++ es') := by
  have h : (d.blocks.modify id fun b => { b with elements := b.elements ++ es }).modify id
      (fun b => { b with elements := b.elements ++ es' }) =
        d.blocks.modify id fun b => { b with elements := b.elements ++ (es ++ es') } := by
    refine Array.ext_getElem? fun i => ?_
    simp only [Array.getElem?_modify]
    split <;> simp [Function.comp_def]
  simp only [Draft.append, h]

def appendAll (id : Nat) (es : List Element) : BuildM Unit := modify fun d => d.append id es

theorem appendAll_nil (id : Nat) : appendAll id [] = pure () := by
  funext d
  show Except.ok ((), d.append id []) = _
  rw [Draft.append_nil]
  rfl

theorem appendAll_append (id : Nat) (es es' : List Element) :
    (appendAll id es >>= fun _ => appendAll id es') = appendAll id (es ++ es') := by
  funext d
  show Except.ok ((), (d.append id es).append id es') = _
  rw [Draft.append_append]
  rfl

theorem addStmt_decl (scope : Scope) (up : List Stmt) (addr : Address) (t : String)
    (ds : List Declarator) (p : Pos) (cur : Option Nat) :
    addStmt exits scope up addr (.simple (.decl t ds p)) cur = (do
      let cur ← current cur
      appendAll cur (((Stmt.simple (.decl t ds p)).elementsIn up addr).filter Element.isPlaced)
      pure (some cur)) := by
  rw [addStmt]
  refine congrArg (current cur >>= ·) (funext fun cur => ?_)
  cases hx : (Simple.decl t ds p).exprs.isEmpty with
  | true =>
    have hnone :
        ((Stmt.simple (.decl t ds p)).elementsIn up addr).filter Element.isPlaced = [] := by
      simp [Stmt.elementsIn, Element.isPlaced, hx]
    rw [hnone, appendAll_nil]
    rfl
  | false =>
    have hone : ((Stmt.simple (.decl t ds p)).elementsIn up addr).filter Element.isPlaced =
        [⟨addr, .simple (.decl t ds p), .stmt, (Simple.decl t ds p).exprs, up⟩] := by
      simp [Stmt.elementsIn, Element.isPlaced, hx]
    rw [hone]
    rfl

theorem addAll_append (scope : Scope) (up : List Stmt) (addr : Address) (n : Nat)
    (ss ss' : List Stmt) (cur : Option Nat) :
    addAll exits scope up addr n (ss ++ ss') cur = (do
      let next ← addAll exits scope up addr n ss cur
      addAll exits scope up addr (n + ss.length) ss' next) := by
  induction ss generalizing n cur with
  | nil => rw [List.nil_append, addAll, pure_bind]; rfl
  | cons s ss ih =>
    simp only [List.cons_append, addAll, ih, bind_assoc, List.length_cons, Nat.add_assoc,
      Nat.add_comm 1]

theorem addAll_decls (scope : Scope) (up : List Stmt) (addr : Address) (t : String) (p : Pos)
    (d : Declarator) (ds : List Declarator) (n : Nat) (cur : Option Nat) :
    addAll exits scope up addr n ((d :: ds).map fun d => .simple (.decl t [d] p)) cur = (do
      let cur ← current cur
      appendAll cur
        ((Stmt.elementsOfAll up addr n ((d :: ds).map fun d => .simple (.decl t [d] p))).filter
          Element.isPlaced)
      pure (some cur)) := by
  induction ds generalizing d n cur with
  | nil =>
    simp only [List.map_cons, List.map_nil, addAll, addStmt_decl, Stmt.elementsOfAll,
      List.append_nil, bind_assoc, pure_bind]
  | cons d' ds ih =>
    rw [List.map_cons, addAll, addStmt_decl, Stmt.elementsOfAll, List.filter_append]
    simp only [bind_assoc, pure_bind, ih, current, ← appendAll_append]

theorem hasDefaultAmong_append (ss ss' : List Stmt) :
    hasDefaultAmong (ss ++ ss') = (hasDefaultAmong ss || hasDefaultAmong ss') := by
  induction ss with
  | nil => rfl
  | cons s ss ih => rw [List.cons_append, hasDefaultAmong, hasDefaultAmong, ih, Bool.or_assoc]

theorem hasDefaultAmong_apart (s : Stmt) : hasDefaultAmong s.apart = hasDefault s := by
  rcases s.apart_cases with hs | ⟨t, d, ds, p, rfl, hs⟩
  · rw [hs, hasDefaultAmong, hasDefaultAmong, Bool.or_false]
  · rw [hs]
    induction d :: ds with
    | nil => rfl
    | cons d ds ih => exact ih

mutual
theorem hasDefault_split :
    (s : Stmt) → (chosen : Address → Bool) → hasDefault (s.split chosen) = hasDefault s
  | .case none s p, chosen => rfl
  | .case (some v) s p, chosen => hasDefault_split s _
  | .label n s p, chosen => hasDefault_split s _
  | .block ss p, chosen => hasDefault_splitAll ss chosen 0
  | .ifElse c a b p, chosen => by
    rw [Stmt.split, hasDefault, hasDefault, hasDefault_split a, hasDefault_splitElse b]
  | .whileDo c b p, chosen => hasDefault_split b _
  | .doWhile b c p, chosen => hasDefault_split b _
  | .forDo i c t b p, chosen => hasDefault_split b _
  | .switch c b p, chosen => rfl
  | .simple x, chosen => rfl
  | .goto l p, chosen => rfl
  | .ret v p, chosen => rfl
  | .brk p, chosen => rfl
  | .cont p, chosen => rfl
  | .empty p, chosen => rfl

theorem hasDefault_splitAll : (ss : List Stmt) → (chosen : Address → Bool) → (n : Nat) →
    hasDefaultAmong (Stmt.splitAll chosen n ss) = hasDefaultAmong ss
  | [], _, _ => rfl
  | s :: ss, chosen, n => by
    rw [Stmt.splitAll, hasDefaultAmong_append, hasDefault_splitAll ss chosen (n + 1),
      hasDefaultAmong, ← hasDefault_split s (below chosen n)]
    split
    · rw [hasDefaultAmong_apart]
    · rw [hasDefaultAmong, hasDefaultAmong, Bool.or_false]

theorem hasDefault_splitElse : (o : Option Stmt) → (chosen : Address → Bool) →
    hasDefaultElse (Stmt.splitElse chosen o) = hasDefaultElse o
  | none, _ => rfl
  | some s, chosen => hasDefault_split s chosen
end

/-- Those of the rows that have a place before have some property; the others have no place
after. -/
def Admits (R : Row → Prop) (rows : List Row) : Prop :=
  ∀ r ∈ rows, (r.whole.isPlaced = true → R r) ∧ (r.whole.isPlaced = false → r.placed = [])

theorem admits_append {rows rows' : List Row} :
    Admits R (rows ++ rows') ↔ Admits R rows ∧ Admits R rows' :=
  List.forall_mem_append

theorem admits_cons {r : Row} {rows : List Row} :
    Admits R (r :: rows) ↔
    ((r.whole.isPlaced = true → R r) ∧ (r.whole.isPlaced = false → r.placed = [])) ∧
    Admits R rows :=
  List.forall_mem_cons

theorem tracks_row (id : Nat) {r : Row} (h : Admits R [r]) :
    Tracks R (appendAll id ([r.whole].filter Element.isPlaced)) (appendAll id r.placed) := by
  obtain ⟨hr, hnone⟩ := h r List.mem_cons_self
  cases hp : r.whole.isPlaced with
  | true =>
    rw [List.filter_cons_of_pos hp]
    exact .modify fun _ _ h => h.append id (hr hp)
  | false =>
    rw [List.filter_cons_of_neg (by simp [hp]), hnone hp, List.filter_nil, appendAll_nil]
    exact .pure ()

mutual
theorem tracks_addStmt :
    (s : Stmt) → (chosen : Address → Bool) → (w : Seat) → (scope : Scope) → (cur : Option Nat) →
    Admits R (s.rowsIn chosen w) → Tracks R (addStmt exits scope w.up w.addr s cur)
      (addStmt exits scope w.up' w.addr' (s.split chosen) cur)
  | .block ss p, chosen, w, scope, cur, hR => by
    rw [Stmt.rowsIn] at hR
    exact .bind (tracks_current cur) fun cur => tracks_addAll ss chosen _ scope 0 0 (some cur) hR
  | .simple x, chosen, w, scope, cur, hR => by
    cases x with
    | expr e p =>
      refine .bind (tracks_current cur) fun cur => ?_
      refine .bind (tracks_append cur rfl ((hR _ List.mem_cons_self).1 rfl)) fun _ => ?_
      exact .ite (.bind (tracks_link _ _ _) fun _ => .pure none) (.pure (some cur))
    | decl t ds p =>
      rw [Stmt.split, addStmt_decl, addStmt_decl]
      refine .bind (tracks_current cur) fun cur => .bind ?_ fun _ => .pure (some cur)
      exact tracks_row cur hR
  | .ret v p, chosen, w, scope, cur, hR => by
    refine .bind (tracks_current cur) fun cur => ?_
    exact .bind (tracks_append cur rfl ((hR _ List.mem_cons_self).1 rfl)) fun _ =>
      .bind (tracks_link _ _ _) fun _ => .pure none
  | .goto l p, chosen, w, scope, cur, hR => by
    refine .bind (tracks_current cur) fun cur => ?_
    refine .bind (tracks_append cur rfl ((hR _ List.mem_cons_self).1 rfl)) fun _ => ?_
    exact .bind (.modify fun _ _ h => ⟨h.blocks, h.edges, h.labels, by rw [h.gotos]⟩)
      fun _ => .pure none
  | .brk p, chosen, w, scope, cur, hR => by
    refine .bind (tracks_current cur) fun cur => .bind (tracks_target _ _) fun t => ?_
    exact .bind (tracks_link _ _ _) fun _ => .pure none
  | .cont p, chosen, w, scope, cur, hR => by
    refine .bind (tracks_current cur) fun cur => .bind (tracks_target _ _) fun t => ?_
    exact .bind (tracks_link _ _ _) fun _ => .pure none
  | .empty p, chosen, w, scope, cur, hR => .bind (tracks_current cur) fun cur => .pure (some cur)
  | .ifElse c a b p, chosen, w, scope, cur, hR => by
    rw [Stmt.rowsIn, admits_cons, admits_append] at hR
    obtain ⟨hown, ha, hb⟩ := hR
    refine .bind (tracks_current cur) fun cur => .bind
      (tracks_append cur rfl (hown.1 rfl)) fun _ => ?_
    refine .bind (tracks_newBlock .join) fun join => .bind (tracks_newBlock .yes) fun yes => ?_
    refine .bind (tracks_link _ _ _) fun _ => .bind (tracks_addStmt a _ _ scope (some yes) ha)
      fun out => ?_
    refine .bind (tracks_linkFrom _ _ _) fun _ => ?_
    exact .bind (tracks_addElse b _ _ scope cur join hb) fun _ => .pure (some join)
  | .whileDo c b p, chosen, w, scope, cur, hR => by
    rw [Stmt.rowsIn, admits_cons] at hR
    refine .bind (tracks_current cur) fun cur => .bind (tracks_newBlock .loopHeader)
      fun header => ?_
    refine .bind (tracks_link _ _ _)
      fun _ => .bind (tracks_append header rfl (hR.1.1 rfl)) fun _ => ?_
    refine .bind (tracks_newBlock .loopBody) fun body => .bind (tracks_newBlock .loopExit)
      fun after => ?_
    refine .bind (tracks_link _ _ _) fun _ => .when (tracks_link _ _ _) fun _ => ?_
    refine .bind (tracks_addStmt b _ _ _ (some body) hR.2) fun out => ?_
    exact .bind (tracks_linkFrom _ _ _) fun _ => .pure (some after)
  | .doWhile b c p, chosen, w, scope, cur, hR => by
    rw [Stmt.rowsIn, admits_append, admits_cons] at hR
    refine .bind (tracks_current cur) fun cur => .bind (tracks_newBlock .loopBody) fun body => ?_
    refine .bind (tracks_link _ _ _) fun _ => .bind (tracks_newBlock .loopHeader) fun header => ?_
    refine .bind (tracks_newBlock .loopExit) fun after => ?_
    refine .bind (tracks_addStmt b _ _ _ (some body) hR.1) fun out => .bind
      (tracks_linkFrom _ _ _) fun _ => ?_
    refine .bind (tracks_append header rfl (hR.2.1.1 rfl)) fun _ => ?_
    exact .when (tracks_link _ _ _) fun _ => .when (tracks_link _ _ _) fun _ => .pure (some after)
  | .forDo i c t b p, chosen, w, scope, cur, hR => by
    rw [Stmt.rowsIn, admits_append, admits_append, admits_append] at hR
    obtain ⟨⟨⟨hi, hc⟩, hb⟩, ht⟩ := hR
    rw [Stmt.split, addStmt_forDo_eq, addStmt_forDo_eq]
    refine .bind (tracks_current cur) fun cur => .bind (.forM fun x hx => ?_) fun _ => ?_
    · obtain ⟨hx, hne⟩ := List.mem_filter.mp hx
      exact tracks_append cur hne ((hi _ (List.mem_map.mpr ⟨x, hx, rfl⟩)).1 hne)
    refine .bind (tracks_newBlock .loopHeader) fun header => .bind (tracks_link _ _ _) fun _ => ?_
    refine .bind (.forM fun x hx => ?_) fun _ => ?_
    · exact tracks_append header rfl ((hc _ (List.mem_map.mpr ⟨x, hx, rfl⟩)).1 rfl)
    refine .bind (tracks_newBlock .loopStep) fun step => .bind (.forM fun x hx => ?_) fun _ => ?_
    · exact tracks_append step rfl ((ht _ (List.mem_map.mpr ⟨x, hx, rfl⟩)).1 rfl)
    refine .bind (tracks_link _ _ _) fun _ => .bind (tracks_newBlock .loopBody) fun body => ?_
    refine .bind (tracks_newBlock .loopExit) fun after => .bind (tracks_link _ _ _) fun _ => ?_
    refine .when (tracks_link _ _ _) fun _ => .bind (tracks_addStmt b _ _ _ (some body) hb)
      fun out => ?_
    exact .bind (tracks_linkFrom _ _ _) fun _ => .pure (some after)
  | .switch c b p, chosen, w, scope, cur, hR => by
    rw [Stmt.rowsIn, admits_cons] at hR
    rw [Stmt.split, addStmt, addStmt, hasDefault_split]
    refine .bind (tracks_current cur) fun cur => .bind
      (tracks_append cur rfl (hR.1.1 rfl)) fun _ => ?_
    refine .bind (tracks_newBlock .switchExit) fun after => .bind (tracks_newBlock .body)
      fun body => ?_
    refine .bind (tracks_addStmt b _ _ _ (some body) hR.2) fun out => .bind
      (tracks_linkFrom _ _ _) fun _ => ?_
    exact .when (tracks_link _ _ _) fun _ => .pure (some after)
  | .case v b p, chosen, w, scope, cur, hR => by
    rw [Stmt.rowsIn] at hR
    refine .bind (tracks_current cur) fun cur => .bind (tracks_target _ _) fun dispatch => ?_
    refine .bind (tracks_newBlock .case) fun block => .bind (tracks_link _ _ _) fun _ => ?_
    exact .bind (tracks_link _ _ _) fun _ => tracks_addStmt b _ _ scope (some block) hR
  | .label name b p, chosen, w, scope, cur, hR => by
    rw [Stmt.rowsIn] at hR
    refine .bind (tracks_current cur) fun cur => .bind (tracks_openLabel name p.line cur)
      fun block => ?_
    exact tracks_addStmt b _ _ scope (some block) hR

theorem tracks_addAll :
    (ss : List Stmt) → (chosen : Address → Bool) → (w : Seat) → (scope : Scope) → (n n' : Nat) →
    (cur : Option Nat) → Admits R (Stmt.rowsOfAll chosen w n n' ss) →
    Tracks R (addAll exits scope w.up w.addr n ss cur)
      (addAll exits scope w.up' w.addr' n' (Stmt.splitAll chosen n ss) cur)
  | [], _, _, _, _, _, cur, _ => .pure cur
  | s :: ss, chosen, w, scope, n, n', cur, hR => by
    rw [Stmt.rowsOfAll, admits_append] at hR
    obtain ⟨hs, hss⟩ := hR
    have hsplit :
        Stmt.splitAll chosen n (s :: ss) =
        Stmt.replacement chosen n s ++ Stmt.splitAll chosen (n + 1) ss := rfl
    rw [hsplit, addAll_append, addAll, Stmt.length_replacement]
    refine .bind ?_ fun next => tracks_addAll ss chosen w scope _ _ next hss
    cases hc : chosen [n] && s.declares with
    | true =>
      rw [if_pos hc] at hs
      rw [Stmt.replacement_of_declares hc]
      have hparts := Stmt.parts_divide w n n' (Bool.and_eq_true_iff.mp hc).2
      obtain ⟨t, d, ds, p, rfl⟩ := Stmt.declares_cases (Bool.and_eq_true_iff.mp hc).2
      rw [addStmt_decl, Stmt.apart, addAll_decls]
      refine .bind (tracks_current cur) fun cur => .bind ?_ fun _ => .pure (some cur)
      have hrow := tracks_row cur hs
      rw [Row.placed, hparts] at hrow
      exact hrow
    | false =>
      rw [if_neg (by simp [hc])] at hs
      rw [Stmt.replacement_of_kept hc]
      simp only [addAll, bind_pure]
      exact tracks_addStmt s _ (w.part n n') scope cur hs

theorem tracks_addElse :
    (o : Option Stmt) → (chosen : Address → Bool) → (w : Seat) → (scope : Scope) →
    (cur join : Nat) → Admits R (Stmt.rowsOfElse chosen w o) →
    Tracks R (addElse exits scope w.up w.addr cur join o)
      (addElse exits scope w.up' w.addr' cur join (Stmt.splitElse chosen o))
  | none, _, _, _, cur, join, _ => tracks_link cur join .branchFalse
  | some s, chosen, w, scope, cur, join, hR => by
    refine .bind (tracks_newBlock .no) fun no => .bind (tracks_link _ _ _) fun _ => ?_
    exact .bind (tracks_addStmt s chosen w scope (some no) hR)
      fun out => tracks_linkFrom out join .fallThrough
end

theorem tracks_linkGotos (ps : List Pending) : Tracks R (linkGotos ps) (linkGotos ps) := by
  induction ps with
  | nil => exact .pure ()
  | cons p ps ih =>
    refine .get_bind fun d d' h => ?_
    rw [h.labels]
    exact .bind (tracks_target _ _) fun t => .bind (tracks_link _ _ _) fun _ => ih

theorem tracks_addFunction {chosen : Address → Bool} {f : Function}
    (hR : Admits R (f.body.rows chosen)) :
    Tracks R (addFunction exits f) (addFunction exits (f.split chosen)) := by
  refine .bind (tracks_newBlock .entry) fun entry => .bind (tracks_newBlock .exit) fun exit => ?_
  refine .bind (tracks_newBlock .body) fun start => .bind (tracks_link _ _ _) fun _ => ?_
  refine .bind (tracks_addStmt exits f.body chosen .outermost _ (some start) hR) fun out => ?_
  refine .bind (tracks_linkFrom _ _ _) fun _ => .get_bind fun d d' h => ?_
  rw [h.gotos]
  exact tracks_linkGotos d.gotos

end Statements

structure Graph.Splits (R : Row → Prop) (g g' : Graph) : Prop where
  exit : g'.exit = g.exit
  edges : g'.edges = g.edges
  blocks : List.Forall₂ (Block.Splits R) g.blocks g'.blocks

theorem Draft.Splits.finish {R : Row → Prop} {d d' : Draft} (h : d.Splits R d') :
    d.finish.Splits R d'.finish := by
  refine ⟨rfl, ?_, ?_⟩
  · simp only [Draft.finish, h.edges, h.size]
  · simp only [Draft.finish, h.edges, h.size]
    exact List.rel_filter (fun b b' hb => by simp only [hb.id]) h.blocks

def placedRows (chosen : Address → Bool) (f : Function) (r : Row) : Prop :=
  r ∈ f.body.rows chosen ∧ r.whole.isPlaced = true

/-- Splitting declarations keeps the graph, or the reason why there is none. -/
theorem build_split (exits : List String) (chosen : Address → Bool) (f : Function) :
    (∃ e, build exits f = .error e ∧ build exits (f.split chosen) = .error e) ∨
    ∃ g g', build exits f = .ok g ∧ build exits (f.split chosen) = .ok g' ∧
    g.Splits (placedRows chosen f) g' := by
  have hadmits : Admits (placedRows chosen f) (f.body.rows chosen) := fun r hr =>
    ⟨fun hp => ⟨hr, hp⟩, ((f.body.covers_rows chosen).fits r hr).placed_eq_nil_iff.mpr⟩
  have hrun :=
    tracks_addFunction exits hadmits ⟨#[], #[], [], []⟩ ⟨#[], #[], [], []⟩ ⟨.nil, rfl, rfl, rfl⟩
  have hbuild :
      ∀ f, build exits f = (addFunction exits f ⟨#[], #[], [], []⟩).map fun r => r.2.finish := by
    intro f
    rw [build, StateT.run]
    cases addFunction exits f ⟨#[], #[], [], []⟩ <;> rfl
  rw [hbuild, hbuild]
  generalize addFunction exits f ⟨#[], #[], [], []⟩ = x at hrun ⊢
  generalize addFunction exits (f.split chosen) ⟨#[], #[], [], []⟩ = y at hrun ⊢
  cases hrun with
  | error e => exact .inl ⟨e, rfl, rfl⟩
  | ok h => exact .inr ⟨_, _, rfl, rfl, h.finish⟩

end Flow

end JniContracts
