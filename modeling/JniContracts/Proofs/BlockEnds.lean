import JniContracts.Proofs.ControlFlow

/-!
How blocks end. Once control leads on from a block the block is sealed: nothing is put behind a
condition, and only a condition has more than one way on. Every block that a statement has begun is
sealed when the statement is added, save the one in which control comes out of it.
-/

namespace JniContracts

def Element.alwaysHolds (e : Element) : Bool :=
  e.stmt.isLoop && e.exprs.any (Flow.isConstant Flow.trueLiterals)

namespace Flow

open Execution

def Straight (es : List Element) : Prop := ∀ e ∈ es, e.role ≠ .cond

/-- The code of a block and the edges out of it, when nothing is to come any more. -/
inductive Sealed (b : Nat) : List Element → List Edge → Prop where
  | single {es t kind} (h : Straight es) : Sealed b es [⟨b, t, kind⟩]
  | branch {es : List Element} {e : Element} {yes no : Nat} (h : Straight es)
      (he : e.isBranch = true) :
      Sealed b (es ++ [e]) (⟨b, yes, .branchTrue⟩ :: if e.alwaysHolds then []
        else [⟨b, no, .branchFalse⟩])
  /-- The condition of a `do` loop or of a switch. -/
  | choice {es : List Element} {e : Element} {edges : List Edge} (h : Straight es)
      (hr : e.role = .cond) (hb : e.isBranch = false) (hne : edges ≠ []) (hn : edges.Nodup)
      (hk : ∀ x ∈ edges, x.kind ≠ .goto) : Sealed b (es ++ [e]) edges

theorem straight_nil : Straight [] := by simp [Straight]

variable {es : List Element}

theorem Straight.append {es' : List Element} (h : Straight es) (h' : Straight es') :
    Straight (es ++ es') :=
  fun e he => (List.mem_append.mp he).elim (h e) (h' e)

theorem straight_element (l : Located) {role : Role} (exprs : List Expr) (h : role ≠ .cond) :
    Straight [l.element role exprs] := by
  intro e he
  rw [List.mem_singleton.mp he]
  exact h

theorem straight_evaluated (l : Located) {role : Role} (x : Simple) (h : role ≠ .cond) :
    Straight (l.evaluated role x) := by
  unfold Located.evaluated
  split
  · exact straight_nil
  · exact straight_element l _ h

theorem straight_initial (l : Located) : Straight l.initial := by
  unfold Located.initial
  split
  · exact straight_evaluated _ _ (by decide)
  · exact straight_nil

theorem straight_advance (l : Located) : Straight l.advance := by
  unfold Located.advance
  split
  · exact straight_element l _ (by decide)
  · exact straight_nil

structure Between (lo hi : Nat) (cs : List Nat) : Prop where
  nodup : cs.Nodup
  range : ∀ t ∈ cs, lo ≤ t ∧ t < hi

theorem Between.append {lo mid hi : Nat} {cs cs' : List Nat} (h : Between lo mid cs)
    (h' : Between mid hi cs') (hlo : lo ≤ mid) (hhi : mid ≤ hi) : Between lo hi (cs ++ cs') := by
  refine ⟨List.nodup_append.mpr ⟨h.nodup, h'.nodup, fun t ht t' ht' => ?_⟩, fun t ht => ?_⟩
  · have := h.range t ht
    have := h'.range t' ht'
    omega
  · rcases List.mem_append.mp ht with ht | ht
    · have := h.range t ht
      omega
    · have := h'.range t ht
      omega

/-- The edges that a statement adds to the switch around lead to different new blocks. If `q`, there
are some. -/
def Routes (labels : List (String × Nat)) (dispatch : Option Nat) (q : Bool) (d d' : Draft) :
    Prop :=
  ∀ k, dispatch = some k → ∃ cs : List Nat,
    d'.out labels k = d.out labels k ++ cs.map (⟨k, ·, .switchCase⟩) ∧ Between d.size d'.size cs ∧
      (q = true → cs ≠ [])

variable {exits : List String} {labels : List (String × Nat)} {dispatch next : Option Nat}
  {d d' d₁ D : Draft} {cs : List Nat} {q q' : Bool} {b : Stmt}

namespace Routes

theorem of_eq (h : ∀ k, dispatch = some k → d'.out labels k = d.out labels k) :
    Routes labels dispatch false d d' :=
  fun k hk => ⟨[], by simp [h k hk], ⟨by simp, by simp⟩, by simp⟩

theorem trans (h : Routes labels dispatch q d d₁) (h' : Routes labels dispatch q' d₁ d')
    (hsize : d.size ≤ d₁.size) (hsize' : d₁.size ≤ d'.size) :
    Routes labels dispatch (q || q') d d' := by
  intro k hk
  obtain ⟨cs, hout, hcs, hne⟩ := h k hk
  obtain ⟨cs', hout', hcs', hne'⟩ := h' k hk
  refine ⟨cs ++ cs', ?_, hcs.append hcs' hsize hsize', fun hq => ?_⟩
  · rw [hout', hout, List.map_append, List.append_assoc]
  · rcases Bool.or_eq_true_iff.mp hq with hq | hq
    · simp [hne hq]
    · simp [hne' hq]

theorem of_changes {cur : Nat} (h : Changes labels cur dispatch d d' []) :
    Routes labels dispatch false d d' :=
  of_eq fun k hk => by simpa using h.cases k hk

theorem within {cur : Nat} (h : Routes labels dispatch q d₁ d')
    (hch : Changes labels cur dispatch d d₁ []) (hsize : d₁.size ≤ d'.size) :
    Routes labels dispatch q d d' := by
  simpa using (of_changes hch).trans h hch.size hsize

end Routes

/-- What holds of the blocks of a statement that was added from `cur` on: they are sealed, save the
one in which control comes out, and in that one it goes straight on. -/
structure Seals (labels : List (String × Nat)) (dispatch : Option Nat) (q : Bool) (cur : Option Nat)
  (d d' : Draft) (next : Option Nat) : Prop where
  closed : ∀ b, b < d'.size → cur = some b ∨ d.size ≤ b → next ≠ some b →
    Sealed b (d'.code b) (d'.out labels b)
  straight : ∀ n, next = some n → Straight (d'.code n)
  routes : Routes labels dispatch q d d'

def Resolved (labels : List (String × Nat)) (d : Draft) : Prop :=
  ∀ p ∈ d.gotos, ∃ t, labels.lookup p.label = some t

def Sealing (exits : List String) (labels : List (String × Nat)) (s : Stmt) : Prop :=
  ∀ sc up addr cur d next d', addStmt exits sc up addr s cur d = .ok (next, d') →
    Opened labels cur sc.dispatch d → (∀ c, cur = some c → Straight (d.code c)) →
    Resolved labels d' →
    Seals labels sc.dispatch (hasDefault s) cur d d' next

theorem sealing_of_some {s : Stmt}
    (h : ∀ sc up addr cur d next d', addStmt exits sc up addr s (some cur) d = .ok (next, d') →
      Opened labels (some cur) sc.dispatch d → Straight (d.code cur) → Resolved labels d' →
      Seals labels sc.dispatch (hasDefault s) (some cur) d d' next) : Sealing exits labels s := by
  intro sc up addr cur d next d' hrun ho hst hg
  cases cur with
  | some c => exact h sc up addr c d next d' hrun ho (hst c rfl) hg
  | none =>
    rw [addStmt_none] at hrun
    have hnew : (d.push .body).code d.size = [] := by simp [d.code_of_size_le]
    obtain ⟨hclosed, hstraight, hroutes⟩ :=
      h sc up addr d.size _ next d' hrun (ho.push _) (hnew ▸ straight_nil) hg
    refine ⟨fun b hb hown hne => hclosed b hb ?_ hne, hstraight, fun k hk => ?_⟩
    · simp only [reduceCtorEq, false_or] at hown
      simp only [Option.some.injEq, Draft.size_push]
      omega
    · obtain ⟨cs, hout, ⟨hnodup, hrange⟩, hne⟩ := hroutes k hk
      refine ⟨cs, hout, ⟨hnodup, fun t ht => ?_⟩, hne⟩
      have := hrange t ht
      rw [Draft.size_push] at this
      omega

/-- A part of a statement is added from a new block on, and control is led on from it. -/
theorem Sealing.part {s : Stmt} {sc : Scope} {up : List Stmt} {addr : Address} {b : Nat}
    (hs : Sealing exits labels s) (hrun : addStmt exits sc up addr s (some b) D = .ok (next, d₁))
    (ho : Opened labels (some b) sc.dispatch D) (hnew : D.code b = []) (hg : Resolved labels d₁)
    (t : Nat) (kind : EdgeKind) (hk : kind ≠ .branchTrue ∧ kind ≠ .branchFalse) :
    (∃ cs, Adds labels (some b) sc.dispatch D (d₁.leave next t kind) none cs) ∧
    Seals labels sc.dispatch (hasDefault s) (some b) D (d₁.leave next t kind) none := by
  obtain ⟨cs, hlays⟩ := adequate s _ _ _ _ _ _ _ hrun ho
  obtain ⟨hadds, -⟩ := hlays.leave ho t kind hk
  refine ⟨⟨cs, hadds⟩, ?_⟩
  obtain ⟨hclosed, hstraight, hroutes⟩ :=
    hs _ _ _ _ _ _ _ hrun ho (by simpa [hnew] using straight_nil) hg
  refine ⟨fun n hn hown _ => ?_, by simp, fun k hk => ?_⟩
  · rw [Draft.size_leave] at hn
    by_cases hnext : next = some n
    · rw [Draft.code_leave, Draft.out_leave, (hlays.adds.next n hnext).2.1, if_pos hnext]
      exact .single (hstraight n hnext)
    · rw [Draft.code_leave, Draft.out_leave, if_neg hnext, List.append_nil]
      exact hclosed n hn hown hnext
  · obtain ⟨cs', hout, hcs, hne⟩ := hroutes k hk
    have hknext : next ≠ some k := by
      intro hnext
      obtain ⟨hklt, hkb⟩ := ho.away k hk
      have := (hlays.adds.next k hnext).2.2
      rcases this with h | h
      · exact hkb h
      · omega
    exact ⟨cs', by simp [hknext, hout], by simpa using hcs, hne⟩

theorem seals_append {c : Nat} (ho : Opened labels (some c) dispatch d) (hst : Straight (d.code c))
    (hes : Straight es) : Seals labels dispatch false (some c) d (d.append c es) (some c) := by
  obtain ⟨hlt, -⟩ := ho.here c rfl
  refine ⟨fun b hb hown hne => ?_, ?_, .of_eq fun k _ => rfl⟩
  · rw [Draft.size_append] at hb
    simp only [ne_eq, Option.some.injEq] at hown hne
    omega
  · rintro _ ⟨⟩
    rw [Draft.code_append _ _ hlt, if_pos rfl]
    exact hst.append hes

theorem seals_jump {c : Nat} (t : Nat) (kind : EdgeKind) (ho : Opened labels (some c) dispatch d)
    (hst : Straight (d.code c)) (hes : Straight es) :
    Seals labels dispatch false (some c) d ((d.append c es).link ⟨c, t, kind⟩) none := by
  obtain ⟨hlt, hout⟩ := ho.here c rfl
  refine ⟨fun b hb hown _ => ?_, by simp, .of_eq fun k hk => ?_⟩
  · rw [Draft.size_link, Draft.size_append] at hb
    have hc : b = c := by
      simp only [Option.some.injEq] at hown
      omega
    rw [hc, Draft.code_link, Draft.code_append _ _ hlt, Draft.out_link, Draft.out_append, hout,
      if_pos rfl, if_pos rfl]
    exact .single (hst.append hes)
  · have hne : k ≠ c := fun h => (ho.away k hk).2 (h ▸ rfl)
    simp [hne]

theorem sealing_simple (x : Simple) : Sealing exits labels (.simple x) := by
  refine sealing_of_some fun sc up addr c d next d' hrun ho hst _ => ?_
  rw [hasDefault]
  rcases addStmt_simple hrun with ⟨-, rfl, rfl⟩ | ⟨-, rfl, rfl⟩
  · exact seals_append ho hst (straight_evaluated _ x (by decide))
  · exact seals_jump _ _ ho hst (straight_element _ _ (by decide))

theorem sealing_ret (v : Option Expr) (p : Pos) : Sealing exits labels (.ret v p) := by
  refine sealing_of_some fun sc up addr c d next d' hrun ho hst _ => ?_
  rw [hasDefault]
  obtain ⟨rfl, rfl⟩ := addStmt_ret hrun
  exact seals_jump _ _ ho hst (straight_element _ _ (by decide))

theorem sealing_brk (p : Pos) : Sealing exits labels (.brk p) := by
  refine sealing_of_some fun sc up addr c d next d' hrun ho hst _ => ?_
  rw [hasDefault]
  obtain ⟨t, -, rfl, rfl⟩ := addStmt_brk hrun
  simpa [Draft.append_nil] using seals_jump t .brk ho hst straight_nil

theorem sealing_cont (p : Pos) : Sealing exits labels (.cont p) := by
  refine sealing_of_some fun sc up addr c d next d' hrun ho hst _ => ?_
  rw [hasDefault]
  obtain ⟨t, -, rfl, rfl⟩ := addStmt_cont hrun
  simpa [Draft.append_nil] using seals_jump t .cont ho hst straight_nil

theorem sealing_empty (p : Pos) : Sealing exits labels (.empty p) := by
  refine sealing_of_some fun sc up addr c d next d' hrun ho hst _ => ?_
  rw [hasDefault]
  rw [addStmt_empty] at hrun
  cases hrun
  simpa [Draft.append_nil] using seals_append ho hst straight_nil

theorem sealing_goto (name : String) (p : Pos) : Sealing exits labels (.goto name p) := by
  refine sealing_of_some fun sc up addr c d next d' hrun ho hst hg => ?_
  rw [hasDefault]
  obtain ⟨rfl, rfl⟩ := addStmt_goto hrun
  obtain ⟨hlt, hout⟩ := ho.here c rfl
  obtain ⟨t, ht⟩ := hg ⟨c, name, p.line⟩ (by simp [Draft.jump])
  refine ⟨fun b hb hown _ => ?_, by simp, .of_eq fun k hk => ?_⟩
  · rw [Draft.size_jump, Draft.size_append] at hb
    have hc : b = c := by
      simp only [Option.some.injEq] at hown
      omega
    have hjump :
        ((d.append c [Located.element ⟨up, addr, .goto name p⟩ .goto []]).jump
          ⟨c, name, p.line⟩).out labels c = [⟨c, t, .goto⟩] := by
      refine (Draft.out_jump_source (Draft.append d c _) labels (p := ⟨c, name, p.line⟩) hout).trans
        ?_
      simp [resolve, ht]
    rw [hc, hjump, Draft.code_jump, Draft.code_append _ _ hlt, if_pos rfl]
    exact .single (hst.append (straight_element _ _ (by decide)))
  · exact Draft.out_jump_of_ne _ _ fun h => (ho.away k hk).2 (h ▸ rfl)

def SealingAll (exits : List String) (labels : List (String × Nat)) (ss : List Stmt) : Prop :=
  ∀ sc (l : Located) n cur d next d', addAll exits sc (l.up ++ [l.stmt]) l.addr n ss cur d =
      .ok (next, d') → Opened labels cur sc.dispatch d → (∀ c, cur = some c → Straight (d.code c)) →
    Resolved labels d' → Seals labels sc.dispatch (hasDefaultAmong ss) cur d d' next

theorem sealingAll_nil : SealingAll exits labels [] := by
  intro sc l n cur d next d' hrun ho hst _
  simp only [addAll] at hrun
  cases hrun
  rw [hasDefaultAmong]
  refine ⟨fun b hb hown hne => ?_, hst, .of_eq fun k _ => rfl⟩
  rcases hown with hown | hown
  · exact absurd hown hne
  · omega

theorem sealingAll_cons {s : Stmt} {ss : List Stmt} (hs : Sealing exits labels s)
    (hss : SealingAll exits labels ss) : SealingAll exits labels (s :: ss) := by
  intro sc l n cur d next d' hrun ho hst hg
  simp only [addAll] at hrun
  obtain ⟨mid, d₁, hrun₁, hrun₂⟩ := bind_ok hrun
  obtain ⟨cs, hlays⟩ := adequate s _ _ _ _ _ _ _ hrun₁ ho
  obtain ⟨cs', hlays'⟩ := adequateAll ss _ _ _ _ _ _ _ hrun₂ (hlays.adds.opened ho)
  have ha := hlays'.adds
  have h := hs _ _ _ _ _ _ _ hrun₁ ho hst fun p hp => hg p (ha.gotos hp)
  have h' := hss _ _ _ _ _ _ _ hrun₂ (hlays.adds.opened ho) h.straight hg
  rw [hasDefaultAmong]
  refine ⟨fun b hb hown hne => ?_, h'.straight, h.routes.trans h'.routes hlays.adds.size ha.size⟩
  by_cases hb' : mid = some b ∨ d₁.size ≤ b
  · exact h'.closed b hb hb' hne
  · -- the block belongs to the first statement alone
    obtain ⟨hmid, hlt⟩ := not_or.mp hb'
    have hk : sc.dispatch ≠ some b := fun hk => by
      obtain ⟨hlt, hne⟩ := ho.away b hk
      rcases hown with hown | hown
      · exact hne hown
      · omega
    rw [ha.code b (by omega) hmid, ha.out b (by omega) hmid hk]
    exact h.closed b (by omega) hown hmid

theorem sealing_block {ss : List Stmt} (p : Pos) (hss : SealingAll exits labels ss) :
    Sealing exits labels (.block ss p) := by
  refine sealing_of_some fun sc up addr c d next d' hrun ho hst hg => ?_
  rw [addStmt_block] at hrun
  rw [hasDefault]
  refine hss sc ⟨up, addr, .block ss p⟩ 0 (some c) d next d' hrun ho ?_ hg
  rintro _ ⟨⟩
  exact hst

/-- A condition that is a literal is not both true and false. -/
theorem isConstant_false_of_true {c : Expr} (h : isConstant trueLiterals c = true) :
    isConstant falseLiterals c = false := by
  have hdisjoint : ∀ t ∈ trueLiterals, t ∉ falseLiterals := by decide
  unfold isConstant at h ⊢
  split at h
  · simpa using hdisjoint _ (List.contains_iff_mem.mp h)
  · simpa using hdisjoint _ (List.contains_iff_mem.mp h)
  · simp at h

section Conditions

variable {b t t' : Nat} {es : List Element} (up : List Stmt) (addr : Address) (c : Expr)
  (s : Stmt) (p : Pos)

theorem sealed_branch {l : Located} (h : Straight es) (hc : l.stmt.control? = some c)
    (hb : (l.element .cond [c]).isBranch = true)
    (hend : l.stmt.mayEnd = !(l.element .cond [c]).alwaysHolds) :
    Sealed b (es ++ l.condition) (⟨b, t, .branchTrue⟩ :: if l.stmt.mayEnd = true then
      [⟨b, t', .branchFalse⟩] else []) := by
  have hsealed : Sealed b (es ++ [l.element .cond [c]]) (⟨b, t, .branchTrue⟩ ::
      if (l.element .cond [c]).alwaysHolds then [] else [⟨b, t', .branchFalse⟩]) := .branch h hb
  rw [Located.condition, hc, hend]
  cases hholds : (l.element .cond [c]).alwaysHolds <;> simpa [hholds] using hsealed

theorem sealed_while :
    Sealed b (Located.condition ⟨up, addr, .whileDo c s p⟩) (⟨b, t, .branchTrue⟩ ::
      if (Stmt.whileDo c s p).mayEnd = true then [⟨b, t', .branchFalse⟩] else []) :=
  sealed_branch (l := ⟨up, addr, .whileDo c s p⟩) c straight_nil rfl rfl
    (by simp [Stmt.mayEnd, Element.alwaysHolds, Located.element, Stmt.isLoop])

theorem sealed_for (i : Option Simple) (o : Option Expr) (n : Option Expr) :
    Sealed b (Located.condition ⟨up, addr, .forDo i o n s p⟩) (⟨b, t, .branchTrue⟩ ::
      if (Stmt.forDo i o n s p).mayEnd = true then [⟨b, t', .branchFalse⟩] else []) := by
  cases o with
  | none => exact .single straight_nil
  | some c =>
    exact sealed_branch (l := ⟨up, addr, .forDo i (some c) n s p⟩) c straight_nil rfl rfl
      (by simp [Stmt.mayEnd, Element.alwaysHolds, Located.element, Stmt.isLoop])

theorem sealed_do : Sealed b (Located.condition ⟨up, addr, .doWhile s c p⟩)
    ((if (Stmt.doWhile s c p).mayRepeat = true then [⟨b, t, .backEdge⟩] else []) ++
      if (Stmt.doWhile s c p).mayEnd = true then [⟨b, t', .branchFalse⟩] else []) := by
  show Sealed b ([] ++ [Located.element ⟨up, addr, .doWhile s c p⟩ .cond [c]]) _
  refine .choice straight_nil rfl rfl ?_ ?_ ?_
  · cases hc : isConstant trueLiterals c with
    | true => simp [Stmt.mayRepeat, isConstant_false_of_true hc]
    | false => simp [Stmt.mayEnd, hc]
  · cases (Stmt.doWhile s c p).mayRepeat <;> cases (Stmt.doWhile s c p).mayEnd <;> simp
  · cases (Stmt.doWhile s c p).mayRepeat <;> cases (Stmt.doWhile s c p).mayEnd <;> simp

theorem sealed_switch {lo hi : Nat} (h : Straight es) (hcs : Between lo hi cs) (ht : t < lo)
    (hne : q = true → cs ≠ []) : Sealed b (es ++ Located.condition ⟨up, addr, .switch c s p⟩)
      (cs.map (⟨b, ·, .switchCase⟩) ++ if q = false then [⟨b, t, .switchCase⟩] else []) := by
  refine .choice (e := Located.element ⟨up, addr, .switch c s p⟩ .cond [c]) h rfl rfl ?_ ?_ ?_
  · cases q with
    | true => simpa using hne rfl
    | false => simp
  · have hnodup : (cs.map (Edge.mk b · .switchCase)).Nodup :=
      hcs.nodup.map fun t t' h => by simpa using h
    have hout : t ∉ cs := fun hm => by
      have := (hcs.range t hm).1
      omega
    cases q with
    | true => simpa using hnodup
    | false => simpa [List.nodup_append, hnodup] using fun x hx (h : x = t) => hout (h ▸ hx)
  · intro x hx
    cases q <;> grind

end Conditions

theorem sealing_ifOnly {a : Stmt} (c : Expr) (p : Pos) (ha : Sealing exits labels a) :
    Sealing exits labels (.ifElse c a none p) := by
  refine sealing_of_some fun sc up addr cur d next d' hrun ho hst hg => ?_
  obtain ⟨r, d₁, rfl, hrun₁, rfl⟩ := addStmt_ifOnly hrun
  obtain ⟨ho₁, hnew⟩ := opened_openIf ho ⟨up, addr, .ifElse c a none p⟩
  obtain ⟨⟨cs, hadds⟩, hseals⟩ :=
    ha.part hrun₁ ho₁ hnew (by simpa [Draft.link, Resolved] using hg) d.size .fallThrough (by simp)
  obtain ⟨hkcur, hkjoin⟩ := blocks_openIf ho _ hadds
  refine ⟨fun b hb hown hne => ?_, ?_, fun k hk => ?_⟩
  · rw [Draft.size_link] at hb
    simp only [ne_eq, Option.some.injEq] at hown hne
    rw [Draft.code_link, Draft.out_link]
    by_cases hcur : b = cur
    · rw [hcur, hkcur.1, hkcur.2, if_pos rfl]
      exact sealed_branch (l := ⟨up, addr, .ifElse c a none p⟩) c hst rfl rfl rfl
    · rw [if_neg hcur, List.append_nil]
      refine hseals.closed b hb ?_ (by simp)
      simp only [Option.some.injEq, Draft.size_openIf]
      omega
  · rintro _ ⟨⟩
    rw [Draft.code_link, hkjoin.1]
    exact straight_nil
  · have hch := changes_openIf ho ⟨up, addr, .ifElse c a none p⟩
    obtain ⟨cs, hcases, hcs, hq⟩ := hseals.routes.within hch hadds.size k hk
    refine ⟨cs, by simp [(hch.away k hk).2, hcases], by simpa using hcs, ?_⟩
    simpa [hasDefault, hasDefaultElse] using hq

theorem sealing_ifElse {a : Stmt} (c : Expr) (p : Pos) (ha : Sealing exits labels a)
    (hb : Sealing exits labels b) : Sealing exits labels (.ifElse c a (some b) p) := by
  refine sealing_of_some fun sc up addr cur d next d' hrun ho hst hg => ?_
  obtain ⟨r, d₁, r', d₃, rfl, hrun₁, hrun₂, rfl⟩ := addStmt_ifElse hrun
  obtain ⟨ho₁, hnew⟩ := opened_openIf ho ⟨up, addr, .ifElse c a (some b) p⟩
  obtain ⟨cs, hlays⟩ := adequate a _ _ _ _ _ _ _ hrun₁ ho₁
  obtain ⟨hadds, -⟩ := hlays.leave ho₁ d.size .fallThrough (by simp)
  obtain ⟨ho₂, hnew'⟩ := opened_openElse ho _ hadds
  rw [Draft.size_leave] at ho₂ hnew'
  obtain ⟨⟨cs', hadds'⟩, hseals'⟩ :=
    hb.part hrun₂ ho₂ hnew' (by simpa [Resolved] using hg) d.size .fallThrough (by simp)
  -- the gotos of the first branch are among those of the whole statement
  have hg₁ : Resolved labels d₁ := fun x hx =>
    hg x (hadds'.gotos (by simpa [Draft.openElse, Draft.link, Draft.push] using hx))
  obtain ⟨-, hseals⟩ := ha.part hrun₁ ho₁ hnew hg₁ d.size .fallThrough (by simp)
  have hsize := hadds.size
  have hsize' := hadds'.size
  simp only [Draft.size_openIf, Draft.size_openElse, Draft.size_leave] at hsize hsize'
  obtain ⟨hkcur, hkjoin, hfirst⟩ := blocks_openElse ho _ hadds (by simpa using hadds')
  rw [Draft.size_leave] at hkcur hfirst
  refine ⟨fun n hn hown hne => ?_, ?_, ?_⟩
  · simp only [ne_eq, Option.some.injEq] at hown hne
    by_cases hcur : n = cur
    · rw [hcur, hkcur.1, hkcur.2]
      exact sealed_branch (l := ⟨up, addr, .ifElse c a (some b) p⟩) c hst rfl rfl rfl
    by_cases hlt : n < d₁.size
    · obtain ⟨hcode, hout⟩ := hfirst n (by omega) hlt
      rw [hcode, hout]
      refine hseals.closed n (by simpa using hlt) ?_ (by simp)
      simp only [Option.some.injEq, Draft.size_openIf]
      omega
    · refine hseals'.closed n hn ?_ (by simp)
      simp only [Option.some.injEq, Draft.size_openElse, Draft.size_leave]
      omega
  · rintro _ ⟨⟩
    rw [hkjoin.1]
    exact straight_nil
  · have hch := changes_openIf ho ⟨up, addr, .ifElse c a (some b) p⟩
    have hopen : Routes labels sc.dispatch false (d₁.leave r d.size .fallThrough)
        ((d₁.leave r d.size .fallThrough).openElse cur) :=
      .of_eq fun k hk => by simp [Draft.out_openElse, (hch.away k hk).2]
    have hroutes := (hseals.routes.within hch hadds.size).trans
      (hopen.trans hseals'.routes (by simp) hadds'.size) (by simp; omega) (by simp; omega)
    simpa [hasDefault, hasDefaultElse] using hroutes

theorem sealing_whileDo (c : Expr) (p : Pos) (hb : Sealing exits labels b) :
    Sealing exits labels (.whileDo c b p) := by
  refine sealing_of_some fun sc up addr cur d next d' hrun ho hst hg => ?_
  obtain ⟨r, d₁, rfl, hrun₁, rfl⟩ := addStmt_whileDo hrun
  obtain ⟨ho₁, hnew⟩ := opened_openWhile ho ⟨up, addr, .whileDo c b p⟩
  obtain ⟨⟨cs, hadds⟩, hseals⟩ :=
    hb.part hrun₁ ho₁ hnew (by simpa [Resolved] using hg) d.size .backEdge (by simp)
  obtain ⟨hkcur, hkheader, hkafter⟩ := blocks_openWhile ho _ hadds
  refine ⟨fun n hn hown hne => ?_, ?_, ?_⟩
  · simp only [ne_eq, Option.some.injEq] at hown hne
    by_cases hcur : n = cur
    · rw [hcur, hkcur.1, hkcur.2]
      exact .single hst
    by_cases hheader : n = d.size
    · rw [hheader, hkheader.1, hkheader.2]
      exact sealed_while up addr c b p
    · refine hseals.closed n hn ?_ (by simp)
      simp only [Option.some.injEq, Draft.size_openWhile]
      omega
  · rintro _ ⟨⟩
    rw [hkafter.1]
    exact straight_nil
  · rw [hasDefault]
    exact hseals.routes.within (changes_openWhile ho _) hadds.size

theorem sealing_doWhile (c : Expr) (p : Pos) (hb : Sealing exits labels b) :
    Sealing exits labels (.doWhile b c p) := by
  refine sealing_of_some fun sc up addr cur d next d' hrun ho hst hg => ?_
  obtain ⟨r, d₁, rfl, hrun₁, hd'⟩ := addStmt_doWhile hrun
  obtain ⟨ho₁, hnew⟩ := opened_openDo ho
  obtain ⟨⟨cs, hadds⟩, hseals⟩ :=
    hb.part hrun₁ ho₁ hnew (by simpa [Resolved, hd'] using hg) (d.size + 1) .fallThrough (by simp)
  obtain ⟨hkcur, hkheader, hkafter, hother⟩ := blocks_closeDo ho _ hadds hd'
  have hsize : d'.size = d₁.size := by simp [hd']
  refine ⟨fun n hn hown hne => ?_, ?_, fun k hk => ?_⟩
  · simp only [ne_eq, Option.some.injEq] at hown hne
    by_cases hcur : n = cur
    · rw [hcur, hkcur.1, hkcur.2]
      exact .single hst
    by_cases hheader : n = d.size + 1
    · rw [hheader, hkheader.1, hkheader.2]
      exact sealed_do up addr c b p
    · rw [(hother n hheader).1, (hother n hheader).2]
      refine hseals.closed n (by simp; omega) ?_ (by simp)
      simp only [Option.some.injEq, Draft.size_openDo]
      omega
  · rintro _ ⟨⟩
    rw [hkafter.1]
    exact straight_nil
  · have hch := changes_openDo ho
    obtain ⟨cs, hcases, hcs, hq⟩ := hseals.routes.within hch hadds.size k hk
    have hne : k ≠ d.size + 1 := by
      have := (hch.away k hk).1
      omega
    rw [hasDefault]
    exact ⟨cs, by rw [(hother k hne).2, hcases], by simpa [hsize] using hcs, hq⟩

theorem sealing_forDo (i : Option Simple) (c t : Option Expr) (p : Pos)
    (hb : Sealing exits labels b) : Sealing exits labels (.forDo i c t b p) := by
  refine sealing_of_some fun sc up addr cur d next d' hrun ho hst hg => ?_
  obtain ⟨r, d₁, rfl, hrun₁, rfl⟩ := addStmt_forDo hrun
  obtain ⟨ho₁, hnew⟩ := opened_openFor ho ⟨up, addr, .forDo i c t b p⟩
  obtain ⟨⟨cs, hadds⟩, hseals⟩ :=
    hb.part hrun₁ ho₁ hnew (by simpa [Resolved] using hg) (d.size + 1) .fallThrough (by simp)
  obtain ⟨hkcur, hkheader, hkstep, hkafter⟩ := blocks_openFor ho _ hadds
  refine ⟨fun n hn hown hne => ?_, ?_, ?_⟩
  · simp only [ne_eq, Option.some.injEq] at hown hne
    by_cases hcur : n = cur
    · rw [hcur, hkcur.1, hkcur.2]
      exact .single (hst.append (straight_initial _))
    by_cases hheader : n = d.size
    · rw [hheader, hkheader.1, hkheader.2]
      exact sealed_for up addr b p i c t
    by_cases hstep : n = d.size + 1
    · rw [hstep, hkstep.1, hkstep.2]
      exact .single (straight_advance _)
    · refine hseals.closed n hn ?_ (by simp)
      simp only [Option.some.injEq, Draft.size_openFor]
      omega
  · rintro _ ⟨⟩
    rw [hkafter.1]
    exact straight_nil
  · rw [hasDefault]
    exact hseals.routes.within (changes_openFor ho _) hadds.size

theorem sealing_switch (c : Expr) (p : Pos) (hb : Sealing exits labels b) :
    Sealing exits labels (.switch c b p) := by
  refine sealing_of_some fun sc up addr cur d next d' hrun ho hst hg => ?_
  obtain ⟨r, d₁, rfl, hrun₁, rfl⟩ := addStmt_switch hrun
  obtain ⟨hlt, hout⟩ := ho.here cur rfl
  obtain ⟨ho₁, hnew⟩ := opened_openSwitch ho ⟨up, addr, .switch c b p⟩
  obtain ⟨⟨cs, hadds⟩, hseals⟩ :=
    hb.part hrun₁ ho₁ hnew (by simpa [Resolved] using hg) d.size .fallThrough (by simp)
  have hsize := hadds.size
  simp only [Draft.size_openSwitch, Draft.size_leave] at hsize
  obtain ⟨hkcur, hkafter⟩ := blocks_openSwitch ho _ hadds
  refine ⟨fun n hn hown hne => ?_, ?_, ?_⟩
  · rw [Draft.size_linkIf] at hn
    simp only [ne_eq, Option.some.injEq] at hown hne
    rw [Draft.code_linkIf, Draft.out_linkIf]
    by_cases hcur : n = cur
    · subst hcur
      obtain ⟨cs', hcases, hcs, hq⟩ := hseals.routes n rfl
      rw [hkcur.1, hcases, Draft.out_openSwitch, hout]
      simpa using sealed_switch up addr c b p hst hcs (t := d.size) (by simp) hq
    · simp only [hcur, and_false, if_false, List.append_nil]
      refine hseals.closed n hn ?_ (by simp)
      simp only [Option.some.injEq, Draft.size_openSwitch]
      omega
  · rintro _ ⟨⟩
    rw [Draft.code_linkIf, hkafter.1]
    exact straight_nil
  · rw [hasDefault]
    exact .of_changes
      (((changes_openSwitch ho _).addsSwitch (by omega) hadds).linkIf _ (.inl rfl) (by simp; omega))

/-- A statement with a mark in front of it is added in a new block, and control falls into that
block. -/
theorem Seals.marked {cur : Nat} {cs₀ : List Nat} {d₀ : Draft}
    (h : Seals labels dispatch q (some d.size) d₀ d' next)
    (ha : Adds labels (some d.size) dispatch d₀ d' next cs)
    (hch : Changes labels cur dispatch d d₀ cs₀) (hroutes : Routes labels dispatch q' d d₀)
    (hst : Straight (d.code cur)) (hsize : d₀.size = d.size + 1) (hcode : ∀ b, d₀.code b = d.code b)
    (hout : d₀.out labels cur = [⟨cur, d.size, .fallThrough⟩]) :
    Seals labels dispatch (q' || q) (some cur) d d' next := by
  have hlt := hch.here
  refine ⟨fun b hb hown hne => ?_, h.straight, hroutes.trans h.routes hch.size ha.size⟩
  by_cases hcur : b = cur
  · subst hcur
    have hkeep := hch.keeps ha (n := b) (by omega) (by omega) (.inl rfl)
    rw [hkeep.1, hkeep.2, hcode, hout]
    exact .single hst
  · refine h.closed b hb ?_ hne
    simp only [Option.some.injEq] at hown ⊢
    omega

theorem sealing_case (v : Option Expr) (p : Pos) (hb : Sealing exits labels b) :
    Sealing exits labels (.case v b p) := by
  refine sealing_of_some fun sc up addr cur d next d' hrun ho hst hg => ?_
  obtain ⟨k, hk, hrun₁⟩ := addStmt_case hrun
  obtain ⟨ho₁, hout⟩ := opened_openCase ho hk
  obtain ⟨cs, hlays⟩ := adequate b _ _ _ _ _ _ _ hrun₁ ho₁
  have hch := changes_openCase ho hk
  have hseals := hb _ _ _ _ _ _ _ hrun₁ ho₁ (by simpa [d.code_of_size_le] using straight_nil) hg
  have hroutes : Routes labels sc.dispatch true d (d.openCase cur k) := fun k' hk' =>
    ⟨[d.size], hch.cases k' hk', ⟨by simp, by simp⟩, by simp⟩
  have h := hseals.marked hlays.adds hch hroutes hst (by simp) (by simp) hout
  refine ⟨h.closed, h.straight, fun k' hk' => ?_⟩
  obtain ⟨cs', hcases, hcs, hne⟩ := h.routes k' hk'
  exact ⟨cs', hcases, hcs, fun _ => hne rfl⟩

theorem sealing_label (name : String) (p : Pos) (hb : Sealing exits labels b) :
    Sealing exits labels (.label name b p) := by
  refine sealing_of_some fun sc up addr cur d next d' hrun ho hst hg => ?_
  obtain ⟨-, hrun₁⟩ := addStmt_label hrun
  obtain ⟨ho₁, hout⟩ := opened_openLabel ho name
  obtain ⟨cs, hlays⟩ := adequate b _ _ _ _ _ _ _ hrun₁ ho₁
  have hch := changes_openLabel ho name
  have hseals := hb _ _ _ _ _ _ _ hrun₁ ho₁ (by simpa [d.code_of_size_le] using straight_nil) hg
  rw [hasDefault]
  exact hseals.marked hlays.adds hch (.of_changes hch) hst (by simp) (by simp) hout

mutual
/-- Every statement that can be added seals its blocks. -/
theorem sealing : ∀ s : Stmt, Sealing exits labels s
  | .block ss p => sealing_block p (sealingAll ss)
  | .simple x => sealing_simple x
  | .ret v p => sealing_ret v p
  | .goto name p => sealing_goto name p
  | .brk p => sealing_brk p
  | .cont p => sealing_cont p
  | .empty p => sealing_empty p
  | .ifElse c a none p => sealing_ifOnly c p (sealing a)
  | .ifElse c a (some b) p => sealing_ifElse c p (sealing a) (sealing b)
  | .whileDo c b p => sealing_whileDo c p (sealing b)
  | .doWhile b c p => sealing_doWhile c p (sealing b)
  | .forDo i c t b p => sealing_forDo i c t p (sealing b)
  | .switch c b p => sealing_switch c p (sealing b)
  | .case v b p => sealing_case v p (sealing b)
  | .label name b p => sealing_label name p (sealing b)

theorem sealingAll : ∀ ss : List Stmt, SealingAll exits labels ss
  | [] => sealingAll_nil
  | s :: ss => sealingAll_cons (sealing s) (sealingAll ss)
end

end Flow

end JniContracts
