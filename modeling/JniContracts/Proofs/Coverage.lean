import JniContracts.Flow.Coverage
import JniContracts.Proofs.Walk

/-!
The search for a violating path is sound and complete. One entry into each block is enough, although
the paths through loops are infinitely many: the blocks that the search has entered are closed under
the edges that can be followed.
-/

namespace JniContracts.Flow

namespace Obligation

variable {o : Obligation} {g : Graph} {b : Block} {i line : Nat} {es : List Element}
  {ms : List Move} {fromStart : Bool} {E S lines : List Nat} {reason : Reason}

def verdictAt (o : Obligation) (p : Position) (e : Element) : Verdict :=
  if p = o.trigger then o.atTrigger else o.classify e

/-- An edge is dropped only on account of a condition at the end of its source. -/
def Follows (o : Obligation) (b : Block) (e : Edge) : Prop :=
  ∀ last, b.elements.getLast? = some last → last.role = .cond → o.prune last e = false

/-- The moves on which the obligation stays open. A path that takes an edge to the exit is over. -/
def KeepsOpen (o : Obligation) (g : Graph) : Move → Prop
  | .run p e => o.verdictAt p e = .pending
  | .take b e => o.Follows b e ∧ e.target ≠ g.exit

def Breaks (o : Obligation) (g : Graph) : Move → Prop
  | .run p e => o.verdictAt p e = .violated
  | .take b e => o.Follows b e ∧ e.target = g.exit ∧ o.atExit = .violated

def reasonOf (o : Obligation) : Move → Reason
  | .run p _ => if p = o.trigger then .retrigger else .hazard
  | .take .. => .exit

def start (o : Obligation) : Position := ⟨o.trigger.block, o.trigger.index + 1⟩

def Violating (o : Obligation) (g : Graph) (ms : List Move) (m : Move) : Prop :=
  ∃ p q, g.Walk o.start ms p ∧ (∀ x ∈ ms, o.KeepsOpen g x) ∧ g.Moves p m q ∧ o.Breaks g m

theorem mem_followed {e : Edge} : e ∈ o.followed g b ↔ e ∈ g.successors b.id ∧ o.Follows b e := by
  unfold followed Follows
  cases hl : b.elements.getLast? with
  | none => simp
  | some last => by_cases hr : last.role = .cond <;> simp [hr]

theorem onward_eq_none (h : o.onward g b = none) :
    ∃ e ∈ g.successors b.id, o.Follows b e ∧ e.target = g.exit ∧ o.atExit = .violated := by
  simp only [onward] at h
  split at h
  · rename_i hc
    simp only [Bool.and_eq_true, List.any_eq_true, beq_iff_eq] at hc
    obtain ⟨⟨e, he, ht⟩, hv⟩ := hc
    obtain ⟨hs, hf⟩ := mem_followed.mp he
    exact ⟨e, hs, hf, ht, hv⟩
  · cases h

def GoesInto (o : Obligation) (g : Graph) (S : List Nat) (b : Block) : Prop :=
  ∀ e ∈ g.successors b.id, o.Follows b e →
    (e.target = g.exit → o.atExit ≠ .violated) ∧ (e.target ≠ g.exit → e.target ∈ S)

theorem onward_eq_some {next : List Nat} (h : o.onward g b = some next) :
    o.GoesInto g next b ∧
      (∀ n ∈ next, ∃ e ∈ g.successors b.id, o.Follows b e ∧ e.target ≠ g.exit ∧ e.target = n) ∧
      next.length ≤ (g.successors b.id).length := by
  simp only [onward] at h
  split at h
  · cases h
  · rename_i hc
    cases h
    refine ⟨?_, ?_, ?_⟩
    · intro e he hf
      have hm := mem_followed.mpr ⟨he, hf⟩
      refine ⟨fun ht hv => hc ?_, fun ht => ?_⟩
      · simp only [Bool.and_eq_true, List.any_eq_true, beq_iff_eq]
        exact ⟨⟨e, hm, ht⟩, hv⟩
      · exact List.mem_map.mpr ⟨e, List.mem_filter.mpr ⟨hm, by simpa using ht⟩, rfl⟩
    · intro n hn
      obtain ⟨e, he, rfl⟩ := List.mem_map.mp hn
      obtain ⟨hm, ht⟩ := List.mem_filter.mp he
      obtain ⟨hs, hf⟩ := mem_followed.mp hm
      exact ⟨e, hs, hf, by simpa using ht, rfl⟩
    · have hl : (o.followed g b).length ≤ (g.successors b.id).length := by
        unfold followed
        split
        · split
          · exact List.length_filter_le _ _
          · exact Nat.le_refl _
        · exact Nat.le_refl _
      simpa using Nat.le_trans (List.length_filter_le _ _) hl

/-- A block is run from its start, or behind the trigger, where the trigger is not met. -/
theorem verdict_eq {p : Position} {e : Element} (h : fromStart = true ∨ p ≠ o.trigger) :
    o.verdict fromStart p e = (o.verdictAt p e, o.reasonOf (.run p e)) := by
  unfold verdict verdictAt reasonOf
  by_cases hp : p = o.trigger
  · have hs : fromStart = true := h.resolve_right fun hn => hn hp
    simp [hs, hp]
  · simp [hp]

/-- No path that runs on from these elements of a block breaks the obligation inside the block, and
it leaves the block only into `S`. -/
def Quiet (o : Obligation) (g : Graph) (S : List Nat) (b : Block) : Nat → List Element → Prop
  | _, [] => o.GoesInto g S b
  | i, e :: es =>
    o.verdictAt ⟨b.id, i⟩ e = .satisfied ∨
      (o.verdictAt ⟨b.id, i⟩ e = .pending ∧ Quiet o g S b (i + 1) es)

theorem Quiet.mono {T : List Nat} (hST : S ⊆ T) (h : o.Quiet g S b i es) : o.Quiet g T b i es := by
  induction es generalizing i with
  | nil => exact fun e he hf => ⟨(h e he hf).1, fun ht => hST ((h e he hf).2 ht)⟩
  | cons e es ih => exact h.imp id fun ⟨hv, hq⟩ => ⟨hv, ih hq⟩

theorem quiet_of_settled (hs : ∀ j, i ≤ j → fromStart = true ∨ (⟨b.id, j⟩ : Position) ≠ o.trigger)
    (h : o.pass fromStart b.id i lines es = .settled) : o.Quiet g S b i es := by
  induction es generalizing i lines with
  | nil => simp [pass] at h
  | cons e es ih =>
    rw [pass, verdict_eq (hs i (Nat.le_refl i))] at h
    cases hv : o.verdictAt ⟨b.id, i⟩ e with
    | satisfied => exact .inl hv
    | violated => simp [hv] at h
    | pending =>
      rw [hv] at h
      exact .inr ⟨hv, ih (fun j hj => hs j (by omega)) h⟩

theorem pass_passed {blk : Nat} {lines' : List Nat}
    (hs : ∀ j, i ≤ j → fromStart = true ∨ (⟨blk, j⟩ : Position) ≠ o.trigger)
    (h : o.pass fromStart blk i lines es = .passed lines') :
    lines' = lines ++ es.map Element.line ∧
      ∀ j e, es[j]? = some e → o.verdictAt ⟨blk, i + j⟩ e = .pending := by
  induction es generalizing i lines with
  | nil =>
    simp only [pass, Passage.passed.injEq] at h
    simp [h]
  | cons e es ih =>
    rw [pass, verdict_eq (hs i (Nat.le_refl i))] at h
    cases hv : o.verdictAt ⟨blk, i⟩ e with
    | satisfied => simp [hv] at h
    | violated => simp [hv] at h
    | pending =>
      rw [hv] at h
      obtain ⟨hl, hp⟩ := ih (fun j hj => hs j (by omega)) h
      refine ⟨by simp [hl], ?_⟩
      intro j x hx
      cases j with
      | zero =>
        simp only [List.getElem?_cons_zero, Option.some.injEq] at hx
        rw [← hx]
        exact hv
      | succ j => simpa [Nat.add_assoc, Nat.add_comm 1] using hp j x (by simpa using hx)

theorem pass_broken {blk : Nat} {lines' : List Nat}
    (hs : ∀ j, i ≤ j → fromStart = true ∨ (⟨blk, j⟩ : Position) ≠ o.trigger)
    (h : o.pass fromStart blk i lines es = .broken lines' reason) :
    ∃ pre e post, es = pre ++ e :: post ∧
      (∀ j x, pre[j]? = some x → o.verdictAt ⟨blk, i + j⟩ x = .pending) ∧
      o.verdictAt ⟨blk, i + pre.length⟩ e = .violated ∧
      lines' = lines ++ (pre ++ [e]).map Element.line ∧
      reason = o.reasonOf (.run ⟨blk, i + pre.length⟩ e) := by
  induction es generalizing i lines with
  | nil => simp [pass] at h
  | cons e es ih =>
    rw [pass, verdict_eq (hs i (Nat.le_refl i))] at h
    cases hv : o.verdictAt ⟨blk, i⟩ e with
    | satisfied => simp [hv] at h
    | violated =>
      simp only [hv, Passage.broken.injEq] at h
      exact ⟨[], e, es, rfl, by simp, hv, h.1.symm, h.2.symm⟩
    | pending =>
      rw [hv] at h
      obtain ⟨pre, x, post, rfl, hp, hx, hl, hr⟩ := ih (fun j hj => hs j (by omega)) h
      have hi : i + (pre.length + 1) = i + 1 + pre.length := by omega
      refine ⟨e :: pre, x, post, rfl, ?_, ?_, by simp [hl], ?_⟩
      · intro j y hy
        cases j with
        | zero =>
          simp only [List.getElem?_cons_zero, Option.some.injEq] at hy
          rw [← hy]
          exact hv
        | succ j => simpa [Nat.add_assoc, Nat.add_comm 1] using hp j y (by simpa using hy)
      · rw [List.length_cons, hi]
        exact hx
      · rw [List.length_cons, hi]
        exact hr

theorem quiet_of_pending (h : ∀ j e, es[j]? = some e → o.verdictAt ⟨b.id, i + j⟩ e = .pending)
    (hS : o.GoesInto g S b) : o.Quiet g S b i es := by
  induction es generalizing i with
  | nil => exact hS
  | cons e es ih =>
    refine .inr ⟨h 0 e rfl, ih fun j x hx => ?_⟩
    simpa [Nat.add_assoc, Nat.add_comm 1] using h (j + 1) x (by simpa using hx)

def Closed (o : Obligation) (g : Graph) (E S : List Nat) : Prop :=
  ∀ b ∈ g.blocks, b.id ∈ E → o.Quiet g S b 0 b.elements

theorem Closed.mono {T : List Nat} (h : o.Closed g E S)
    (hST : S ⊆ T) : o.Closed g E T := fun b hb hE => (h b hb hE).mono hST

theorem Closed.cons {id : Nat} (h : o.Closed g E S)
    (hid : ∀ b ∈ g.blocks, b.id = id → o.Quiet g S b 0 b.elements) : o.Closed g (id :: E) S := by
  intro b hb hE
  rcases List.mem_cons.mp hE with he | he
  · exact hid b hb he
  · exact h b hb he

/-- A block that is entered is waited for no more, and the blocks behind it are. -/
theorem Closed.enter {id : Nat} {W next : List Nat} (h : o.Closed g E (E ++ id :: W))
    (hq : ∀ b ∈ g.blocks, b.id = id → o.Quiet g next b 0 b.elements) :
    o.Closed g (id :: E) (id :: E ++ (next ++ W)) := by
  refine Closed.cons (h.mono ?_) fun b hb he => (hq b hb he).mono ?_
  · intro x hx
    simp only [List.mem_append, List.mem_cons] at hx ⊢
    tauto
  · intro x hx
    simp [hx]

/-- The rounds that a search still needs: one for each entry that waits and one for each edge out of
a block that was not entered. -/
def budget (g : Graph) (E : List Nat) (waiting : Nat) : Nat :=
  waiting + (g.edges.filter fun e => !E.contains e.source).length

theorem filter_expand {id : Nat} (hid : id ∉ E) (edges : List Edge) :
    (edges.filter fun e => !(id :: E).contains e.source).length +
      (edges.filter fun e => e.source == id).length =
    (edges.filter fun e => !E.contains e.source).length := by
  induction edges with
  | nil => rfl
  | cons e edges ih =>
    by_cases hs : e.source = id
    · simp [hs, hid] at ih ⊢
      omega
    · by_cases hE : e.source ∈ E
      · simpa [hs, hE] using ih
      · simp [hs, hE] at ih ⊢
        omega

theorem budget_expand {id n k fuel : Nat} (hid : id ∉ E) (hk : k ≤ (g.successors id).length)
    (h : budget g E (n + 1) ≤ fuel + 1) : budget g (id :: E) (k + n) ≤ fuel := by
  have he := filter_expand hid g.edges
  simp only [budget, Graph.successors] at *
  omega

/-- When a search ends without a violation, the blocks it has entered are closed. -/
theorem search_closed (hd : g.Distinct) (fuel : Nat) (E : List Nat) (T : List Entry)
    (h : o.search g fuel E T = .satisfied) (hf : budget g E T.length ≤ fuel)
    (hc : o.Closed g E (E ++ T.map Entry.block)) :
    ∃ E', E ++ T.map Entry.block ⊆ E' ∧ o.Closed g E' E' := by
  induction fuel generalizing E T with
  | zero =>
    have hT : T = [] := List.length_eq_zero_iff.mp (by unfold budget at hf; omega)
    subst hT
    exact ⟨E, by simp, by simpa using hc⟩
  | succ fuel ih =>
    cases T with
    | nil => exact ⟨E, by simp, by simpa using hc⟩
    | cons t T =>
      obtain ⟨id, lines⟩ := t
      rw [search] at h
      by_cases hE : id ∈ E
      · rw [if_pos (by simpa using hE)] at h
        have hf' : budget g E T.length ≤ fuel := by
          simp only [budget, List.length_cons] at *
          omega
        have hsub : E ++ id :: T.map Entry.block ⊆ E ++ T.map Entry.block := by
          intro x hx
          simp only [List.mem_append, List.mem_cons] at hx ⊢
          rcases hx with hx | rfl | hx
          · exact .inl hx
          · exact .inl hE
          · exact .inr hx
        obtain ⟨E', hT, hc'⟩ := ih E T h hf' (hc.mono hsub)
        exact ⟨E', List.Subset.trans hsub hT, hc'⟩
      · rw [if_neg (by simpa using hE)] at h
        -- The three ways to go on differ in the blocks `next` that they add to those that wait.
        have expand : ∀ next lines', next.length ≤ (g.successors id).length →
            (∀ b ∈ g.blocks, b.id = id → o.Quiet g next b 0 b.elements) →
            o.search g fuel (id :: E) (next.map (⟨·, lines'⟩) ++ T) = .satisfied →
            ∃ E', E ++ id :: T.map Entry.block ⊆ E' ∧ o.Closed g E' E' := by
          intro next lines' hn hq hs
          have hmap :
              (next.map (Entry.mk · lines') ++ T).map Entry.block = next ++ T.map Entry.block := by
            simp [Function.comp_def]
          have hb : budget g (id :: E) (next.map (Entry.mk · lines') ++ T).length ≤ fuel := by
            simpa using budget_expand hE hn hf
          obtain ⟨E', hsub, hE'⟩ := ih (id :: E) _ hs hb (hmap ▸ hc.enter hq)
          rw [hmap] at hsub
          refine ⟨E', fun x hx => hsub ?_, hE'⟩
          simp only [List.mem_append, List.mem_cons] at hx ⊢
          tauto
        cases hb : g.block? id with
        | none =>
          rw [hb] at h
          exact expand [] [] (by simp)
            (fun b hm he => absurd he (Graph.block?_eq_none.mp hb b hm)) h
        | some b =>
          rw [hb] at h
          obtain ⟨hm, rfl⟩ := Graph.mem_of_block? hb
          have hone : ∀ S, o.Quiet g S b 0 b.elements →
              ∀ b' ∈ g.blocks, b'.id = b.id → o.Quiet g S b' 0 b'.elements := by
            intro S hq b' hb' he
            rw [hd.eq_of_id hb' hm he]
            exact hq
          cases hp : o.pass true b.id 0 lines b.elements with
          | settled =>
            simp only [hp] at h
            exact expand [] [] (by simp) (hone _ (quiet_of_settled (by simp) hp)) h
          | broken lines' reason => simp [hp] at h
          | passed lines' =>
            simp only [hp] at h
            cases hn : o.onward g b with
            | none => simp [hn] at h
            | some next =>
              simp only [hn] at h
              obtain ⟨hinto, -, hlen⟩ := onward_eq_some hn
              have hq := quiet_of_pending (pass_passed (by simp) hp).2 hinto
              exact expand next lines' hlen (hone _ hq) h

def Safe (o : Obligation) (g : Graph) (E : List Nat) (p : Position) : Prop :=
  ∀ b ∈ g.blocks, b.id = p.block → o.Quiet g E b p.index (b.elements.drop p.index)

theorem Safe.step (hd : g.Distinct) (hc : o.Closed g E E)
    {p q : Position} {m : Move} (hs : o.Safe g E p) (hm : g.Moves p m q) :
    ¬ o.Breaks g m ∧ (o.KeepsOpen g m → o.Safe g E q) := by
  cases hm with
  | @run b i e hb he =>
    have hdrop : b.elements.drop i = e :: b.elements.drop (i + 1) := by
      obtain ⟨hi, rfl⟩ := List.getElem?_eq_some_iff.mp he
      exact List.drop_eq_getElem_cons hi
    have hq := hs b hb rfl
    simp only [hdrop] at hq
    refine ⟨fun hbr => ?_, fun ho b' hb' he' => ?_⟩
    · rcases hq with hq | ⟨hq, -⟩
      · cases hq.symm.trans hbr
      · cases hq.symm.trans hbr
    · rcases hq with hq | ⟨-, hq⟩
      · cases hq.symm.trans ho
      · rw [hd.eq_of_id hb' hb he']
        exact hq
  | @take b e hb he =>
    have hq := hs b hb rfl
    simp only [List.drop_length] at hq
    refine ⟨fun ⟨hf, ht, hv⟩ => (hq e he hf).1 ht hv, fun ⟨hf, ht⟩ b' hb' he' => ?_⟩
    exact hc b' hb' (he' ▸ (hq e he hf).2 ht)

theorem Safe.not_violating (hd : g.Distinct) (hc : o.Closed g E E) (hs : o.Safe g E o.start)
    (ms : List Move) (m : Move) : ¬ o.Violating g ms m := by
  rintro ⟨p, q, hw, ho, hm, hb⟩
  generalize o.start = s at hs hw
  induction hw with
  | refl p => exact (hs.step hd hc hm).1 hb
  | step hm' _ ih =>
    have hs' := (hs.step hd hc hm').2 (ho _ (by simp))
    exact ih (fun x hx => ho x (by simp [hx])) hm hs'

def OpenPath (o : Obligation) (g : Graph) (ms : List Move) (p : Position) : Prop :=
  g.Walk o.start ms p ∧ ∀ m ∈ ms, o.KeepsOpen g m

def linesOf (ms : List Move) : List Nat := (ms.filterMap Move.element?).map Element.line

def enteredBy (ms : List Move) : List Nat := ms.filterMap Move.entered?

theorem OpenPath.run (hb : b ∈ g.blocks) (h : o.OpenPath g ms ⟨b.id, i⟩)
    (he : es <+: b.elements.drop i)
    (hp : ∀ j e, es[j]? = some e → o.verdictAt ⟨b.id, i + j⟩ e = .pending) :
    ∃ ns, o.OpenPath g (ms ++ ns) ⟨b.id, i + es.length⟩ ∧ linesOf ns = es.map Element.line ∧
    enteredBy ns = [] := by
  obtain ⟨ns, hw, hes, hall⟩ := Graph.walk_run hb i es he
  refine ⟨ns, ⟨h.1.append hw, fun m hm => ?_⟩, by rw [linesOf, hes], ?_⟩
  · rcases List.mem_append.mp hm with hm | hm
    · exact h.2 m hm
    · obtain ⟨j, e, hj, hlt, rfl, hx⟩ := hall m hm
      have hk : es[j - i]? = some e := by
        obtain ⟨rest, hrest⟩ := he
        have hd := congrArg (fun l => l[j - i]?) hrest
        rw [List.getElem?_append_left (by omega), List.getElem?_drop] at hd
        rw [hd, ← hx]
        congr 1
        omega
      have hv := hp (j - i) e hk
      rw [show i + (j - i) = j by omega] at hv
      exact hv
  · rw [enteredBy, List.filterMap_eq_nil_iff]
    intro m hm
    obtain ⟨j, e, -, -, rfl, -⟩ := hall m hm
    rfl

/-- The report of a violation: there is a violating path with these lines behind the trigger's, it
ends as the reason says, and it enters no block twice. -/
def Reported (o : Obligation) (g : Graph) (line : Nat) (witness : List Nat) (reason : Reason) :
    Prop :=
  ∃ ms m, o.Violating g ms m ∧ witness = line :: linesOf (ms ++ [m]) ∧ reason = o.reasonOf m ∧
    (enteredBy ms).Nodup

/-- What running on from an open path into a block comes to. -/
theorem OpenPath.passage (hb : b ∈ g.blocks) (h : o.OpenPath g ms ⟨b.id, i⟩)
    (hi : i ≤ b.elements.length) (line : Nat) (fromStart : Bool)
    (hs : ∀ j, i ≤ j → fromStart = true ∨ (⟨b.id, j⟩ : Position) ≠ o.trigger)
    (hn : (enteredBy ms).Nodup) :
    (∀ lines reason, o.pass fromStart b.id i (line :: linesOf ms) (b.elements.drop i) =
      .broken lines reason → o.Reported g line lines reason) ∧
    ∀ lines, o.pass fromStart b.id i (line :: linesOf ms) (b.elements.drop i) = .passed lines →
    ∃ ns, o.OpenPath g (ms ++ ns) ⟨b.id, b.elements.length⟩ ∧ lines = line :: linesOf (ms ++ ns) ∧
    enteredBy ns = [] := by
  constructor
  · intro lines reason hp
    obtain ⟨pre, e, post, hes, hpre, hv, hl, hr⟩ := pass_broken hs hp
    obtain ⟨ns, hw, hns, hent⟩ := h.run hb ⟨e :: post, hes.symm⟩ hpre
    have he : b.elements[i + pre.length]? = some e := by
      rw [← List.getElem?_drop, hes]
      simp
    refine ⟨ms ++ ns, .run ⟨b.id, i + pre.length⟩ e, ⟨_, _, hw.1, hw.2, .run hb he, hv⟩, ?_, hr, ?_⟩
    · rw [hl]
      simp only [linesOf] at hns ⊢
      simp [hns, Move.element?]
    · simp only [enteredBy] at hent hn ⊢
      simpa [hent] using hn
  · intro lines hp
    obtain ⟨hl, hpend⟩ := pass_passed hs hp
    obtain ⟨ns, hw, hns, hent⟩ := h.run hb (List.prefix_refl _) hpend
    refine ⟨ns, ?_, ?_, hent⟩
    · rw [List.length_drop, show i + (b.elements.length - i) = b.elements.length by omega] at hw
      exact hw
    · rw [hl]
      simp only [linesOf] at hns ⊢
      simp [hns]

theorem OpenPath.exit (hb : b ∈ g.blocks) (h : o.OpenPath g ms ⟨b.id, b.elements.length⟩)
    (hn : (enteredBy ms).Nodup) (ho : o.onward g b = none) :
    o.Reported g line (line :: linesOf ms) .exit := by
  obtain ⟨e, he, hf, ht, hv⟩ := onward_eq_none ho
  exact ⟨ms, .take b e, ⟨_, _, h.1, h.2, .take hb he, hf, ht, hv⟩, by simp [linesOf, Move.element?],
    rfl, hn⟩

def Trail (o : Obligation) (g : Graph) (line : Nat) (E : List Nat) (t : Entry) : Prop :=
  ∃ ms l, o.OpenPath g ms ⟨t.block, 0⟩ ∧ t.lines = line :: linesOf ms ∧
    enteredBy ms = l ++ [t.block] ∧ l.Nodup ∧ l ⊆ E

theorem Trail.mono {F : List Nat} {t : Entry} (h : o.Trail g line E t) (hEF : E ⊆ F) :
    o.Trail g line F t := by
  obtain ⟨ms, l, hp, hl, he, hn, hs⟩ := h
  exact ⟨ms, l, hp, hl, he, hn, List.Subset.trans hs hEF⟩

theorem OpenPath.onward (hb : b ∈ g.blocks)
    (h : o.OpenPath g ms ⟨b.id, b.elements.length⟩) (hn : (enteredBy ms).Nodup)
    {next : List Nat} (hE : enteredBy ms ⊆ E) (ho : o.onward g b = some next) :
    ∀ t ∈ next.map (Entry.mk · (line :: linesOf ms)), o.Trail g line E t := by
  intro t ht
  obtain ⟨n, hmem, rfl⟩ := List.mem_map.mp ht
  obtain ⟨e, he, hf, hx, rfl⟩ := (onward_eq_some ho).2.1 n hmem
  refine ⟨ms ++ [.take b e], enteredBy ms, ⟨h.1.snoc (.take hb he), ?_⟩, ?_, ?_, hn, hE⟩
  · intro m hm
    rcases List.mem_append.mp hm with hm | hm
    · exact h.2 m hm
    · rw [List.mem_singleton.mp hm]
      exact ⟨hf, hx⟩
  · simp [linesOf, Move.element?]
  · simp [enteredBy, Move.entered?]

/-- A violation that a search reports is a violating path. -/
theorem search_reported (fuel : Nat) (E : List Nat)
    (T : List Entry) (hT : ∀ t ∈ T, o.Trail g line E t) {witness : List Nat}
    (h : o.search g fuel E T = .violated witness reason) : o.Reported g line witness reason := by
  induction fuel generalizing E T with
  | zero => simp [search] at h
  | succ fuel ih =>
    cases T with
    | nil => simp [search] at h
    | cons t T =>
      obtain ⟨id, lines⟩ := t
      have hrest : ∀ t ∈ T, o.Trail g line (id :: E) t := fun t ht =>
        (hT t (by simp [ht])).mono (List.subset_cons_self id E)
      rw [search] at h
      by_cases hE : id ∈ E
      · rw [if_pos (by simpa using hE)] at h
        exact ih E T (fun t ht => hT t (by simp [ht])) h
      · rw [if_neg (by simpa using hE)] at h
        cases hb : g.block? id with
        | none =>
          rw [hb] at h
          exact ih (id :: E) T hrest h
        | some b =>
          rw [hb] at h
          obtain ⟨hm, rfl⟩ := Graph.mem_of_block? hb
          obtain ⟨ms, l, hp, rfl, he, hn, hl⟩ := hT _ (List.mem_cons_self ..)
          have hn' : (enteredBy ms).Nodup := by
            rw [he]
            exact List.nodup_append'.mpr ⟨hn, by simp, by simpa using fun hi => hE (hl hi)⟩
          have hsub : enteredBy ms ⊆ b.id :: E := by
            intro x hx
            rw [he] at hx
            rcases List.mem_append.mp hx with hx | hx
            · exact List.mem_cons_of_mem _ (hl hx)
            · simp [List.mem_singleton.mp hx]
          obtain ⟨hbroken, hpassed⟩ :=
            hp.passage hm (Nat.zero_le _) line true (by simp) hn'
          simp only [List.drop_zero] at hbroken hpassed
          cases hpass : o.pass true b.id 0 (line :: linesOf ms) b.elements with
          | settled =>
            simp only [hpass] at h
            exact ih (b.id :: E) T hrest h
          | broken lines' reason' =>
            simp only [hpass, Coverage.violated.injEq] at h
            obtain ⟨rfl, rfl⟩ := h
            exact hbroken _ _ hpass
          | passed lines' =>
            obtain ⟨ns, hq, rfl, hent⟩ := hpassed _ hpass
            have hms : enteredBy (ms ++ ns) = enteredBy ms := by
              simp only [enteredBy] at hent ⊢
              simp [hent]
            simp only [hpass] at h
            cases hon : o.onward g b with
            | none =>
              simp only [hon, Coverage.violated.injEq] at h
              obtain ⟨rfl, rfl⟩ := h
              exact hq.exit hm (hms ▸ hn') hon
            | some next =>
              simp only [hon] at h
              refine ih (b.id :: E) _ (fun t ht => ?_) h
              rcases List.mem_append.mp ht with ht | ht
              · exact hq.onward hm (hms ▸ hn') (hms ▸ hsub) hon t ht
              · exact hrest t ht

theorem ne_trigger {blk j : Nat} (hj : o.trigger.index + 1 ≤ j) :
    (⟨blk, j⟩ : Position) ≠ o.trigger := by
  intro h
  have hi : j = o.trigger.index := congrArg Position.index h
  omega

theorem no_moves (hd : g.Distinct)
    (h : ∀ b e, g.block? o.trigger.block = some b → g.elementAt? o.trigger ≠ some e) (m : Move)
    (q : Position) : ¬ g.Moves o.start m q := by
  intro hm
  have short : ∀ b ∈ g.blocks, b.id = o.trigger.block → b.elements.length ≤ o.trigger.index := by
    intro b hb hid
    have hb' : g.block? o.trigger.block = some b := hid ▸ hd.block? hb
    by_contra hlt
    exact h b (b.elements[o.trigger.index]) hb' (by simp [Graph.elementAt?, hb'])
  generalize hs : o.start = s at hm
  cases hm with
  | @run b i e hb he =>
    simp only [start, Position.mk.injEq] at hs
    have hlen := short b hb hs.1.symm
    have hi := (List.getElem?_eq_some_iff.mp he).1
    omega
  | @take b e hb he =>
    simp only [start, Position.mk.injEq] at hs
    have hlen := short b hb hs.1.symm
    omega

theorem coverage_reported {witness : List Nat} (h : o.coverage g = .violated witness reason) :
    ∃ e, g.elementAt? o.trigger = some e ∧ o.Reported g e.line witness reason := by
  unfold coverage at h
  split at h
  · rename_i b e hb he
    refine ⟨e, he, ?_⟩
    obtain ⟨hm, hid⟩ := Graph.mem_of_block? hb
    have hi : o.trigger.index + 1 ≤ b.elements.length := by
      have hx : b.elements[o.trigger.index]? = some e := by simpa [Graph.elementAt?, hb] using he
      exact (List.getElem?_eq_some_iff.mp hx).1
    have hstart : o.OpenPath g [] ⟨b.id, o.trigger.index + 1⟩ :=
      ⟨by rw [hid]; exact .refl _, by simp⟩
    have hs : ∀ j, o.trigger.index + 1 ≤ j → false = true ∨ (⟨b.id, j⟩ : Position) ≠ o.trigger :=
      fun j hj => .inr (ne_trigger hj)
    obtain ⟨hbroken, hpassed⟩ := hstart.passage hm hi e.line false hs (by simp [enteredBy])
    cases hpass : o.pass false b.id (o.trigger.index + 1) [e.line]
        (b.elements.drop (o.trigger.index + 1)) with
    | settled => simp [hpass] at h
    | broken lines' reason' =>
      simp only [hpass, Coverage.violated.injEq] at h
      obtain ⟨rfl, rfl⟩ := h
      exact hbroken _ _ hpass
    | passed lines' =>
      obtain ⟨ns, hq, rfl, hent⟩ := hpassed _ hpass
      simp only [hpass, List.nil_append] at h hq
      cases hon : o.onward g b with
      | none =>
        simp only [hon, Coverage.violated.injEq] at h
        obtain ⟨rfl, rfl⟩ := h
        exact hq.exit hm (by simp [hent]) hon
      | some next =>
        simp only [hon] at h
        exact search_reported _ _ _ (hq.onward hm (by simp [hent]) (by simp [hent]) hon) h
  · cases h

theorem coverage_satisfied (hd : g.Distinct)
    (h : o.coverage g = .satisfied) (ms : List Move) (m : Move) : ¬ o.Violating g ms m := by
  unfold coverage at h
  split at h
  · rename_i b e hb he
    obtain ⟨hm, hid⟩ := Graph.mem_of_block? hb
    have hs : ∀ j, o.trigger.index + 1 ≤ j → false = true ∨ (⟨b.id, j⟩ : Position) ≠ o.trigger :=
      fun j hj => .inr (ne_trigger hj)
    -- The trigger's block is quiet behind the trigger; it need not be quiet from its start.
    have safe : ∀ E, o.Quiet g E b (o.trigger.index + 1) (b.elements.drop (o.trigger.index + 1)) →
        o.Safe g E o.start := by
      intro E hq b' hb' he'
      rw [hd.eq_of_id hb' hm (he'.trans hid.symm)]
      exact hq
    cases hpass : o.pass false b.id (o.trigger.index + 1) [e.line]
        (b.elements.drop (o.trigger.index + 1)) with
    | settled =>
      have hc : o.Closed g [] [] := fun b _ hE => absurd hE (by simp)
      exact (safe [] (quiet_of_settled hs hpass)).not_violating hd hc ms m
    | broken lines' reason' => simp [hpass] at h
    | passed lines' =>
      simp only [hpass] at h
      cases hon : o.onward g b with
      | none => simp [hon] at h
      | some next =>
        simp only [hon] at h
        obtain ⟨hinto, -, hlen⟩ := onward_eq_some hon
        have hf : budget g [] (next.map (Entry.mk · lines')).length ≤ rounds g := by
          have hl : (g.successors b.id).length ≤ g.edges.length := List.length_filter_le _ _
          simp only [budget, rounds, List.length_map, List.contains_nil, Bool.not_false,
            List.filter_true]
          omega
        obtain ⟨E, hsub, hc⟩ := search_closed hd _ _ _ h hf fun b _ hE => absurd hE (by simp)
        have hq := quiet_of_pending (pass_passed hs hpass).2 hinto
        refine (safe E (hq.mono ?_)).not_violating hd hc ms m
        simpa [Function.comp_def] using hsub
  · rename_i hnone
    have hdead := no_moves hd fun b e hb he => hnone b e hb he
    rintro ⟨p, q, hw, -, hmove, -⟩
    cases hw with
    | refl => exact hdead _ _ hmove
    | step hm _ => exact hdead _ _ hm

theorem violating_of_coverage (h : (o.coverage g).isSatisfied = false) :
    ∃ ms m, o.Violating g ms m := by
  cases hc : o.coverage g with
  | satisfied => simp [hc, Coverage.isSatisfied] at h
  | violated witness reason =>
    obtain ⟨e, -, ms, m, hv, -⟩ := coverage_reported hc
    exact ⟨ms, m, hv⟩

theorem coverage_of_violating (hd : g.Distinct) {m : Move}
    (hv : o.Violating g ms m) : (o.coverage g).isSatisfied = false := by
  cases hc : o.coverage g with
  | satisfied => exact absurd hv (coverage_satisfied hd hc ms m)
  | violated witness reason => rfl

/-- The analysis of paths is sound and complete over all finite paths of every graph: it reports a
violation exactly if one of the paths behind the trigger violates the obligation. -/
theorem coverage_violated_iff_path {o : Obligation} {g : Graph} (hd : g.Distinct) :
    (o.coverage g).isSatisfied = false ↔ ∃ ms m, o.Violating g ms m := by
  constructor
  · exact violating_of_coverage
  · rintro ⟨ms, m, hv⟩
    exact coverage_of_violating hd hv

/-- A call that is made over and over: its block leads back to itself and to the exit. -/
def spinning : Graph where
  entry := 0
  exit := 1
  blocks := [⟨0, .entry, []⟩, ⟨1, .exit, []⟩,
    ⟨2, .loopBody, [⟨[0], .empty ⟨3, 1⟩, .stmt, [.name "x" ⟨3, 1⟩], []⟩]⟩]
  unreachable := []
  edges := [⟨0, 2, .fallThrough⟩, ⟨2, 2, .backEdge⟩, ⟨2, 1, .ret⟩]

theorem coverage_violated_iff_path_spinning :
    spinning.Distinct ∧ ∃ ms m, (⟨⟨2, 0⟩, fun _ => .pending, .satisfied, .violated,
      fun _ _ => false⟩ : Obligation).Violating spinning ms m :=
  ⟨by decide, (coverage_violated_iff_path (by decide)).mp (by decide)⟩

end Obligation

end JniContracts.Flow
