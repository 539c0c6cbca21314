import JniContracts.Proofs.Draft
import JniContracts.Proofs.Layout

/-!
The construction of a graph lays the statements of a body in it. What a statement adds to a draft is
told by what it leaves as it was, and by what follows in every chart that agrees with the draft on
the blocks that the statement has finished.
-/

namespace JniContracts.Flow

open Execution

/-- A draft at which a statement can be added: control is in `cur`, if it comes there, and nothing
leads out of that block or out of blocks to come. -/
structure Opened (labels : List (String × Nat)) (cur dispatch : Option Nat) (d : Draft) : Prop where
  fresh : ∀ b, d.size ≤ b → d.out labels b = []
  here : ∀ c, cur = some c → c < d.size ∧ d.out labels c = []
  away : ∀ k, dispatch = some k → k < d.size ∧ cur ≠ some k

/-- What changes when a statement is added that starts in `cur` and from which control comes out in
`next`: new blocks come, `cur` grows, and the cases `cs` are linked to the switch around. -/
structure Adds (labels : List (String × Nat)) (cur dispatch : Option Nat) (d d' : Draft)
  (next : Option Nat) (cs : List Nat) : Prop where
  size : d.size ≤ d'.size
  code : ∀ b, b < d.size → cur ≠ some b → d'.code b = d.code b
  grown : ∀ c, cur = some c → d.code c <+: d'.code c
  out : ∀ b, b < d.size → cur ≠ some b → dispatch ≠ some b → d'.out labels b = d.out labels b
  cases : ∀ k, dispatch = some k → d'.out labels k = d.out labels k ++ cs.map (⟨k, ·, .switchCase⟩)
  fresh : ∀ b, d'.size ≤ b → d'.out labels b = []
  next : ∀ n, next = some n → n < d'.size ∧ d'.out labels n = [] ∧ (cur = some n ∨ d.size ≤ n)
  names : d.labels ⊆ d'.labels
  gotos : d.gotos ⊆ d'.gotos

/-- A chart agrees with a draft on what a statement has added to it. Only the block in which control
comes out may still grow. -/
structure Owned (C : Chart) (labels : List (String × Nat)) (cur : Option Nat) (d d' : Draft)
    (next : Option Nat) : Prop where
  done : ∀ b, b < d'.size → (cur = some b ∨ d.size ≤ b) → next ≠ some b →
    C.code b = d'.code b ∧ C.out b = d'.out labels b
  begun : ∀ n, next = some n → d'.code n <+: C.code n
  names : d'.labels ⊆ labels
  gotos : ∀ p ∈ d'.gotos, ∃ t, labels.lookup p.label = some t

namespace Draft

def front (d : Draft) : Option Nat → Position
  | some c => ⟨c, (d.code c).length⟩
  | none => ⟨d.size, 0⟩

def back (d : Draft) (next : Option Nat) : Option Position :=
  next.map fun n => ⟨n, (d.code n).length⟩

end Draft

def Names (l : Located) (label : String) : Prop :=
  ∀ k, ∃ l' k' s p, Within true l k l' k' ∧ l'.stmt = .label label s p

theorem Names.part {l l' : Located} {label : String} (h : Names l' label)
    (hp : ∀ k, ∃ k', Part l k l' k') : Names l label := by
  intro k
  obtain ⟨k', hk⟩ := hp k
  obtain ⟨l'', k'', s, p, hw, hs⟩ := h k'
  exact ⟨l'', k'', s, p, .part (.inl rfl) hk hw, hs⟩

structure Lays (exits : List String) (labels : List (String × Nat)) (sc : Scope) (l : Located)
    (cur : Option Nat) (d d' : Draft) (next : Option Nat) (cs : List Nat) : Prop where
  adds : Adds labels cur sc.dispatch d d' next cs
  named : ∀ x ∈ d'.labels, x ∈ d.labels ∨ Names l x.1
  laid : ∀ C : Chart, Owned C labels cur d d' next →
    Laid C exits labels sc l (d.front cur) (d'.back next) cs

def Adequate (exits : List String) (labels : List (String × Nat)) (s : Stmt) : Prop :=
  ∀ sc up addr cur d next d', addStmt exits sc up addr s cur d = .ok (next, d') →
    Opened labels cur sc.dispatch d → ∃ cs, Lays exits labels sc ⟨up, addr, s⟩ cur d d' next cs

variable {C : Chart} {exits : List String} {labels : List (String × Nat)} {sc : Scope} {l : Located}
  {cur dispatch next : Option Nat} {d d' d₁ : Draft} {cs : List Nat}

theorem Adds.of_push {kind : BlockKind}
    (h : Adds labels (some d.size) dispatch (d.push kind) d' next cs) :
    Adds labels none dispatch d d' next cs := by
  obtain ⟨hsize, hcode, -, hout, hcases, hfresh, hnext, hnames, hgotos⟩ := h
  rw [Draft.size_push] at hsize
  refine ⟨by omega, fun b hb _ => ?_, by simp, fun b hb _ hk => ?_, hcases, hfresh, fun n hn => ?_,
    hnames, hgotos⟩
  · simpa using hcode b (by simp; omega) (by simp; omega)
  · simpa using hout b (by simp; omega) (by simp; omega) hk
  · obtain ⟨hlt, ho, hn⟩ := hnext n hn
    refine ⟨hlt, ho, .inr ?_⟩
    simp only [Option.some.injEq, Draft.size_push] at hn
    omega

theorem Opened.push (ho : Opened labels none dispatch d) (kind : BlockKind) :
    Opened labels (some d.size) dispatch (d.push kind) := by
  refine ⟨fun b hb => ho.fresh b (by simp at hb; omega), fun c hc => ?_, fun k hk => ?_⟩
  · cases hc
    exact ⟨by simp, ho.fresh _ (Nat.le_refl _)⟩
  · have hlt := (ho.away k hk).1
    refine ⟨by simp; omega, fun h => ?_⟩
    cases h
    omega

/-- It is enough to look at statements that start in a block. -/
theorem adequate_of_some {s : Stmt}
    (h : ∀ sc up addr cur d next d', addStmt exits sc up addr s (some cur) d = .ok (next, d') →
      Opened labels (some cur) sc.dispatch d →
      ∃ cs, Lays exits labels sc ⟨up, addr, s⟩ (some cur) d d' next cs) :
    Adequate exits labels s := by
  intro sc up addr cur d next d' hrun ho
  cases cur with
  | some c => exact h sc up addr c d next d' hrun ho
  | none =>
    rw [addStmt_none] at hrun
    obtain ⟨cs, hadds, hnamed, hlaid⟩ :=
      h sc up addr d.size (d.push .body) next d' hrun (ho.push .body)
    refine ⟨cs, hadds.of_push, hnamed, fun C hC => ?_⟩
    have hfront : (d.push .body).front (some d.size) = d.front none := by
      simp [Draft.front, d.code_of_size_le (Nat.le_refl _)]
    rw [← hfront]
    refine hlaid C ⟨fun b hb howns hne => hC.done b hb (.inr ?_) hne, hC.begun, hC.names, hC.gotos⟩
    simp only [Option.some.injEq, Draft.size_push] at howns
    omega

/-- What changes step by step while a statement that starts in `cur` is added: `cur` grows, new
blocks come, and other blocks stay as they are, apart from the cases `cs` of the switch around. -/
structure Changes (labels : List (String × Nat)) (cur : Nat) (dispatch : Option Nat) (d d' : Draft)
    (cs : List Nat) : Prop where
  away : ∀ k, dispatch = some k → k < d.size ∧ k ≠ cur
  here : cur < d.size
  size : d.size ≤ d'.size
  code : ∀ b, b < d.size → b ≠ cur → d'.code b = d.code b
  grown : d.code cur <+: d'.code cur
  out : ∀ b, b < d.size → b ≠ cur → dispatch ≠ some b → d'.out labels b = d.out labels b
  cases : ∀ k, dispatch = some k → d'.out labels k = d.out labels k ++ cs.map (⟨k, ·, .switchCase⟩)
  fresh : ∀ b, d'.size ≤ b → d'.out labels b = []
  names : d.labels ⊆ d'.labels
  gotos : d.gotos ⊆ d'.gotos

variable {cs' : List Nat} {D : Draft}

namespace Changes

variable {c b t : Nat} {e : Edge}

theorem refl (ho : Opened labels (some c) dispatch d) : Changes labels c dispatch d d [] := by
  refine ⟨fun k hk => ?_, (ho.here c rfl).1, Nat.le_refl _, fun _ _ _ => rfl, List.prefix_refl _,
    fun _ _ _ _ => rfl, by simp, ho.fresh, List.Subset.refl _, List.Subset.refl _⟩
  obtain ⟨hlt, hne⟩ := ho.away k hk
  exact ⟨hlt, fun h => hne (h ▸ rfl)⟩

theorem push (h : Changes labels c dispatch d d' cs) (kind : BlockKind) :
    Changes labels c dispatch d (d'.push kind) cs := by
  obtain ⟨haway, hhere, hsize, hcode, hgrown, hout, hcases, hfresh, hnames, hgotos⟩ := h
  refine ⟨haway, hhere, by simp; omega, ?_, ?_, hout, hcases, ?_, hnames, hgotos⟩
  · simpa using hcode
  · simpa using hgrown
  · exact fun b hb => hfresh b (by simp at hb; omega)

theorem append (h : Changes labels c dispatch d d' cs) (es : List Element) (hb : b = c ∨ d.size ≤ b)
    (hlt : b < d'.size) : Changes labels c dispatch d (d'.append b es) cs := by
  obtain ⟨haway, hhere, hsize, hcode, hgrown, hout, hcases, hfresh, hnames, hgotos⟩ := h
  refine ⟨haway, hhere, by simpa using hsize, fun b' hb' hne => ?_, ?_, hout, hcases, ?_,
    hnames, hgotos⟩
  · have hne' : b' ≠ b := by omega
    simp [Draft.code_append _ _ hlt, hne', hcode b' hb' hne]
  · rw [Draft.code_append _ _ hlt]
    exact hgrown.trans (List.prefix_append ..)
  · exact fun b hb => hfresh b (by simpa using hb)

theorem link (h : Changes labels c dispatch d d' cs) (hb : e.source = c ∨ d.size ≤ e.source)
    (hlt : e.source < d'.size) : Changes labels c dispatch d (d'.link e) cs := by
  obtain ⟨haway, hhere, hsize, hcode, hgrown, hout, hcases, hfresh, hnames, hgotos⟩ := h
  refine ⟨haway, hhere, hsize, hcode, hgrown, fun b hb' hne hk => ?_, fun k hk => ?_,
    fun b hb' => ?_, hnames, hgotos⟩
  · have hne' : b ≠ e.source := by omega
    simp [hne', hout b hb' hne hk]
  · have hk' := haway k hk
    have hne' : k ≠ e.source := by omega
    simp [hne', hcases k hk]
  · rw [Draft.size_link] at hb'
    have hne' : b ≠ e.source := by omega
    simp [hne', hfresh b hb']

theorem linkIf (h : Changes labels c dispatch d d' cs) (q : Bool)
    (hb : e.source = c ∨ d.size ≤ e.source) (hlt : e.source < d'.size) :
    Changes labels c dispatch d (d'.linkIf q e) cs := by
  cases q with
  | true => exact h.link hb hlt
  | false => exact h

theorem name {n : String} (h : Changes labels c dispatch d d' cs) :
    Changes labels c dispatch d (d'.name n b) cs := by
  obtain ⟨haway, hhere, hsize, hcode, hgrown, hout, hcases, hfresh, hnames, hgotos⟩ := h
  exact ⟨haway, hhere, hsize, hcode, hgrown, hout, hcases, hfresh,
    List.Subset.trans hnames (List.subset_append_left ..), hgotos⟩

theorem jump {p : Pending} (h : Changes labels c dispatch d d' cs) (hp : p.source = c) :
    Changes labels c dispatch d (d'.jump p) cs := by
  obtain ⟨haway, hhere, hsize, hcode, hgrown, hout, hcases, hfresh, hnames, hgotos⟩ := h
  refine ⟨haway, hhere, hsize, hcode, hgrown, fun b hb hne hk => ?_, fun k hk => ?_, fun b hb => ?_,
    hnames, List.Subset.trans hgotos (List.subset_append_left ..)⟩
  · rw [Draft.out_jump_of_ne _ _ (hp ▸ hne), hout b hb hne hk]
  · rw [Draft.out_jump_of_ne _ _ (hp ▸ (haway k hk).2), hcases k hk]
  · rw [Draft.size_jump] at hb
    rw [Draft.out_jump_of_ne _ _ (by omega), hfresh b hb]

theorem linkCase (h : Changes labels c dispatch d d' cs) {k : Nat} (hk : dispatch = some k) :
    Changes labels c dispatch d (d'.link ⟨k, t, .switchCase⟩) (cs ++ [t]) := by
  obtain ⟨haway, hhere, hsize, hcode, hgrown, hout, hcases, hfresh, hnames, hgotos⟩ := h
  refine ⟨haway, hhere, hsize, hcode, hgrown, fun b hb hne hd => ?_, fun k' hk' => ?_,
    fun b hb => ?_, hnames, hgotos⟩
  · have hne' : b ≠ k := fun h => hd (h ▸ hk)
    simp [hne', hout b hb hne hd]
  · cases hk.symm.trans hk'
    simp [hcases k hk]
  · have hlt := (haway k hk).1
    rw [Draft.size_link] at hb
    have hne' : b ≠ k := by omega
    simp [hne', hfresh b hb]

theorem within {inner : Option Nat} {cs'' : List Nat} (h : Changes labels c dispatch d d' cs)
    (hb : d.size ≤ b) (ha : Adds labels (some b) inner d' D next cs')
    (hin : ∀ n, inner = some n → n = c ∨ dispatch = some n) (hcs : ∀ k, dispatch = some k →
      D.out labels k = d'.out labels k ++ cs''.map (⟨k, ·, .switchCase⟩)) :
    Changes labels c dispatch d D (cs ++ cs'') := by
  obtain ⟨haway, hhere, hsize, hcode, hgrown, hout, hcases, -, hnames, hgotos⟩ := h
  have hne : ∀ n, n < d.size → some b ≠ some n := by
    intro n hn
    simp only [ne_eq, Option.some.injEq]
    omega
  refine ⟨haway, hhere, Nat.le_trans hsize ha.size, fun n hn hc => ?_, ?_, fun n hn hc hk => ?_,
    fun k hk => ?_, ha.fresh, List.Subset.trans hnames ha.names, List.Subset.trans hgotos ha.gotos⟩
  · rw [ha.code n (by omega) (hne n hn), hcode n hn hc]
  · rw [ha.code c (by omega) (hne c hhere)]
    exact hgrown
  · rw [ha.out n (by omega) (hne n hn) fun h => (hin n h).elim hc hk, hout n hn hc hk]
  · rw [hcs k hk, hcases k hk, List.map_append, List.append_assoc]

theorem adds (h : Changes labels c dispatch d d' cs) (hb : d.size ≤ b)
    (ha : Adds labels (some b) dispatch d' D next cs') :
    Changes labels c dispatch d D (cs ++ cs') :=
  h.within hb ha (fun _ h => .inr h) ha.cases

/-- The body of a switch is added. Its cases are linked to `cur`. -/
theorem addsSwitch (h : Changes labels c dispatch d d' cs) (hb : d.size ≤ b)
    (ha : Adds labels (some b) (some c) d' D next cs') : Changes labels c dispatch d D cs := by
  have hw : Changes labels c dispatch d D (cs ++ []) := by
    refine h.within hb ha (fun n hn => .inl (Option.some.inj hn).symm) fun k hk => ?_
    obtain ⟨hlt, hc⟩ := h.away k hk
    have hsize := h.size
    rw [List.map_nil, List.append_nil]
    refine ha.out k (by omega) ?_ (by simpa using Ne.symm hc)
    simp only [ne_eq, Option.some.injEq]
    omega
  simpa using hw

theorem toAdds (h : Changes labels c dispatch d d' cs) (hnext : ∀ n, next = some n → n < d'.size ∧
      d'.out labels n = [] ∧ (some c = some n ∨ d.size ≤ n)) :
    Adds labels (some c) dispatch d d' next cs := by
  obtain ⟨haway, hhere, hsize, hcode, hgrown, hout, hcases, hfresh, hnames, hgotos⟩ := h
  refine ⟨hsize, fun b hb hne => hcode b hb fun h => hne (h ▸ rfl), ?_,
    fun b hb hne hk => hout b hb (fun h => hne (h ▸ rfl)) hk, hcases, hfresh, hnext, hnames, hgotos⟩
  rintro _ ⟨⟩
  exact hgrown

end Changes

variable {pre es : List Element} {b c : Nat} {kind : EdgeKind}

theorem Chart.reads_of_isPrefix (h : pre ++ es <+: C.code b) :
    C.Reads ⟨b, pre.length⟩ es ⟨b, pre.length + es.length⟩ := by
  obtain ⟨post, h⟩ := h
  refine ⟨⟨post, ?_⟩, rfl⟩
  simp [← h]

theorem Chart.reads_of_code (hc : C.code b = pre ++ es) :
    C.Reads ⟨b, pre.length⟩ es ⟨b, pre.length + es.length⟩ :=
  reads_of_isPrefix (hc ▸ List.prefix_refl _)

theorem Chart.ends_of_out {edges : List Edge} (hc : C.code b = pre ++ es) (ho : C.out b = edges) :
    C.Ends ⟨b, pre.length + es.length⟩ edges := by
  simp [Chart.Ends, hc, ho]

theorem Chart.leads_of_out {t : Nat} (hc : C.code b = pre ++ es)
    (h : C.out b = [⟨b, t, kind⟩]) (hk : kind ≠ .branchTrue ∧ kind ≠ .branchFalse) :
    C.Leads ⟨b, pre.length + es.length⟩ t :=
  ⟨kind, Chart.ends_of_out hc h, decided_eq_nil hk⟩

/-- A chart that agrees with a draft on a statement agrees with an earlier draft on a part of it. -/
theorem Owned.sub (hC : Owned C labels cur d d' next) {cur₁ next₁ : Option Nat} {D' : Draft}
    (hsub : ∀ b, b < D'.size → cur₁ = some b ∨ D.size ≤ b → next₁ ≠ some b →
      b < d'.size ∧ (cur = some b ∨ d.size ≤ b) ∧ next ≠ some b ∧ d'.code b = D'.code b ∧
        d'.out labels b = D'.out labels b)
    (hnext : ∀ n, next₁ = some n → D'.code n <+: C.code n) (hnames : D'.labels ⊆ d'.labels)
    (hgotos : D'.gotos ⊆ d'.gotos) : Owned C labels cur₁ D D' next₁ := by
  refine ⟨fun b hb hown hne => ?_, hnext, fun x hx => hC.names (hnames hx),
    fun p hp => hC.gotos p (hgotos hp)⟩
  obtain ⟨hlt, hown', hne', hcode, hout⟩ := hsub b hb hown hne
  rw [← hcode, ← hout]
  exact hC.done b hlt hown' hne'

theorem Lays.leave (h : Lays exits labels sc l cur d d' next cs)
    (ho : Opened labels cur sc.dispatch d) (t : Nat) (kind : EdgeKind)
    (hk : kind ≠ .branchTrue ∧ kind ≠ .branchFalse) :
    Adds labels cur sc.dispatch d (d'.leave next t kind) none cs ∧
    ∀ C : Chart, Owned C labels cur d (d'.leave next t kind) none →
    ∃ out, Laid C exits labels sc l (d.front cur) out cs ∧ ∀ o ∈ out, C.Leads o t := by
  obtain ⟨ha, -, hl⟩ := h
  constructor
  · obtain ⟨hsize, hcode, hgrown, hout, hcases, hfresh, hnext, hnames, hgotos⟩ := ha
    have haway := ho.away
    refine ⟨by simpa using hsize, by simpa using hcode, by simpa using hgrown, fun b hb hc hd => ?_,
      fun k hk => ?_, fun b hb => ?_, by simp, by simpa using hnames, by simpa using hgotos⟩
    · have hne : next ≠ some b := by grind
      simp [hne, hout b hb hc hd]
    · have hne : next ≠ some k := by grind
      simp [hne, hcases k hk]
    · rw [Draft.size_leave] at hb
      have hne : next ≠ some b := by grind
      simp [hne, hfresh b hb]
  · intro C hC
    refine ⟨d'.back next,
      hl C (hC.sub (fun b hb hown hne => ?_) (fun n hn => ?_) (by simp) (by simp)), ?_⟩
    · exact ⟨by simpa using hb, hown, by simp, by simp, by simp [hne]⟩
    · obtain ⟨hlt, -, hown⟩ := ha.next n hn
      have hcode := (hC.done n (by simpa using hlt) hown (by simp)).1
      rw [Draft.code_leave] at hcode
      exact hcode ▸ List.prefix_refl _
    · intro o hm
      cases next with
      | none => simp [Draft.back] at hm
      | some n =>
        cases hm
        obtain ⟨hlt, hn, hown⟩ := ha.next n rfl
        obtain ⟨hc, hout⟩ := hC.done n (by simpa using hlt) hown (by simp)
        rw [Draft.code_leave] at hc
        have hl : C.Leads ⟨n, (d'.code n).length + [].length⟩ t :=
          Chart.leads_of_out (by simpa using hc) (by simpa [hn] using hout) hk
        exact hl

theorem lays_simple {es : List Element} (ho : Opened labels (some c) sc.dispatch d)
    (hl : ∀ C : Chart, C.Reads (d.front (some c)) es ⟨c, (d.code c).length + es.length⟩ →
      Laid C exits labels sc l (d.front (some c)) (some ⟨c, (d.code c).length + es.length⟩) []) :
    Lays exits labels sc l (some c) d (d.append c es) (some c) [] := by
  obtain ⟨hlt, hout⟩ := ho.here c rfl
  have hcode : (d.append c es).code c = d.code c ++ es := by simp [Draft.code_append _ _ hlt]
  refine ⟨((Changes.refl ho).append es (.inl rfl) hlt).toAdds ?_, fun x hx => .inl hx,
    fun C hC => ?_⟩
  · rintro _ ⟨⟩
    exact ⟨by simpa using hlt, hout, .inl rfl⟩
  · have hb := hC.begun c rfl
    rw [hcode] at hb
    simpa [Draft.back, hcode] using hl C (Chart.reads_of_isPrefix hb)

theorem lays_jump {t : Nat} {es : List Element}
    (ho : Opened labels (some c) sc.dispatch d) (hk : kind ≠ .branchTrue ∧ kind ≠ .branchFalse)
    (hl : ∀ (C : Chart) q, C.Reads (d.front (some c)) es q → C.Leads q t →
      Laid C exits labels sc l (d.front (some c)) none []) :
    Lays exits labels sc l (some c) d ((d.append c es).link ⟨c, t, kind⟩) none [] := by
  obtain ⟨hlt, hout⟩ := ho.here c rfl
  have hch := ((Changes.refl ho).append es (.inl rfl) hlt).link (e := ⟨c, t, kind⟩) (.inl rfl)
    (by simpa using hlt)
  refine ⟨hch.toAdds (by simp), fun x hx => .inl hx, fun C hC => ?_⟩
  obtain ⟨hc, he⟩ := hC.done c (by simpa using hlt) (.inl rfl) (by simp)
  rw [Draft.code_link, Draft.code_append _ _ hlt, if_pos rfl] at hc
  rw [Draft.out_link, Draft.out_append, hout] at he
  refine hl C _ (Chart.reads_of_code hc) ?_
  exact Chart.leads_of_out hc (by simpa using he) hk

theorem adequate_simple (x : Simple) : Adequate exits labels (.simple x) := by
  refine adequate_of_some fun sc up addr c d next d' hrun ho => ?_
  rcases addStmt_simple hrun with ⟨hx, rfl, rfl⟩ | ⟨hx, rfl, rfl⟩
  · exact ⟨[], lays_simple ho fun C hr => .simple hx hr⟩
  · exact ⟨[], lays_jump ho (by simp) fun C q hr ht => .exitCall hx hr ht⟩

theorem adequate_ret (v : Option Expr) (p : Pos) : Adequate exits labels (.ret v p) := by
  refine adequate_of_some fun sc up addr c d next d' hrun ho => ?_
  obtain ⟨rfl, rfl⟩ := addStmt_ret hrun
  exact ⟨[], lays_jump ho (by simp) fun C q hr ht => .ret hr ht⟩

theorem lays_leave {t : Nat} (ho : Opened labels (some c) sc.dispatch d)
    (hk : kind ≠ .branchTrue ∧ kind ≠ .branchFalse) (hl : ∀ C : Chart,
      C.Leads (d.front (some c)) t → Laid C exits labels sc l (d.front (some c)) none []) :
    Lays exits labels sc l (some c) d (d.link ⟨c, t, kind⟩) none [] := by
  have h : Lays exits labels sc l (some c) d ((d.append c []).link ⟨c, t, kind⟩) none [] := by
    refine lays_jump ho hk fun C q hr hlead => ?_
    rw [hr.nil] at hlead
    exact hl C hlead
  rwa [d.append_nil c] at h

theorem adequate_brk (p : Pos) : Adequate exits labels (.brk p) := by
  refine adequate_of_some fun sc up addr c d next d' hrun ho => ?_
  obtain ⟨t, ht, rfl, rfl⟩ := addStmt_brk hrun
  exact ⟨[], lays_leave ho (by simp) fun C hl => .brk ht hl⟩

theorem adequate_cont (p : Pos) : Adequate exits labels (.cont p) := by
  refine adequate_of_some fun sc up addr c d next d' hrun ho => ?_
  obtain ⟨t, ht, rfl, rfl⟩ := addStmt_cont hrun
  exact ⟨[], lays_leave ho (by simp) fun C hl => .cont ht hl⟩

theorem adequate_empty (p : Pos) : Adequate exits labels (.empty p) := by
  refine adequate_of_some fun sc up addr c d next d' hrun ho => ?_
  rw [addStmt_empty] at hrun
  cases hrun
  have h : Lays exits labels sc ⟨up, addr, .empty p⟩ (some c) d (d.append c []) (some c) [] :=
    lays_simple ho fun C _ => .empty
  rw [d.append_nil c] at h
  exact ⟨[], h⟩

theorem adequate_goto (name : String) (p : Pos) : Adequate exits labels (.goto name p) := by
  refine adequate_of_some fun sc up addr c d next d' hrun ho => ?_
  obtain ⟨rfl, rfl⟩ := addStmt_goto hrun
  obtain ⟨hlt, hout⟩ := ho.here c rfl
  have hch :=
    ((Changes.refl ho).append [Located.element ⟨up, addr, .goto name p⟩ .goto []]
      (.inl rfl) hlt).jump (p := ⟨c, name, p.line⟩) rfl
  refine ⟨[], hch.toAdds (by simp), fun x hx => .inl hx, fun C hC => ?_⟩
  obtain ⟨hc, he⟩ := hC.done c (by simpa using hlt) (.inl rfl) (by simp)
  obtain ⟨t, ht⟩ := hC.gotos ⟨c, name, p.line⟩ (by simp [Draft.jump])
  obtain ⟨pre, post, hl, -⟩ := List.lookup_eq_some_iff.mp ht
  rw [Draft.code_jump, Draft.code_append _ _ hlt, if_pos rfl] at hc
  have hjump := he.trans (Draft.out_jump_source (Draft.append d c _) labels hout)
  rw [resolve, ht] at hjump
  refine .goto (t := t) (Chart.reads_of_code hc) (by simp [hl]) ?_
  exact Chart.leads_of_out hc hjump (by simp)

structure LaysAll (exits : List String) (labels : List (String × Nat)) (sc : Scope) (l : Located)
  (n : Nat) (ss : List Stmt) (cur : Option Nat) (d d' : Draft) (next : Option Nat)
  (cs : List Nat) : Prop where
  adds : Adds labels cur sc.dispatch d d' next cs
  named : ∀ x ∈ d'.labels, x ∈ d.labels ∨ ∃ (pre : List Stmt) (s : Stmt) (post : List Stmt), ss =
      pre ++ s :: post ∧ Names (l.child (n + pre.length) s) x.1
  laid : ∀ C : Chart, Owned C labels cur d d' next →
    LaidAll C exits labels sc l n ss (d.back cur) (d'.back next) cs

def AdequateAll (exits : List String) (labels : List (String × Nat)) (ss : List Stmt) : Prop :=
  ∀ sc (l : Located) n cur d next d',
    addAll exits sc (l.up ++ [l.stmt]) l.addr n ss cur d = .ok (next, d') →
    Opened labels cur sc.dispatch d → ∃ cs, LaysAll exits labels sc l n ss cur d d' next cs

theorem Adds.refl (ho : Opened labels cur dispatch d) : Adds labels cur dispatch d d cur [] := by
  refine ⟨Nat.le_refl _, fun _ _ _ => rfl, fun _ _ => List.prefix_refl _,
    fun _ _ _ _ => rfl, by simp, ho.fresh, fun n hn => ?_, List.Subset.refl _, List.Subset.refl _⟩
  exact ⟨(ho.here n hn).1, (ho.here n hn).2, .inl hn⟩

theorem Adds.opened (h : Adds labels cur dispatch d d' next cs)
    (ho : Opened labels cur dispatch d) : Opened labels next dispatch d' := by
  obtain ⟨hsize, -, -, -, -, hfresh, hnext, -, -⟩ := h
  obtain ⟨-, -, haway⟩ := ho
  refine ⟨hfresh, fun c hc => ⟨(hnext c hc).1, (hnext c hc).2.1⟩, ?_⟩
  grind

theorem Adds.trans {mid : Option Nat} (h : Adds labels cur dispatch d d₁ mid cs)
    (ho : Opened labels cur dispatch d) (h' : Adds labels mid dispatch d₁ d' next cs') :
    Adds labels cur dispatch d d' next (cs ++ cs') := by
  obtain ⟨hsize, hcode, hgrown, hout, hcases, -, hnext, hnames, hgotos⟩ := h
  obtain ⟨hsize', hcode', hgrown', hout', hcases', hfresh', hnext', hnames', hgotos'⟩ := h'
  obtain ⟨-, hhere, haway⟩ := ho
  refine ⟨by omega, ?_, ?_, ?_, ?_, hfresh', ?_, List.Subset.trans hnames hnames',
    List.Subset.trans hgotos hgotos'⟩
  · grind
  · intro c hc
    have hlt := (hhere c hc).1
    by_cases hm : mid = some c
    · exact (hgrown c hc).trans (hgrown' c hm)
    · rw [hcode' c (by omega) hm]
      exact hgrown c hc
  · grind
  · intro k hk
    rw [hcases' k hk, hcases k hk, List.map_append, List.append_assoc]
  · grind

/-- A chart that agrees with a draft on two statements agrees with it on each. -/
theorem Owned.split {mid : Option Nat} (hC : Owned C labels cur d d' next)
    (ho : Opened labels cur dispatch d) (h : Adds labels cur dispatch d d₁ mid cs)
    (h' : Adds labels mid dispatch d₁ d' next cs') :
    Owned C labels cur d d₁ mid ∧ Owned C labels mid d₁ d' next := by
  obtain ⟨hsize, -, -, -, -, -, hnext, -, -⟩ := h
  obtain ⟨hsize', hcode', hgrown', hout', -, -, hnext', hnames', hgotos'⟩ := h'
  obtain ⟨-, -, haway⟩ := ho
  constructor
  · refine hC.sub ?_ (fun n hn => ?_) hnames' hgotos'
    · grind
    · obtain ⟨hlt, -, hown⟩ := hnext n hn
      by_cases hm : next = some n
      · exact (hgrown' n hn).trans (hC.begun n hm)
      · rw [(hC.done n (by omega) hown hm).1]
        exact hgrown' n hn
  · refine hC.sub ?_ hC.begun (List.Subset.refl _) (List.Subset.refl _)
    grind

theorem Draft.back_eq_front (d : Draft) (cur : Option Nat) : ∀ q ∈ d.back cur, q = d.front cur := by
  cases cur with
  | none => simp [Draft.back]
  | some c => simp [Draft.back, Draft.front]

theorem adequateAll_nil : AdequateAll exits labels [] := by
  intro sc l n cur d next d' hrun ho
  simp only [addAll] at hrun
  cases hrun
  exact ⟨[], Adds.refl ho, fun x hx => .inl hx, fun C hC => .nil⟩

theorem adequateAll_cons {s : Stmt} {ss : List Stmt} (hs : Adequate exits labels s)
    (hss : AdequateAll exits labels ss) : AdequateAll exits labels (s :: ss) := by
  intro sc l n cur d next d' hrun ho
  simp only [addAll] at hrun
  obtain ⟨mid, d₁, hrun₁, hrun₂⟩ := bind_ok hrun
  obtain ⟨cs, h⟩ := hs _ _ _ _ _ _ _ hrun₁ ho
  obtain ⟨cs', h'⟩ := hss _ _ _ _ _ _ _ hrun₂ (h.adds.opened ho)
  refine ⟨cs ++ cs', h.adds.trans ho h'.adds, fun x hx => ?_, fun C hC => ?_⟩
  · rcases h'.named x hx with hx | ⟨pre, s', post, rfl, hn⟩
    · exact (h.named x hx).imp id fun hn => ⟨[], s, ss, rfl, hn⟩
    · refine .inr ⟨s :: pre, s', post, rfl, ?_⟩
      rw [List.length_cons, Nat.add_comm pre.length, ← Nat.add_assoc]
      exact hn
  · obtain ⟨hC₁, hC₂⟩ := hC.split ho h.adds h'.adds
    exact .cons (d.back_eq_front cur) (h.laid C hC₁) (h'.laid C hC₂)

theorem adequate_block {ss : List Stmt} (p : Pos) (hss : AdequateAll exits labels ss) :
    Adequate exits labels (.block ss p) := by
  refine adequate_of_some fun sc up addr c d next d' hrun ho => ?_
  rw [addStmt_block] at hrun
  obtain ⟨cs, h⟩ := hss sc ⟨up, addr, .block ss p⟩ 0 (some c) d next d' hrun ho
  refine ⟨cs, h.adds, fun x hx => ?_, fun C hC => .block (h.laid C hC)⟩
  refine (h.named x hx).imp id ?_
  rintro ⟨pre, s, post, rfl, hn⟩
  rw [Nat.zero_add] at hn
  exact hn.part fun k => ⟨_, .block⟩

theorem Draft.front_new (h : D.code b = []) : D.front (some b) = ⟨b, 0⟩ := by
  simp [Draft.front, h]

theorem Draft.back_new (h : D.code b = []) : D.back (some b) = some ⟨b, 0⟩ := by
  simp [Draft.back, h]

theorem Changes.opened (h : Changes labels c dispatch d d' cs) (hb : d.size ≤ b)
    (hlt : b < d'.size) (hout : d'.out labels b = []) : Opened labels (some b) dispatch d' := by
  refine ⟨h.fresh, ?_, fun k hk => ?_⟩
  · rintro _ ⟨⟩
    exact ⟨hlt, hout⟩
  · have hk' := h.away k hk
    have hsize := h.size
    refine ⟨by omega, ?_⟩
    simp only [ne_eq, Option.some.injEq]
    omega

/-- A part that starts in a new block leaves the other blocks of its statement as they are. -/
theorem Changes.keeps {n : Nat} (h : Changes labels c dispatch d d' cs)
    (ha : Adds labels (some b) dispatch d' D next cs') (hn : n < d'.size) (hne : n ≠ b)
    (hown : n = c ∨ d.size ≤ n) : D.code n = d'.code n ∧ D.out labels n = d'.out labels n := by
  have hb : some b ≠ some n := fun h => hne (Option.some.inj h).symm
  refine ⟨ha.code n hn hb, ha.out n hn hb fun hk => ?_⟩
  have hk' := h.away n hk
  omega

end JniContracts.Flow
