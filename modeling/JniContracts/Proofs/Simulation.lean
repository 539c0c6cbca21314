import JniContracts.Proofs.Layout

/-!
A body that lies in a chart and the chart run alike: each step of an execution is matched by steps
of the chart, and each step of the chart by steps of an execution, with the same events.
-/

namespace JniContracts.Flow

open Execution

variable {C : Chart} {exits : List String} {labels : List (String × Nat)} {body : Stmt}
  {start p q : Position} {l : Located} {m : LoopBlocks} {es : List Event} {s s' : State}
  {cs : List Nat} {k : Cont} {sc : Scope}

/-- The body of a function lies in a chart from `p` on, with all its labels, and nothing is behind
the exit. -/
structure Charted (C : Chart) (exits : List String) (labels : List (String × Nat)) (body : Stmt)
    (p : Position) : Prop where
  placed : ∃ cs, Placed C exits labels ⟨[], [], body⟩ .stop p cs
  labelled : ∀ name t, (name, t) ∈ labels → ∃ target k, Labelled body name target k
  unique : ∀ name t t', (name, t) ∈ labels → (name, t') ∈ labels → t = t'
  exitCode : C.code exitId = []
  exitOut : C.out exitId = []

theorem Chart.Reads.getLast? {p : Position} {e : Element} (h : C.Reads p [e] q)
    (hq : q.index = (C.code q.block).length) : (C.code q.block).getLast? = some e := by
  obtain ⟨he, rfl⟩ := h.code
  simp only at hq ⊢
  rw [List.getLast?_eq_getElem?, ← hq]
  exact he

theorem decided_branch {es : List Element} {e : Element} (h : es.getLast? = some e)
    (hb : e.isBranch = true) :
    decided es .branchTrue = [.chose e true] ∧ decided es .branchFalse = [.chose e false] := by
  simp [decided, h, hb]

theorem decided_loop {l b : Located} (hb : l.loopBody? = some b) :
    decided l.condition (bodyEdge l.stmt) = chose l true ∧
      decided l.condition .branchFalse = chose l false := by
  obtain ⟨up, addr, stmt⟩ := l
  cases stmt with
  | whileDo c b p => exact ⟨rfl, rfl⟩
  | doWhile b c p => exact ⟨rfl, rfl⟩
  | forDo i c t b p => cases c <;> exact ⟨rfl, rfl⟩
  | _ => simp [Located.loopBody?] at hb

theorem LaidLoop.ends (h : LaidLoop C exits labels sc l m cs) :
    C.Ends ⟨m.header, l.condition.length⟩
      ((if l.stmt.mayRepeat then [⟨m.header, m.body, bodyEdge l.stmt⟩] else []) ++
        if l.stmt.mayEnd then [⟨m.header, m.after, .branchFalse⟩] else []) := by
  cases h with
  | mk hb hc he ha h hj => exact ⟨by rw [hc], he⟩

theorem LaidLoop.reads (h : LaidLoop C exits labels sc l m cs) :
    C.Reads ⟨m.header, 0⟩ l.condition ⟨m.header, l.condition.length⟩ := by
  cases h with
  | mk hb hc he ha h hj => exact ⟨by simp [hc], by simp⟩

/-- Behind the body of a loop comes the last clause of a `for`, and then the condition. -/
theorem LaidLoop.advances (h : LaidLoop C exits labels sc l m cs) :
    ∃ q, C.Reads ⟨m.cont, 0⟩ l.advance q ∧ C.Skips q ⟨m.header, 0⟩ := by
  cases h with
  | mk hb hc he ha h hj =>
    rcases ha with ⟨hm, hn⟩ | ⟨hm, hl⟩
    · rw [hm, hn]
      exact ⟨_, ⟨by simp, rfl⟩, .refl _⟩
    · exact ⟨⟨m.cont, l.advance.length⟩, ⟨by simp [hm], by simp⟩, hl.skips⟩

theorem LaidLoop.isSome_loopBody? (h : LaidLoop C exits labels sc l m cs) :
    l.loopBody?.isSome = true := by
  cases h with
  | mk hb => rw [hb, Option.isSome_some]

theorem forward_fall (h : Step exits body (.fall k) es s') (hp : Sits C exits labels (.fall k) p) :
    ∃ q, C.Steps p es q ∧ Sits C exits labels s' q := by
  cases h with
  | next =>
    obtain ⟨q, sc, out, cs, hs, hl, hk, hf⟩ := hp
    cases hl with
    | @cons _ _ _ _ _ _ r mid _ cs₁ cs₂ hp h hrest =>
      cases hp q rfl
      refine ⟨q, hs.steps, Placed.sits ⟨sc, mid, h, hk, fun o ho => ?_⟩⟩
      exact ⟨o, sc, out, cs₂, .refl o, ho ▸ hrest, hk, hf⟩
  | blockEnd =>
    obtain ⟨q, sc, out, cs, hs, hl, hk, hf⟩ := hp
    cases hl with
    | nil => exact ⟨q, hs.steps, hf q rfl⟩
  | loopEnd => exact ⟨p, .refl p, hp⟩
  | switchEnd => exact ⟨p, .refl p, hp⟩
  | bodyEnd => exact ⟨p, .refl p, hp⟩

theorem forward_run (hC : Charted C exits labels body start) (h : Step exits body (.run l k) es s')
    (hp : Sits C exits labels (.run l k) p) : ∃ q, C.Steps p es q ∧ Sits C exits labels s' q := by
  obtain ⟨q, cs, hs, sc, out, hl, hk, hf⟩ := hp
  cases h with
  | block =>
    cases hl with
    | block h => exact ⟨q, hs.steps, q, sc, out, cs, .refl q, h, hk, hf⟩
  | simple hx =>
    cases hl with
    | simple _ h => exact ⟨_, hs.steps.append h.steps, hf _ rfl⟩
    | exitCall hx' => cases hx.symm.trans hx'
  | exitCall hx =>
    cases hl with
    | simple hx' => cases hx.symm.trans hx'
    | exitCall _ h ht =>
      rw [Located.evaluated_of_leaves hx]
      exact ⟨_, hs.steps.append h.steps, ht.skips⟩
  | ret =>
    cases hl with
    | ret h ht => exact ⟨_, hs.steps.append h.steps, ht.skips⟩
  | goto hg =>
    cases hl with
    | goto h hm ht =>
      obtain ⟨cs', hroot⟩ := hC.placed
      obtain ⟨t, hm', hsit⟩ := hroot.labelled hg
      rw [hC.unique _ _ _ hm' hm] at hsit
      exact ⟨_, (hs.steps.append h.steps).append ht.step.steps, by simpa using hsit⟩
  | brk hb =>
    cases hl with
    | brk hb' ht =>
      obtain ⟨k', hk', hfall⟩ := hk.brk hb'
      cases hb.symm.trans hk'
      exact ⟨_, hs.steps.append ht.step.steps, hfall⟩
  | cont hb =>
    cases hl with
    | cont hb' ht =>
      obtain ⟨l, k', hk', hsit⟩ := hk.cont hb'
      cases hb.symm.trans hk'
      exact ⟨_, hs.steps.append ht.step.steps, hsit⟩
  | empty =>
    cases hl with
    | empty => exact ⟨_, hs.steps, hf _ rfl⟩
  | ifElse =>
    cases hl with
    | ifElse hc he ha hb hj hj' =>
      refine ⟨_, hs.steps.append hc.steps, .ifElse (hc.getLast? he.1) he ⟨sc, _, ha, hk, ?_⟩
        ⟨sc, _, hb, hk, ?_⟩⟩
      · exact fun o ho => (hf _ rfl).lead (hj o ho)
      · exact fun o ho => (hf _ rfl).lead (hj' o ho)
    | ifOnly hc he ha hj =>
      refine ⟨_, hs.steps.append hc.steps,
        .ifOnly (hc.getLast? he.1) he ⟨sc, _, ha, hk, ?_⟩ (hf _ rfl)⟩
      exact fun o ho => (hf _ rfl).lead (hj o ho)
  | whileDo =>
    cases hl with
    | whileDo h ht =>
      exact ⟨_, hs.steps.append ht.step.steps, sc, _, _, h, .refl _, hk, hf _ rfl⟩
  | doWhile =>
    cases hl with
    | doWhile h ht =>
      obtain ⟨b, hb, hpl⟩ := h.placed hk (hf _ rfl)
      cases hb
      exact ⟨_, hs.steps.append ht.step.steps, hpl.sits⟩
  | forDo =>
    cases hl with
    | forDo hi h ht =>
      exact ⟨_, hs.steps.append hi.steps, sc, _, _, h, ht.skips, hk, hf _ rfl⟩
  | switch =>
    cases hl with
    | switch hc he hb hj =>
      refine ⟨_, hs.steps.append hc.steps, .switch (hc.getLast? he.1) he
        ⟨_, _, hb, ⟨sc, _, rfl, rfl, hk, hf _ rfl⟩, fun o ho => ?_⟩ (hf _ rfl)⟩
      exact (hf _ rfl).lead (hj o ho)
  | case =>
    cases hl with
    | case ht h => exact ⟨_, hs.steps.append ht.step.steps, Placed.sits ⟨sc, out, h, hk, hf⟩⟩
  | label =>
    cases hl with
    | label _ ht h => exact ⟨_, hs.steps.append ht.step.steps, Placed.sits ⟨sc, out, h, hk, hf⟩⟩

theorem forward_choose (h : Step exits body (.choose l k) es s')
    (hp : Sits C exits labels (.choose l k) p) :
    ∃ q, C.Steps p es q ∧ Sits C exits labels s' q := by
  cases h with
  | yes =>
    cases hp with
    | ifElse hl he ha hb =>
      have hs := he.step (List.mem_cons_self ..)
      rw [(decided_branch hl rfl).1] at hs
      exact ⟨_, hs.steps, ha.sits⟩
    | ifOnly hl he ha hj =>
      have hs := he.step (List.mem_cons_self ..)
      rw [(decided_branch hl rfl).1] at hs
      exact ⟨_, hs.steps, ha.sits⟩
    | loop h => cases h.isSome_loopBody?
  | no =>
    cases hp with
    | @ifElse _ _ _ _ _ _ _ _ yes no _ _ hl he ha hb =>
      have hs := he.step (List.mem_cons_of_mem _ (List.mem_singleton.mpr rfl))
      rw [(decided_branch hl rfl).2] at hs
      exact ⟨_, hs.steps, hb.sits⟩
    | loop h => cases h.isSome_loopBody?
  | noElse =>
    cases hp with
    | ifOnly hl he ha hj =>
      have hs := he.step (List.mem_cons_of_mem _ (List.mem_singleton.mpr rfl))
      rw [(decided_branch hl rfl).2] at hs
      exact ⟨_, hs.steps, hj⟩
    | loop h => cases h.isSome_loopBody?
  | enter hb hm =>
    cases hp with
    | @loop _ _ outer m cs h hk hf =>
      obtain ⟨b', hb', hpl⟩ := h.placed hk hf
      cases hb.symm.trans hb'
      have hs :=
        h.ends.step (List.mem_append_left _ (by rw [if_pos hm]; exact List.mem_singleton.mpr rfl))
      cases h with
      | mk _ hc =>
        rw [hc, (decided_loop hb).1] at hs
        exact ⟨_, hs.steps, hpl.sits⟩
    | _ => cases hb
  | leave hb hm =>
    cases hp with
    | @loop _ _ outer m cs h hk hf =>
      have hs :=
        h.ends.step (List.mem_append_right _ (by rw [if_pos hm]; exact List.mem_singleton.mpr rfl))
      cases h with
      | mk _ hc =>
        rw [hc, (decided_loop hb).2] at hs
        exact ⟨_, hs.steps, hf⟩
    | _ => cases hb
  | enterCase hcase =>
    cases hp with
    | switch hl he hb hf =>
      obtain ⟨t, ht, hsit⟩ := hb.caseOf hcase
      have hs := he.step (List.mem_append_left _ (List.mem_map.mpr ⟨t, ht, rfl⟩))
      rw [decided_eq_nil (by simp)] at hs
      exact ⟨_, hs.steps, hsit⟩
    | loop h => cases h.isSome_loopBody?
  | @skip up addr c b pos k hnone =>
    cases hp with
    | switch hl he hb hf =>
      have hd : hasDefault b = false := by
        rw [← Bool.not_eq_true]
        intro hd
        obtain ⟨target, k', hcase⟩ := (hasDefault_iff_caseOf (Located.child _ 0 b) k).mp hd
        exact hnone target k' hcase
      rw [hd] at he
      have hs := he.step (List.mem_append_right _ (List.mem_singleton.mpr rfl))
      rw [decided_eq_nil (by simp)] at hs
      exact ⟨_, hs.steps, hf⟩
    | loop h => cases h.isSome_loopBody?

/-- Each step of an execution is matched by the chart. -/
theorem forward (hC : Charted C exits labels body start)
    (h : Step exits body s es s') (hp : Sits C exits labels s p) :
    ∃ q, C.Steps p es q ∧ Sits C exits labels s' q := by
  cases s with
  | run l k => exact forward_run hC h hp
  | fall k => exact forward_fall h hp
  | test l k =>
    obtain ⟨outer, m, cs, hm, hs, hk, hf⟩ := hp
    cases h with
    | test => exact ⟨_, hs.steps.append hm.reads.steps, .loop hm hk hf⟩
  | again l k =>
    obtain ⟨outer, m, cs, hm, hs, hk, hf⟩ := hp
    obtain ⟨q, hr, hq⟩ := hm.advances
    cases h with
    | again => exact ⟨q, hs.steps.append hr.steps, outer, m, cs, hm, hq, hk, hf⟩
  | choose l k => exact forward_choose h hp
  | left => cases h

/-- What a state and the chart at its position do next, in step with each other: nothing more, go on
along a silent edge, run an element, or choose among the edges of a block. -/
inductive Ready (C : Chart) (exits : List String) (labels : List (String × Nat)) (body : Stmt)
  (s : State) (p : Position) : Prop where
  | left (h : Steps exits body s [] .left) (hp : p = ⟨exitId, 0⟩)
  | leads {s' t} (h : Steps exits body s [] s') (hl : C.Leads p t)
      (hs : Sits C exits labels s' ⟨t, 0⟩)
  | reads {s' e q} (h : Steps exits body s [.ran e] s') (hr : C.Reads p [e] q)
      (hs : Sits C exits labels s' q)
  | chooses {edges} (he : C.Ends p edges) (hp : p.block ≠ exitId)
      (h : ∀ e ∈ edges, ∃ s', Steps exits body s (decided (C.code p.block) e.kind) s' ∧
        Sits C exits labels s' ⟨e.target, 0⟩)

theorem Ready.prepend (hs : Step exits body s [] s')
    (h : Ready C exits labels body s' p) : Ready C exits labels body s p := by
  have pre : ∀ {es t}, Steps exits body s' es t → Steps exits body s es t := fun h => .step hs h
  cases h with
  | left h hp => exact .left (pre h) hp
  | leads h hl hs => exact .leads (pre h) hl hs
  | reads h hr hs => exact .reads (pre h) hr hs
  | chooses he hp h =>
    refine .chooses he hp fun e hm => ?_
    obtain ⟨t, ht, hsit⟩ := h e hm
    exact ⟨t, pre ht, hsit⟩

/-- Silent edges ahead of a state are taken first. -/
theorem Ready.skip {p : Position} (hs : C.Skips p q)
    (hsit : ∀ r, C.Skips r q → Sits C exits labels s r) (h : Ready C exits labels body s q) :
    Ready C exits labels body s p := by
  rcases hs.cases with rfl | ⟨t, hl, hr⟩
  · exact h
  · exact .leads (.refl s) hl (hsit _ hr)

theorem Ready.reading {p : Position} {es : List Element} (hes : es.length ≤ 1)
    (hs : Step exits body s (ran es) s') (hr : C.Reads p es q) (hsit : Sits C exits labels s' q)
    (h : es = [] → Ready C exits labels body s' p) : Ready C exits labels body s p := by
  match es, hes with
  | [], _ => exact (h rfl).prepend hs
  | [e], _ => exact .reads hs.steps hr hsit

theorem evaluated_length (l : Located) (role : Role) (x : Simple) :
    (l.evaluated role x).length ≤ 1 := by
  unfold Located.evaluated
  split <;> simp

theorem condition_length (l : Located) : l.condition.length ≤ 1 := by
  unfold Located.condition
  cases l.stmt.control? <;> simp

theorem initial_length (l : Located) : l.initial.length ≤ 1 := by
  unfold Located.initial
  split
  · exact evaluated_length ..
  · simp

theorem advance_length (l : Located) : l.advance.length ≤ 1 := by
  unfold Located.advance
  split <;> simp

section Charted

variable (hC : Charted C exits labels body start)
include hC

theorem block_ne_exit_of_code {n : Nat} {e : Element} (h : (C.code n).getLast? = some e) :
    n ≠ exitId := by
  rintro rfl
  rw [hC.exitCode] at h
  simp at h

theorem header_ne_exit (h : LaidLoop C exits labels sc l m cs) : m.header ≠ exitId := by
  intro hm
  cases h with
  | mk hb hc he =>
    rw [hm, hC.exitCode] at hc
    rw [hm, hC.exitOut] at he
    obtain ⟨up, addr, stmt⟩ := l
    cases stmt with
    | forDo i c t b p => simp [Stmt.mayRepeat] at he
    | whileDo c b p => simp [Located.condition, Stmt.control?] at hc
    | doWhile b c p => simp [Located.condition, Stmt.control?] at hc
    | _ => simp [Located.loopBody?] at hb

theorem ready_choose (h : Chooses C exits labels l k p) :
    Ready C exits labels body (.choose l k) p := by
  cases h with
  | ifElse hl he ha hb =>
    refine .chooses he (block_ne_exit_of_code hC hl) fun e hm => ?_
    obtain ⟨hy, hn⟩ := decided_branch hl rfl
    simp only [List.mem_cons, List.not_mem_nil, or_false] at hm
    rcases hm with rfl | rfl
    · rw [hy]
      exact ⟨_, Step.yes.steps, ha.sits⟩
    · rw [hn]
      exact ⟨_, Step.no.steps, hb.sits⟩
  | ifOnly hl he ha hj =>
    refine .chooses he (block_ne_exit_of_code hC hl) fun e hm => ?_
    obtain ⟨hy, hn⟩ := decided_branch hl rfl
    simp only [List.mem_cons, List.not_mem_nil, or_false] at hm
    rcases hm with rfl | rfl
    · rw [hy]
      exact ⟨_, Step.yes.steps, ha.sits⟩
    · rw [hn]
      exact ⟨_, Step.noElse.steps, hj⟩
  | @loop _ _ outer m cs h hk hf =>
    obtain ⟨b, hb, hpl⟩ := h.placed hk hf
    refine .chooses h.ends (header_ne_exit hC h) fun e hm => ?_
    have hc : C.code m.header = l.condition := by cases h with | mk _ hc => exact hc
    obtain ⟨hy, hn⟩ := decided_loop hb
    simp only [hc]
    rcases List.mem_append.mp hm with hm | hm
    · split at hm
      · rename_i hr
        rw [List.mem_singleton.mp hm, hy]
        exact ⟨_, (Step.enter hb hr).steps, hpl.sits⟩
      · simp at hm
    · split at hm
      · rename_i hr
        rw [List.mem_singleton.mp hm, hn]
        exact ⟨_, (Step.leave hb hr).steps, hf⟩
      · simp at hm
  | @switch up addr c b pos k p after start cs hl he hb hf =>
    refine .chooses he (block_ne_exit_of_code hC hl) fun e hm => ?_
    rcases List.mem_append.mp hm with hm | hm
    · obtain ⟨t, ht, rfl⟩ := List.mem_map.mp hm
      obtain ⟨l', k', v, s, pos', hw, hs, hsit⟩ := hb.case_of_mem ht
      rw [decided_eq_nil (by simp)]
      exact ⟨_, (Step.enterCase ⟨l', s, pos', hw, hs, rfl⟩).steps, hsit⟩
    · split at hm
      · simp at hm
      · rename_i hd
        rw [List.mem_singleton.mp hm, decided_eq_nil (by simp)]
        refine ⟨_, (Step.skip fun target k' hcase => hd ?_).steps, hf⟩
        exact (hasDefault_iff_caseOf (Located.child _ 0 b) k).mpr ⟨target, k', hcase⟩

theorem ready_test (h : Sits C exits labels (.test l k) p) :
    Ready C exits labels body (.test l k) p := by
  obtain ⟨outer, m, cs, hl, hs, hk, hf⟩ := h
  refine Ready.skip hs (fun r hr => ⟨outer, m, cs, hl, hr, hk, hf⟩) ?_
  have hch : Chooses C exits labels l k ⟨m.header, l.condition.length⟩ := .loop hl hk hf
  refine Ready.reading (condition_length l) .test hl.reads hch fun hn => ?_
  have hr := ready_choose hC hch
  rw [hn] at hr
  exact hr

theorem ready_again (h : Sits C exits labels (.again l k) p) :
    Ready C exits labels body (.again l k) p := by
  obtain ⟨outer, m, cs, hl, hs, hk, hf⟩ := h
  refine Ready.skip hs (fun r hr => ⟨outer, m, cs, hl, hr, hk, hf⟩) ?_
  obtain ⟨q, hr, hq⟩ := hl.advances
  have ht : Sits C exits labels (.test l k) q := ⟨outer, m, cs, hl, hq, hk, hf⟩
  refine Ready.reading (advance_length l) .again hr ht fun hn => ?_
  rw [hn] at hr
  rw [hr.nil] at ht
  exact ready_test hC ht

/-- How much is left to look through before something happens. -/
noncomputable def contWeight : Cont → Nat
  | .stop => 0
  | .rest _ _ ss k => sizeOf ss + contWeight k
  | .loop _ _ => 0
  | .switch k => contWeight k + 1

noncomputable def weight : State → Nat
  | .run l k => sizeOf l.stmt + contWeight k
  | .fall k => contWeight k
  | _ => 0

theorem ready_run (ih : ∀ s q, weight s < weight (.run l k) → Sits C exits labels s q →
      Ready C exits labels body s q) (h : Sits C exits labels (.run l k) p) :
    Ready C exits labels body (.run l k) p := by
  obtain ⟨q, cs, hs, hpl⟩ := h
  refine Ready.skip hs (fun r hr => ⟨q, cs, hr, hpl⟩) ?_
  obtain ⟨sc, out, hl, hk, hf⟩ := hpl
  cases hl with
  | block h =>
    refine Ready.prepend .block (ih _ _ ?_ ⟨q, sc, out, cs, .refl q, h, hk, hf⟩)
    simp [weight, contWeight]
    omega
  | simple hx h =>
    refine Ready.reading (evaluated_length ..) (.simple hx) h (hf _ rfl) fun hn => ?_
    rw [hn] at h
    have hfall := hf _ rfl
    rw [h.nil] at hfall
    exact ih (.fall k) q (by simp only [weight, Stmt.simple.sizeOf_spec]; omega) hfall
  | @exitCall _ up addr x _ _ hx h ht =>
    have hs : Step exits body (.run ⟨up, addr, .simple x⟩ k) _ .left := .exitCall hx
    rw [Located.evaluated_of_leaves hx] at hs
    exact .reads hs.steps h ht.skips
  | ret h ht => exact .reads Step.ret.steps h ht.skips
  | goto h hm ht =>
    obtain ⟨target, k', hg⟩ := hC.labelled _ _ hm
    obtain ⟨cs', hroot⟩ := hC.placed
    obtain ⟨t', hm', r, cs'', hr, hpl⟩ := hroot.labelled hg
    rw [hC.unique _ _ _ hm' hm] at hr
    exact .reads (Step.goto hg).steps h ⟨r, cs'', ht.skips.trans hr, hpl⟩
  | brk hb ht =>
    obtain ⟨k', hk', hfall⟩ := hk.brk hb
    exact .leads (Step.brk hk').steps ht hfall
  | cont hb ht =>
    obtain ⟨l, k', hk', hsit⟩ := hk.cont hb
    exact .leads (Step.cont hk').steps ht hsit
  | empty =>
    exact Ready.prepend .empty
      (ih (.fall k) q (by simp only [weight, Stmt.empty.sizeOf_spec]; omega) (hf _ rfl))
  | ifElse hc he ha hb hj hj' =>
    refine .reads Step.ifElse.steps hc (.ifElse (hc.getLast? he.1) he ⟨sc, _, ha, hk, ?_⟩
      ⟨sc, _, hb, hk, ?_⟩)
    · exact fun o ho => (hf _ rfl).lead (hj o ho)
    · exact fun o ho => (hf _ rfl).lead (hj' o ho)
  | ifOnly hc he ha hj =>
    refine .reads Step.ifElse.steps hc
      (.ifOnly (hc.getLast? he.1) he ⟨sc, _, ha, hk, ?_⟩ (hf _ rfl))
    exact fun o ho => (hf _ rfl).lead (hj o ho)
  | whileDo h ht => exact .leads Step.whileDo.steps ht ⟨sc, _, _, h, .refl _, hk, hf _ rfl⟩
  | doWhile h ht =>
    obtain ⟨b, hb, hpl⟩ := h.placed hk (hf _ rfl)
    cases hb
    exact .leads Step.doWhile.steps ht hpl.sits
  | @forDo _ _ _ _ _ _ _ _ _ r m _ hi h ht =>
    have htest : Sits C exits labels (.test _ k) r := ⟨sc, m, cs, h, ht.skips, hk, hf _ rfl⟩
    refine Ready.reading (initial_length _) .forDo hi htest fun hn => ?_
    rw [hn] at hi
    rw [hi.nil] at htest
    exact ready_test hC htest
  | switch hc he hb hj =>
    refine .reads Step.switch.steps hc (.switch (hc.getLast? he.1) he
      ⟨_, _, hb, ⟨sc, _, rfl, rfl, hk, hf _ rfl⟩, fun o ho => ?_⟩ (hf _ rfl))
    exact (hf _ rfl).lead (hj o ho)
  | case ht h => exact .leads Step.case.steps ht (Placed.sits ⟨sc, out, h, hk, hf⟩)
  | label _ ht h => exact .leads Step.label.steps ht (Placed.sits ⟨sc, out, h, hk, hf⟩)

theorem ready_fall (ih : ∀ s q, weight s < weight (.fall k) → Sits C exits labels s q →
      Ready C exits labels body s q) (h : Sits C exits labels (.fall k) p) :
    Ready C exits labels body (.fall k) p := by
  cases k with
  | stop =>
    refine Ready.skip h (fun r hr => hr) ?_
    exact .left Step.bodyEnd.steps rfl
  | rest l n ss k =>
    obtain ⟨q, sc, out, cs, hs, hl, hk, hf⟩ := h
    refine Ready.skip hs (fun r hr => ⟨q, sc, out, cs, hr, hl, hk, hf⟩) ?_
    cases hl with
    | nil =>
      exact Ready.prepend .blockEnd (ih (.fall k) q (by simp [weight, contWeight]) (hf q rfl))
    | @cons _ _ _ s ss _ r mid _ cs₁ cs₂ hp h hrest =>
      cases hp q rfl
      refine Ready.prepend .next (ih _ _ ?_ (Placed.sits ⟨sc, mid, h, hk, fun o ho => ?_⟩))
      · simp [weight, contWeight]
        omega
      · exact ⟨o, sc, out, cs₂, .refl o, ho ▸ hrest, hk, hf⟩
  | loop l k => exact Ready.prepend .loopEnd (ready_again hC h)
  | switch k => exact Ready.prepend .switchEnd (ih (.fall k) p (by simp [weight, contWeight]) h)

/-- A state at its position is ready to do what the chart does there. -/
theorem ready (h : Sits C exits labels s p) : Ready C exits labels body s p := by
  induction hn : weight s using Nat.strongRecOn generalizing s p with
  | _ n ih =>
    have ih' :
        ∀ s' q, weight s' < weight s → Sits C exits labels s' q → Ready C exits labels body s' q :=
      fun s' q hlt h' => ih _ (hn ▸ hlt) h' rfl
    cases s with
    | run l k => exact ready_run hC ih' h
    | fall k => exact ready_fall hC ih' h
    | test l k => exact ready_test hC h
    | again l k => exact ready_again hC h
    | choose l k => exact ready_choose hC h
    | left =>
      refine Ready.skip h (fun r hr => hr) ?_
      exact .left (.refl _) rfl

/-- Each step of the chart is matched by an execution. -/
theorem backward {p : Position} (h : C.Step p es q) (hp : Sits C exits labels s p) :
    ∃ s', Steps exits body s es s' ∧ Sits C exits labels s' q := by
  cases ready hC hp with
  | left hs hexit =>
    subst hexit
    cases h with
    | read h => simp [hC.exitCode] at h
    | follow _ he => simp [hC.exitOut] at he
  | leads hs hl hsit =>
    obtain ⟨rfl, rfl⟩ := hl.only h
    exact ⟨_, hs, hsit⟩
  | reads hs hr hsit =>
    obtain ⟨rfl, rfl⟩ := hr.only h
    exact ⟨_, hs, hsit⟩
  | chooses he _ hall =>
    obtain ⟨e, hm, rfl, rfl⟩ := he.only h
    exact hall e hm

theorem left_of_exit (h : Sits C exits labels s ⟨exitId, 0⟩) : Steps exits body s [] .left := by
  cases ready hC h with
  | left hs _ => exact hs
  | leads _ hl _ =>
    obtain ⟨kind, ⟨-, he⟩, -⟩ := hl
    simp [hC.exitOut] at he
  | reads _ hr _ =>
    have he := hr.code.1
    simp [hC.exitCode] at he
  | chooses _ hp _ => exact absurd rfl hp

theorem forward_steps (h : Steps exits body s es s') (hp : Sits C exits labels s p) :
    ∃ q, C.Steps p es q ∧ Sits C exits labels s' q := by
  induction h generalizing p with
  | refl s => exact ⟨p, .refl p, hp⟩
  | step hs _ ih =>
    obtain ⟨q, hq, hsit⟩ := forward hC hs hp
    obtain ⟨r, hr, hsit'⟩ := ih hsit
    exact ⟨r, hq.append hr, hsit'⟩

theorem backward_steps {p : Position} (h : C.Steps p es q) (hp : Sits C exits labels s p) :
    ∃ s', Steps exits body s es s' ∧ Sits C exits labels s' q := by
  induction h generalizing s with
  | refl p => exact ⟨s, .refl s, hp⟩
  | step hs _ ih =>
    obtain ⟨t, ht, hsit⟩ := backward hC hs hp
    obtain ⟨u, hu, hsit'⟩ := ih hsit
    exact ⟨u, ht.append hu, hsit'⟩

end Charted

end JniContracts.Flow
