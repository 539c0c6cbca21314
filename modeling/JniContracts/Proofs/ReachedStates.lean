import JniContracts.Proofs.EnclosingLoops

/-!
Where an execution stands. In every state that it reaches, the statement in front of it is one of
the body, and what is left to do is what stands behind that statement in the body. So the address of
a statement tells what comes behind it.
-/

namespace JniContracts

namespace Stmt

inductive Leads : Stmt → Address → Stmt → Prop where
  | here (s : Stmt) : Leads s [] s
  | part {s c d : Stmt} {n : Nat} {addr : Address} (hc : s.Part n c) (hd : Leads c addr d) :
      Leads s (n :: addr) d

theorem Leads.unique {s d d' : Stmt} {addr : Address} (h : Leads s addr d) (h' : Leads s addr d') :
    d = d' := by
  induction h with
  | here s =>
    cases h'
    rfl
  | part hc _ ih =>
    cases h' with
    | part hc' hd' =>
      cases hc.unique hc'
      exact ih hd'

end Stmt

namespace Execution

variable {l m n : Located} {k k' k'' : Cont} {deep : Bool}

theorem Part.child (h : Part l k m k') : ∃ i, m = l.child i m.stmt ∧ l.stmt.Part i m.stmt := by
  cases h with
  | block => exact ⟨_, rfl, .block (by simp)⟩
  | yes => exact ⟨_, rfl, .yes⟩
  | no => exact ⟨_, rfl, .no⟩
  | loop hb =>
    obtain ⟨up, addr, s⟩ := l
    cases s with
    | whileDo c b p =>
      cases hb
      exact ⟨_, rfl, .whileDo⟩
    | doWhile b c p =>
      cases hb
      exact ⟨_, rfl, .doWhile⟩
    | forDo i c t b p =>
      cases hb
      exact ⟨_, rfl, .forDo⟩
    | _ => cases hb
  | switch => exact ⟨_, rfl, .switch⟩
  | case => exact ⟨_, rfl, .case⟩
  | label => exact ⟨_, rfl, .label⟩

theorem Part.of_child {i : Nat} {c : Stmt} (h : l.stmt.Part i c) (k : Cont) :
    ∃ k', Part l k (l.child i c) k' := by
  obtain ⟨up, addr, s⟩ := l
  cases h with
  | @block ss p i c hc =>
    obtain ⟨hlt, rfl⟩ := List.getElem?_eq_some_iff.mp hc
    obtain ⟨pre, post, hss, hpre⟩ : ∃ pre post : List Stmt, ss = pre ++ ss[i] :: post ∧
      pre.length = i := by
      refine ⟨ss.take i, ss.drop (i + 1), ?_, List.length_take_of_le (Nat.le_of_lt hlt)⟩
      rw [← List.drop_eq_getElem_cons hlt, List.take_append_drop]
    generalize ss[i] = c at hss
    subst hss hpre
    exact ⟨_, .block⟩
  | yes => exact ⟨_, .yes⟩
  | no => exact ⟨_, .no⟩
  | whileDo | doWhile | forDo => exact ⟨_, .loop rfl⟩
  | switch => exact ⟨_, .switch⟩
  | case => exact ⟨_, .case⟩
  | label => exact ⟨_, .label⟩

theorem Part.of_block (h : Part l k m k') {ss : List Stmt} {p : Pos} (hl : l.stmt = .block ss p) :
    ∃ (pre : List Stmt) (s : Stmt) (post : List Stmt), ss = pre ++ s :: post ∧
    m = l.child pre.length s ∧ k' = .rest l (pre.length + 1) post k := by
  cases h with
  | @block up addr pre s post q k =>
    cases hl
    exact ⟨pre, s, post, rfl, rfl, rfl⟩
  | loop hb =>
    rw [Located.loopBody?, hl] at hb
    cases hb
  | _ => cases hl

theorem Within.snoc (h : Within true l k m k') (hpart : Part m k' n k'') :
    Within true l k n k'' := by
  induction h with
  | here l k => exact .part (.inl rfl) hpart (.here _ _)
  | part hdeep hp _ ih => exact .part hdeep hp (ih hpart)

theorem Within.trans (h : Within true l k m k') (h' : Within true m k' n k'') :
    Within true l k n k'' := by
  induction h with
  | here l k => exact h'
  | part hdeep hp _ ih => exact .part hdeep hp (ih h')

theorem Within.deepen (h : Within deep l k m k') : Within true l k m k' := by
  induction h with
  | here l k => exact .here l k
  | part _ hp _ ih => exact .part (.inl rfl) hp ih

theorem Within.self_or_part (h : Within true l k m k') :
    (m = l ∧ k' = k) ∨ ∃ n k'', Within true l k n k'' ∧ Part n k'' m k' := by
  induction h with
  | here l k => exact .inl ⟨rfl, rfl⟩
  | @part l n m k i k' hdeep hp hrest ih =>
    rcases ih with ⟨rfl, rfl⟩ | ⟨o, j, hw, hpart⟩
    · exact .inr ⟨l, k, .here l k, hp⟩
    · exact .inr ⟨o, j, .part hdeep hp hw, hpart⟩

theorem Within.leads (h : Within deep l k m k') :
    ∃ addr, m.addr = l.addr ++ addr ∧ l.stmt.Leads addr m.stmt := by
  induction h with
  | here l k => exact ⟨[], by simp, .here l.stmt⟩
  | part _ hp _ ih =>
    obtain ⟨i, hchild, hpart⟩ := hp.child
    obtain ⟨addr, haddr, hleads⟩ := ih
    refine ⟨i :: addr, ?_, .part hpart hleads⟩
    rw [haddr, hchild]
    simp [Located.child]

theorem Within.length_up (h : Within deep l k m k') (hl : l.up.length = l.addr.length) :
    m.up.length = m.addr.length := by
  induction h with
  | here l k => exact hl
  | part _ hp _ ih =>
    obtain ⟨i, hchild, -⟩ := hp.child
    exact ih (by rw [hchild]; simp [Located.child, hl])

theorem Part.of_isLabel (h : Part l k m k') (hl : l.stmt.isLabel = true) : k' = k := by
  cases h with
  | loop hb =>
    obtain ⟨up, addr, s⟩ := l
    cases s with
    | case | label => cases hb
    | _ => cases hl
  | case | label => rfl
  | _ => cases hl

/-- Behind a statement with labels in front of it comes what is behind the whole. -/
theorem Within.behind_labels {body : Stmt} {q a : Address} {i : Nat}
    (h : Within true ⟨[], [], body⟩ .stop l k) (haddr : l.addr = q ++ i :: a)
    (hlabels : ∀ s ∈ l.up.drop (q.length + 1), s.isLabel = true) :
    ∃ m, Within true ⟨[], [], body⟩ .stop m k ∧ m.addr = q ++ [i] := by
  induction a using List.reverseRecOn generalizing l with
  | nil => exact ⟨l, h, haddr⟩
  | append_singleton a j ih =>
    rcases h.self_or_part with ⟨rfl, -⟩ | ⟨b, k', hb, hpart⟩
    · simp at haddr
    · obtain ⟨j', hchild, -⟩ := hpart.child
      have hnumber : b.addr ++ [j'] = (q ++ i :: a) ++ [j] := by
        rw [List.append_assoc, List.cons_append, ← haddr, hchild]
        rfl
      obtain ⟨hb', -⟩ := List.append_inj' hnumber rfl
      have hlength : q.length + 1 ≤ b.up.length := by
        rw [hb.length_up rfl, hb', List.length_append, List.length_cons]
        omega
      have hup : l.up.drop (q.length + 1) = b.up.drop (q.length + 1) ++ [b.stmt] := by
        rw [hchild, Located.child, List.drop_append_of_le_length hlength]
      rw [hup] at hlabels
      obtain rfl : k = k' := hpart.of_isLabel (hlabels b.stmt (by simp))
      exact ih hb hb' fun s hs => hlabels s (List.mem_append_left _ hs)

theorem Within.elements (h : Within deep l k m k') {e : Element} (he : e ∈ m.elements) :
    e ∈ l.elements := by
  induction h with
  | here l k => exact he
  | part _ hp _ ih =>
    obtain ⟨i, hchild, hpart⟩ := hp.child
    have hmem := ih he
    rw [hchild] at hmem
    exact Located.mem_elements.mpr (.part hpart hmem)

variable {exits : List String} {body : Stmt} {s t u : State} {es fs : List Event}

/-- What can be left to do in a body: the statements of a block from one on, and what is behind a
loop or a switch. -/
inductive Due (body : Stmt) : Cont → Prop where
  | stop : Due body .stop
  | rest {l : Located} {n : Nat} (pre : List Stmt) {ss : List Stmt} {p : Pos} {k : Cont}
      (hl : l.stmt = .block (pre ++ ss) p) (hn : pre.length = n)
        (h : Within true ⟨[], [], body⟩ .stop l k) :
      Due body (.rest l n ss k)
  | loop {l : Located} {k : Cont} (h : Within true ⟨[], [], body⟩ .stop l k) : Due body (.loop l k)
  | switch {l : Located} {k : Cont} (h : Within true ⟨[], [], body⟩ .stop l k) :
      Due body (.switch k)

theorem Part.due (h : Part l k m k') (hl : Within true ⟨[], [], body⟩ .stop l k) (hk : Due body k) :
    Due body k' := by
  cases h with
  | @block up addr pre s post p k =>
    exact .rest (pre ++ [s]) (congrArg (Stmt.block · p) (List.append_cons pre s post)) (by simp) hl
  | loop hb => exact .loop hl
  | switch => exact .switch hl
  | _ => exact hk

/-- What stands behind a statement of the body is due behind it. -/
theorem Within.due (h : Within true ⟨[], [], body⟩ .stop l k) : Due body k := by
  suffices hall : ∀ {m n : Located} {j i : Cont}, Within true m j n i →
    Within true ⟨[], [], body⟩ .stop m j → Due body j → Due body i from hall h (.here _ _) .stop
  intro m n j i hw
  induction hw with
  | here m j => exact fun _ hj => hj
  | part _ hp _ ih => exact fun hm hj => ih (hm.snoc hp) (hp.due hm hj)

theorem Due.behind? (h : Due body k) (hk : k.behind? = some k') : Due body k' := by
  induction k with
  | stop => cases hk
  | rest l n ss k ih =>
    cases h with
    | rest _ _ _ h => exact ih h.due hk
  | loop l k _ =>
    cases hk
    cases h with
    | loop h => exact h.due
  | switch k _ =>
    cases hk
    cases h with
    | switch h => exact h.due

theorem Due.innermost? (h : Due body k) (hk : k.innermost? = some (m, k')) :
    Within true ⟨[], [], body⟩ .stop m k' := by
  induction k with
  | stop => cases hk
  | rest l n ss k ih =>
    cases h with
    | rest _ _ _ h => exact ih h.due hk
  | loop l k _ =>
    cases hk
    cases h with
    | loop h => exact h
  | switch k ih =>
    cases h with
    | switch h => exact ih h.due hk

def Stands (body : Stmt) : State → Prop
  | .run l k | .test l k | .again l k | .choose l k => Within true ⟨[], [], body⟩ .stop l k
  | .fall k => Due body k
  | .left => True

theorem Step.stands (h : Step exits body s es t) (hs : Stands body s) : Stands body t := by
  cases h with
  | block => exact .rest [] rfl rfl hs
  | @next l n s ss k =>
    cases hs with
    | rest pre hl hn h =>
      obtain ⟨up, addr, stmt⟩ := l
      cases hl
      cases hn
      exact h.snoc .block
  | blockEnd =>
    cases hs with
    | rest _ _ _ h => exact h.due
  | loopEnd =>
    cases hs with
    | loop h => exact h
  | switchEnd =>
    cases hs with
    | switch h => exact h.due
  | bodyEnd | exitCall | ret => trivial
  | simple | empty => exact Within.due hs
  | goto hlabel =>
    obtain ⟨⟨up, addr, stmt⟩, s, p, hw, hstmt, rfl⟩ := hlabel
    cases hstmt
    exact hw.snoc .label
  | brk hk => exact (Within.due hs).behind? hk
  | cont hk => exact (Within.due hs).innermost? hk
  | ifElse | whileDo | forDo | test | again | switch => exact hs
  | yes => exact Within.snoc hs .yes
  | no => exact Within.snoc hs .no
  | noElse | skip => exact Within.due hs
  | doWhile => exact Within.snoc hs (.loop rfl)
  | enter hb => exact Within.snoc hs (.loop hb)
  | leave => exact Within.due hs
  | enterCase hcase =>
    obtain ⟨⟨up, addr, stmt⟩, s, p, hw, hstmt, rfl⟩ := hcase
    cases hstmt
    exact ((Within.snoc hs .switch).trans hw.deepen).snoc .case
  | case => exact Within.snoc hs .case
  | label => exact Within.snoc hs .label

theorem Steps.stands (h : Steps exits body s es t) (hs : Stands body s) : Stands body t := by
  induction h with
  | refl s => exact hs
  | step hstep _ ih => exact ih (hstep.stands hs)

theorem stands_start (body : Stmt) : Stands body (start body) := .here _ _

theorem Step.length_le (h : Step exits body s es t) : es.length ≤ 1 := by
  have hran : ∀ {els : List Element}, els.length ≤ 1 → (ran els).length ≤ 1 :=
    fun hels => by simpa [ran] using hels
  have hchose : ∀ (l : Located) (yes : Bool), (chose l yes).length ≤ 1 := by
    intro l yes
    rw [chose, List.length_map]
    exact (List.length_filter_le _ _).trans (Flow.condition_length l)
  cases h with
  | simple | exitCall => exact hran (Flow.evaluated_length _ _ _)
  | ifElse | test | switch => exact hran (Flow.condition_length _)
  | forDo => exact hran (Flow.initial_length _)
  | again => exact hran (Flow.advance_length _)
  | yes | no | noElse | enter | leave => exact hchose _ _
  | _ => simp [ran]

/-- Where an execution shows an event, there is the step that shows it. -/
theorem Steps.split {x : Event} (h : Steps exits body s (es ++ x :: fs) u) :
    ∃ t t', Steps exits body s es t ∧ Step exits body t [x] t' ∧ Steps exits body t' fs u := by
  generalize hall : es ++ x :: fs = all at h
  induction h generalizing es with
  | refl s => simp at hall
  | @step s t u as bs hstep hrest ih =>
    have hlen := hstep.length_le
    cases as with
    | nil =>
      obtain ⟨t', t'', hbefore, hshows, hbehind⟩ := ih hall
      exact ⟨t', t'', .step hstep hbefore, hshows, hbehind⟩
    | cons a as =>
      obtain rfl : as = [] := by simpa using hlen
      cases es with
      | nil =>
        cases hall
        exact ⟨s, t, .refl s, hstep, hrest⟩
      | cons e es =>
        obtain ⟨rfl, hlater⟩ := List.cons.inj hall
        obtain ⟨t', t'', hbefore, hshows, hbehind⟩ := ih hlater
        exact ⟨t', t'', .step hstep hbefore, hshows, hbehind⟩

theorem Step.of_ran_stmt {e : Element} (h : Step exits body s [.ran e] t) (hrole : e.role = .stmt) :
    ∃ up y k, s = .run ⟨up, e.address, .simple y⟩ k ∧
    e = Located.element ⟨up, e.address, .simple y⟩ .stmt y.exprs ∧
    t = if y.leaves exits then .left else .fall k := by
  generalize hes : [Event.ran e] = es at h
  have hran : ∀ {els : List Element}, [Event.ran e] = ran els → e ∈ els := by
    intro els hels
    have hmem : Event.ran e ∈ ran els := hels ▸ List.mem_singleton_self _
    simpa [ran] using hmem
  have hchose : ∀ {l : Located} {yes : Bool}, [Event.ran e] ≠ chose l yes := by
    intro l yes hels
    have hmem : Event.ran e ∈ chose l yes := hels ▸ List.mem_singleton_self _
    simp [chose] at hmem
  have hevaluated :
      ∀ {l : Located} {y : Simple}, e ∈ l.evaluated .stmt y → e = l.element .stmt y.exprs := by
    intro l y he
    unfold Located.evaluated at he
    split at he
    · cases he
    · exact List.mem_singleton.mp he
  cases h with
  | simple hleaves =>
    cases hevaluated (hran hes)
    exact ⟨_, _, _, rfl, rfl, by simp [hleaves]⟩
  | exitCall hleaves =>
    cases hevaluated (hran hes)
    exact ⟨_, _, _, rfl, rfl, by simp [hleaves]⟩
  | ret | goto =>
    cases hes
    cases hrole
  | ifElse | test | switch =>
    obtain ⟨c, rfl⟩ := Located.element_of_condition (hran hes)
    cases hrole
  | forDo =>
    have he := hran hes
    unfold Located.initial Located.evaluated at he
    split at he
    · split at he
      · cases he
      · cases List.mem_singleton.mp he
        cases hrole
    · cases he
  | again =>
    obtain ⟨-, c, rfl⟩ := Located.element_of_advance (hran hes)
    cases hrole
  | yes | no | noElse | enter | leave => exact absurd hes hchose
  | _ => cases hes

end Execution

end JniContracts
