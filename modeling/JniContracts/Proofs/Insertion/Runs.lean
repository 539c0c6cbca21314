import JniContracts.Proofs.Insertion.Statements

/-!
Executions with and without a statement that evaluates and goes on. Every execution with it is one
without it, in which the statement is left out and everything else is seen as before.
-/

namespace JniContracts

open Flow Execution Insertion

structure Element.Shifted (place : Address) (e e' : Element) : Prop where
  address : e'.address = shift place e.address
  role : e'.role = e.role
  exprs : e'.exprs = e.exprs

theorem Element.Shifted.key_iff {place : Address} {d d' e e' : Element} (hd : d.Shifted place d')
    (he : e.Shifted place e') : d'.key = e'.key ↔ d.key = e.key := by
  simp only [Element.key, hd.address, he.address, hd.role, he.role, Prod.mk.injEq,
    (shift_injective place).eq_iff]

structure Element.IsAdded (y : Simple) (place : Address) (e : Element) : Prop where
  key : e.key = (place, .stmt)
  exprs : e.exprs = y.exprs

namespace Located

variable {x : Stmt} {place : Address} {l l' : Located}

theorem Stays.element (h : Stays x place l l') (role : Role) (exprs : List Expr) :
    (l.element role exprs).Shifted place (l'.element role exprs) := ⟨h.addr, rfl, rfl⟩

theorem Stays.evaluated (h : Stays x place l l') (role : Role) (y : Simple) :
    List.Forall₂ (Element.Shifted place) (l.evaluated role y) (l'.evaluated role y) := by
  unfold Located.evaluated
  split
  · exact .nil
  · exact .cons (h.element role y.exprs) .nil

theorem Stays.control? (h : Stays x place l l') : l'.stmt.control? = l.stmt.control? := by
  obtain ⟨up, a, s⟩ := l
  obtain ⟨up', a', s'⟩ := l'
  cases h.alike <;> rfl

theorem Stays.condition (h : Stays x place l l') :
    List.Forall₂ (Element.Shifted place) l.condition l'.condition := by
  rw [Located.condition, Located.condition, h.control?]
  exact List.forall₂_map_left_iff.mpr (List.forall₂_map_right_iff.mpr
    (List.forall₂_same.mpr fun c _ => h.element .cond [c]))

theorem Stays.initial (h : Stays x place l l') :
    List.Forall₂ (Element.Shifted place) l.initial l'.initial := by
  obtain ⟨up, a, s⟩ := l
  obtain ⟨up', a', s'⟩ := l'
  cases h.alike with
  | forDo i c t p hfirst h =>
    cases i with
    | none => exact .nil
    | some y => exact (hfirst y).evaluated .init y
  | _ => exact .nil

theorem Stays.advance (h : Stays x place l l') :
    List.Forall₂ (Element.Shifted place) l.advance l'.advance := by
  obtain ⟨up, a, s⟩ := l
  obtain ⟨up', a', s'⟩ := l'
  cases h.alike with
  | forDo i c t p hfirst hbody =>
    cases t with
    | none => exact .nil
    | some t => exact .cons (h.element .step [t]) .nil
  | _ => exact .nil

theorem Stays.loopBody? (h : Stays x place l l') {b' : Located} (hb : l'.loopBody? = some b') :
    ∃ b, l.loopBody? = some b ∧ Stays x place b b' := by
  obtain ⟨up, a, s⟩ := l
  obtain ⟨up', a', s'⟩ := l'
  cases h.alike with
  | whileDo c p h | doWhile c p h =>
    cases hb
    exact ⟨_, rfl, h⟩
  | forDo i c t p hfirst h =>
    cases hb
    exact ⟨_, rfl, h⟩
  | _ => cases hb

theorem Stays.mayRepeat (h : Stays x place l l') : l'.stmt.mayRepeat = l.stmt.mayRepeat := by
  obtain ⟨up, a, s⟩ := l
  obtain ⟨up', a', s'⟩ := l'
  cases h.alike <;> rfl

theorem Stays.mayEnd (h : Stays x place l l') : l'.stmt.mayEnd = l.stmt.mayEnd := by
  obtain ⟨up, a, s⟩ := l
  obtain ⟨up', a', s'⟩ := l'
  cases h.alike <;> rfl

theorem Stays.isBranch (h : Stays x place l l') (role : Role) (exprs : List Expr) :
    (l'.element role exprs).isBranch = (l.element role exprs).isBranch := by
  obtain ⟨up, a, s⟩ := l
  obtain ⟨up', a', s'⟩ := l'
  cases h.alike <;> rfl

end Located

namespace Stmt

theorem hasDefaultAmong_added {x : Stmt} (hx : hasDefault x = false) (pre post : List Stmt) :
    hasDefaultAmong (pre ++ x :: post) = hasDefaultAmong (pre ++ post) := by
  induction pre with
  | nil => simp [hasDefaultAmong, hx]
  | cons s pre ih => simp [hasDefaultAmong, ih]

theorem Gains.hasDefault {x s s' : Stmt} {place : Address} (hx : Flow.hasDefault x = false)
    (h : Gains x place s s') : Flow.hasDefault s' = Flow.hasDefault s := by
  induction h with
  | here pre post p => simp [Flow.hasDefault, hasDefaultAmong_added hx]
  | block pre post p h ih => simp [Flow.hasDefault, hasDefaultAmong_append, ih]
  | case v p h ih => cases v <;> simp [Flow.hasDefault, ih]
  | _ => simp_all [Flow.hasDefault, hasDefaultElse]

end Stmt

namespace Located

theorem Stays.hasDefault {x : Stmt} {place : Address} {l l' : Located}
    (hx : Flow.hasDefault x = false) (h : Stays x place l l') :
    Flow.hasDefault l'.stmt = Flow.hasDefault l.stmt := by
  rcases h.seat with ⟨hstmt, -⟩ | ⟨rest, -, -, hgains⟩
  · rw [hstmt]
  · exact hgains.hasDefault hx

/-- A statement of a block after is the added one, or it was there before, with the same statements
behind it. -/
theorem StayAll.split {x : Stmt} {place : Address} {l l' : Located} {n n' : Nat}
    {ss pre' post' : List Stmt} {s' : Stmt}
    (h : StayAll x place l l' n ss n' (pre' ++ s' :: post')) :
    (s' = x ∧ place = l'.addr ++ [n' + pre'.length]) ∨
    ∃ (pre : List Stmt) (s : Stmt) (post : List Stmt), ss = pre ++ s :: post ∧
    Stays x place (l.child (n + pre.length) s) (l'.child (n' + pre'.length) s') ∧
    StayAll x place l l' (n + pre.length + 1) post (n' + pre'.length + 1) post' := by
  have hcount : ∀ a b : Nat, a + 1 + b = a + (b + 1) := by omega
  generalize hall : pre' ++ s' :: post' = all at h
  induction h generalizing pre' with
  | nil n n' => simp at hall
  | @cons n n' c c' cs cs' h hrest ih =>
    cases pre' with
    | nil =>
      cases hall
      exact .inr ⟨[], c, cs, rfl, h, hrest⟩
    | cons d pre' =>
      cases hall
      refine (ih rfl).imp (fun hadded => ?_) ?_
      · simpa only [hcount, List.length_cons] using hadded
      rintro ⟨pre, s, post, rfl, hs, hpost⟩
      refine ⟨c :: pre, s, post, rfl, ?_, ?_⟩
      · simpa only [hcount, List.length_cons] using hs
      · simpa only [hcount, List.length_cons] using hpost
  | @added n n' cs cs' h hrest ih =>
    cases pre' with
    | nil =>
      cases hall
      exact .inl ⟨rfl, h⟩
    | cons d pre' =>
      cases hall
      refine (ih rfl).imp (fun hadded => ?_) ?_
      · simpa only [hcount, List.length_cons] using hadded
      rintro ⟨pre, s, post, rfl, hs, hpost⟩
      refine ⟨pre, s, post, rfl, ?_, ?_⟩
      · simpa only [hcount, List.length_cons] using hs
      · simpa only [hcount, List.length_cons] using hpost

end Located

namespace Insertion

open Located

inductive Conts (x : Stmt) (place : Address) : Cont → Cont → Prop where
  | stop : Conts x place .stop .stop
  | rest {l l' : Located} {n n' : Nat} {ss ss' : List Stmt} {k k' : Cont}
      (h : StayAll x place l l' n ss n' ss') (hk : Conts x place k k') :
      Conts x place (.rest l n ss k) (.rest l' n' ss' k')
  | loop {l l' : Located} {k k' : Cont} (h : Stays x place l l') (hk : Conts x place k k') :
      Conts x place (.loop l k) (.loop l' k')
  | switch {k k' : Cont} (hk : Conts x place k k') : Conts x place (.switch k) (.switch k')

variable {x : Stmt} {place : Address} {m' : Located} {k k' j' : Cont}

theorem Conts.behind? (h : Conts x place k k') (hj : k'.behind? = some j') :
    ∃ j, k.behind? = some j ∧ Conts x place j j' := by
  induction h with
  | stop => cases hj
  | rest _ _ ih => exact ih hj
  | loop _ hk _ =>
    cases hj
    exact ⟨_, rfl, hk⟩
  | switch hk _ =>
    cases hj
    exact ⟨_, rfl, hk⟩

theorem Conts.innermost? (h : Conts x place k k') (hj : k'.innermost? = some (m', j')) :
    ∃ m j, k.innermost? = some (m, j) ∧ Stays x place m m' ∧ Conts x place j j' := by
  induction h with
  | stop => cases hj
  | rest _ _ ih => exact ih hj
  | loop h hk _ =>
    cases hj
    exact ⟨_, _, rfl, h, hk⟩
  | switch _ ih => exact ih hj

end Insertion

namespace Located

variable {x : Stmt} {place : Address} {l l' m' : Located} {k k' j' : Cont}

theorem Stays.part (h : Stays x place l l') (hk : Conts x place k k') (hpart : Part l' k' m' j') :
    (m'.stmt = x ∧ m'.addr = place) ∨ ∃ m j, Part l k m j ∧ Stays x place m m' ∧
    Conts x place j j' := by
  obtain ⟨up, a, s⟩ := l
  cases hpart with
  | block =>
    cases h.alike with
    | block p hall =>
      rcases hall.split with ⟨hadded, hplace⟩ | ⟨pre, s, post, rfl, hs, hpost⟩
      · rw [Nat.zero_add] at hplace
        exact .inl ⟨hadded, hplace.symm⟩
      simp only [Nat.zero_add] at hs hpost
      exact .inr ⟨_, _, .block, hs, .rest hpost hk⟩
  | yes =>
    cases h.alike with
    | ifOnly c p hs => exact .inr ⟨_, _, .yes, hs, hk⟩
    | ifElse c p hs hno => exact .inr ⟨_, _, .yes, hs, hk⟩
  | no =>
    cases h.alike with
    | ifElse c p hyes hs => exact .inr ⟨_, _, .no, hs, hk⟩
  | loop hb =>
    obtain ⟨b, hb, hs⟩ := h.loopBody? hb
    exact .inr ⟨_, _, .loop hb, hs, .loop h hk⟩
  | switch =>
    cases h.alike with
    | switch c p hs => exact .inr ⟨_, _, .switch, hs, .switch hk⟩
  | case =>
    cases h.alike with
    | case v p hs => exact .inr ⟨_, _, .case, hs, hk⟩
  | label =>
    cases h.alike with
    | label name p hs => exact .inr ⟨_, _, .label, hs, hk⟩

/-- So with a statement somewhere inside, where the added one has no parts. -/
theorem Stays.within {y : Simple} {deep : Bool} (h : Stays (.simple y) place l l')
    (hk : Conts (.simple y) place k k') (hwithin : Within deep l' k' m' j') :
    (m'.stmt = .simple y ∧ m'.addr = place) ∨
    ∃ m j, Within deep l k m j ∧ Stays (.simple y) place m m' ∧ Conts (.simple y) place j j' := by
  induction hwithin generalizing l k with
  | here l' k' => exact .inr ⟨l, k, .here l k, h, hk⟩
  | @part l' n' m' k' i' j' hdeep hpart hrest ih =>
    rcases h.part hk hpart with ⟨hadded, hplace⟩ | ⟨n, i, hp, hn, hi⟩
    · refine .inl ?_
      cases hrest with
      | here => exact ⟨hadded, hplace⟩
      | part _ hpart _ =>
        cases hpart with
        | loop hb =>
          unfold Located.loopBody? at hb
          rw [hadded] at hb
          cases hb
        | _ => cases hadded
    · refine (ih hn hi).imp_right ?_
      rintro ⟨m, j, hw, hm, hj⟩
      exact ⟨m, j, .part (by rwa [← h.isSwitch]) hp hw, hm, hj⟩

end Located

namespace Insertion

open Located

/-- A state before and after. Where the execution after is in front of the added statement, the one
before goes on behind it. -/
inductive States (x : Stmt) (place : Address) : State → State → Prop where
  | run {l l' : Located} {k k' : Cont} (h : Stays x place l l') (hk : Conts x place k k') :
      States x place (.run l k) (.run l' k')
  | fall {k k' : Cont} (hk : Conts x place k k') : States x place (.fall k) (.fall k')
  | test {l l' : Located} {k k' : Cont} (h : Stays x place l l') (hk : Conts x place k k') :
      States x place (.test l k) (.test l' k')
  | again {l l' : Located} {k k' : Cont} (h : Stays x place l l') (hk : Conts x place k k') :
      States x place (.again l k) (.again l' k')
  | choose {l l' : Located} {k k' : Cont} (h : Stays x place l l') (hk : Conts x place k k') :
      States x place (.choose l k) (.choose l' k')
  | left : States x place .left .left
  | added {up' : List Stmt} {k k' : Cont} (hk : Conts x place k k') :
      States x place (.fall k) (.run ⟨up', place, x⟩ k')

inductive Events (place : Address) : Event → Event → Prop where
  | ran {e e' : Element} (h : e.Shifted place e') : Events place (.ran e) (.ran e')
  | chose {e e' : Element} (h : e.Shifted place e') (yes : Bool) :
      Events place (.chose e yes) (.chose e' yes)

/-- What is seen before and after. The added statement is seen only after. -/
inductive Traces (y : Simple) (place : Address) : List Event → List Event → Prop where
  | nil : Traces y place [] []
  | cons {x x' : Event} {es es' : List Event} (h : Events place x x')
      (hrest : Traces y place es es') : Traces y place (x :: es) (x' :: es')
  | added {e : Element} {es es' : List Event} (h : e.IsAdded y place)
      (hrest : Traces y place es es') : Traces y place es (.ran e :: es')

variable {y : Simple} {place : Address} {es es' fs fs' : List Event}

theorem Traces.of_forall₂ (h : List.Forall₂ (Events place) es es') : Traces y place es es' := by
  induction h with
  | nil => exact .nil
  | cons h _ ih => exact .cons h ih

theorem Traces.ran {els els' : List Element} (h : List.Forall₂ (Element.Shifted place) els els') :
    Traces y place (ran els) (ran els') :=
  .of_forall₂
    (List.forall₂_map_left_iff.mpr (List.forall₂_map_right_iff.mpr (h.imp fun _ _ => .ran)))

theorem Traces.append (h : Traces y place es es') (h' : Traces y place fs fs') :
    Traces y place (es ++ fs) (es' ++ fs') := by
  induction h with
  | nil => exact h'
  | cons h _ ih => exact .cons h ih
  | added h _ ih => exact .added h ih

theorem Traces.split {gs' : List Event} (h : Traces y place es (fs' ++ gs')) :
    ∃ fs gs, es = fs ++ gs ∧ Traces y place fs fs' ∧ Traces y place gs gs' := by
  generalize hall : fs' ++ gs' = all at h
  induction h generalizing fs' with
  | nil =>
    obtain ⟨rfl, rfl⟩ := List.append_eq_nil_iff.mp hall
    exact ⟨[], [], rfl, .nil, .nil⟩
  | @cons x x' es es' hx hrest ih =>
    cases fs' with
    | nil =>
      cases hall
      exact ⟨[], x :: es, rfl, .nil, .cons hx hrest⟩
    | cons z fs' =>
      cases hall
      obtain ⟨fs, gs, rfl, hfs, hgs⟩ := ih rfl
      exact ⟨x :: fs, gs, rfl, .cons hx hfs, hgs⟩
  | @added e es es' he hrest ih =>
    cases fs' with
    | nil =>
      cases hall
      exact ⟨[], es, rfl, .nil, .added he hrest⟩
    | cons z fs' =>
      cases hall
      obtain ⟨fs, gs, rfl, hfs, hgs⟩ := ih rfl
      exact ⟨fs, gs, rfl, .added he hfs, hgs⟩

theorem Traces.ran_one {e' : Element} (h : Traces y place es [.ran e'])
    (hnot : ¬ e'.IsAdded y place) : ∃ e, es = [.ran e] ∧ e.Shifted place e' := by
  cases h with
  | cons hx hrest =>
    cases hrest
    cases hx with
    | ran he => exact ⟨_, rfl, he⟩
  | added he _ => exact absurd he hnot

theorem Traces.exists_of_mem (h : Traces y place es es') {x : Event} (hx : x ∈ es) :
    ∃ x' ∈ es', Events place x x' := by
  induction h with
  | nil => cases hx
  | @cons z z' es es' hz _ ih =>
    rcases List.mem_cons.mp hx with rfl | hx
    · exact ⟨z', List.mem_cons_self, hz⟩
    · obtain ⟨x', hx', hxx⟩ := ih hx
      exact ⟨x', List.mem_cons_of_mem _ hx', hxx⟩
  | added _ _ ih =>
    obtain ⟨x', hx', hxx⟩ := ih hx
    exact ⟨x', List.mem_cons_of_mem _ hx', hxx⟩

end Insertion

namespace Located

variable {x : Stmt} {y : Simple} {place : Address} {l l' : Located} {k k' : Cont}
  {exits : List String} {body body' : Stmt} {es' : List Event} {t' : State}

theorem Stays.chose (h : Stays x place l l') (yes : Bool) :
    Traces y place (chose l yes) (chose l' yes) := by
  rw [Execution.chose, Execution.chose, Located.condition, Located.condition, h.control?]
  cases l.stmt.control? with
  | none => exact .nil
  | some c =>
    simp only [Option.toList_some, List.map_cons, List.map_nil, List.filter_cons,
      List.filter_nil, h.isBranch]
    split
    · exact .cons (.chose (h.element .cond [c]) yes) .nil
    · exact .nil

/-- From a statement that was there before, the execution before takes the same step. -/
theorem Stays.step (h : Stays (.simple y) place l l')
    (hbody : Stays (.simple y) place ⟨[], [], body⟩ ⟨[], [], body'⟩)
    (hk : Conts (.simple y) place k k') (hstep : Step exits body' (.run l' k') es' t') :
    ∃ es t, Step exits body (.run l k) es t ∧ Traces y place es es' ∧
    States (.simple y) place t t' := by
  obtain ⟨up, a, s⟩ := l
  cases hstep with
  | block =>
    cases h.alike with
    | block p hall => exact ⟨_, _, .block, .nil, .fall (.rest hall hk)⟩
  | simple hleaves =>
    cases h.alike with
    | simple z => exact ⟨_, _, .simple hleaves, .ran (h.evaluated .stmt _), .fall hk⟩
  | exitCall hleaves =>
    cases h.alike with
    | simple z => exact ⟨_, _, .exitCall hleaves, .ran (h.evaluated .stmt _), .left⟩
  | ret =>
    cases h.alike with
    | ret v p => exact ⟨_, _, .ret, .ran (.cons (h.element .ret _) .nil), .left⟩
  | goto hlabel =>
    cases h.alike with
    | goto name p =>
      obtain ⟨m', s', p', hwithin, hstmt, rfl⟩ := hlabel
      rcases hbody.within .stop hwithin with ⟨hadded, -⟩ | ⟨m, j, hw, hm, hj⟩
      · rw [hadded] at hstmt
        cases hstmt
      · obtain ⟨up', a', s''⟩ := m'
        obtain ⟨up, a, s⟩ := m
        cases hstmt
        cases hm.alike with
        | label name p hs =>
          exact ⟨_, _, .goto ⟨_, _, _, hw, rfl, rfl⟩,
            .ran (.cons (h.element .goto []) .nil), .run hs hj⟩
  | brk hj =>
    cases h.alike with
    | brk p =>
      obtain ⟨j, hj, hjj⟩ := hk.behind? hj
      exact ⟨_, _, .brk hj, .nil, .fall hjj⟩
  | cont hj =>
    cases h.alike with
    | cont p =>
      obtain ⟨m, j, hj, hm, hjj⟩ := hk.innermost? hj
      exact ⟨_, _, .cont hj, .nil, .again hm hjj⟩
  | empty =>
    cases h.alike with
    | empty p => exact ⟨_, _, .empty, .nil, .fall hk⟩
  | ifElse =>
    have htrace := Traces.ran (y := y) h.condition
    cases h.alike with
    | ifOnly c p hyes => exact ⟨_, _, .ifElse, htrace, .choose h hk⟩
    | ifElse c p hyes hno => exact ⟨_, _, .ifElse, htrace, .choose h hk⟩
  | whileDo =>
    cases h.alike with
    | whileDo c p hb => exact ⟨_, _, .whileDo, .nil, .test h hk⟩
  | doWhile =>
    cases h.alike with
    | doWhile c p hb => exact ⟨_, _, .doWhile, .nil, .run hb (.loop h hk)⟩
  | forDo =>
    have htrace := Traces.ran (y := y) h.initial
    cases h.alike with
    | forDo i c t p hfirst hb => exact ⟨_, _, .forDo, htrace, .test h hk⟩
  | switch =>
    have htrace := Traces.ran (y := y) h.condition
    cases h.alike with
    | switch c p hb => exact ⟨_, _, .switch, htrace, .choose h hk⟩
  | case =>
    cases h.alike with
    | case v p hs => exact ⟨_, _, .case, .nil, .run hs hk⟩
  | label =>
    cases h.alike with
    | label name p hs => exact ⟨_, _, .label, .nil, .run hs hk⟩

theorem Stays.step_choose (h : Stays (.simple y) place l l') (hk : Conts (.simple y) place k k')
    (hstep : Step exits body' (.choose l' k') es' t') :
    ∃ es t, Step exits body (.choose l k) es t ∧ Traces y place es es' ∧
    States (.simple y) place t t' := by
  cases hstep with
  | enter hb hrepeat =>
    obtain ⟨b, hb, hs⟩ := h.loopBody? hb
    exact ⟨_, _, .enter hb (by rwa [← h.mayRepeat]), h.chose true, .run hs (.loop h hk)⟩
  | leave hb hend =>
    obtain ⟨b, hb, hs⟩ := h.loopBody? hb
    exact ⟨_, _, .leave hb (by rwa [← h.mayEnd]), h.chose false, .fall hk⟩
  | yes =>
    have htrace := h.chose (y := y) true
    obtain ⟨up, a, s⟩ := l
    cases h.alike with
    | ifOnly c p hyes => exact ⟨_, _, .yes, htrace, .run hyes hk⟩
    | ifElse c p hyes hno => exact ⟨_, _, .yes, htrace, .run hyes hk⟩
  | no =>
    have htrace := h.chose (y := y) false
    obtain ⟨up, a, s⟩ := l
    cases h.alike with
    | ifElse c p hyes hno => exact ⟨_, _, .no, htrace, .run hno hk⟩
  | noElse =>
    have htrace := h.chose (y := y) false
    obtain ⟨up, a, s⟩ := l
    cases h.alike with
    | ifOnly c p hyes => exact ⟨_, _, .noElse, htrace, .fall hk⟩
  | enterCase hcase =>
    obtain ⟨up, a, s⟩ := l
    cases h.alike with
    | switch c p hb =>
      obtain ⟨m', s', p', hwithin, hstmt, rfl⟩ := hcase
      rcases hb.within (.switch hk) hwithin with ⟨hadded, -⟩ | ⟨m, j, hw, hm, hj⟩
      · rw [hadded] at hstmt
        cases hstmt
      · obtain ⟨up', a', s''⟩ := m'
        obtain ⟨up, a, s⟩ := m
        cases hstmt
        cases hm.alike with
        | case v p hs => exact ⟨_, _, .enterCase ⟨_, _, _, hw, rfl, rfl⟩, .nil, .run hs hj⟩
  | skip hnone =>
    obtain ⟨up, a, s⟩ := l
    cases h.alike with
    | switch c p hb =>
      refine ⟨_, _, .skip fun target j hcase => ?_, .nil, .fall hk⟩
      have hdefault := (hasDefault_iff_caseOf _ _).mpr ⟨target, j, hcase⟩
      rw [← hb.hasDefault rfl] at hdefault
      obtain ⟨target', j', hcase'⟩ := (hasDefault_iff_caseOf _ _).mp hdefault
      exact hnone target' j' hcase'

end Located

namespace Insertion

open Located

variable {y : Simple} {place : Address} {k k' : Cont} {exits : List String} {body body' : Stmt}
  {es' : List Event} {s s' t' : State}

/-- Behind a statement, the execution before waits while the one after takes up the added
statement. -/
theorem Conts.step (hk : Conts (.simple y) place k k')
    (hstep : Step exits body' (.fall k') es' t') :
    ∃ es t, Steps exits body (.fall k) es t ∧ Traces y place es es' ∧
    States (.simple y) place t t' := by
  cases hstep with
  | next =>
    cases hk with
    | rest hall hk =>
      cases hall with
      | cons hs hrest => exact ⟨_, _, Step.next.steps, .nil, .run hs (.rest hrest hk)⟩
      | added hplace hrest =>
        refine ⟨_, _, .refl _, .nil, ?_⟩
        rw [Located.child, ← hplace]
        exact .added (.rest hrest hk)
  | blockEnd =>
    cases hk with
    | rest hall hk =>
      cases hall with
      | nil => exact ⟨_, _, Step.blockEnd.steps, .nil, .fall hk⟩
  | loopEnd =>
    cases hk with
    | loop h hk => exact ⟨_, _, Step.loopEnd.steps, .nil, .again h hk⟩
  | switchEnd =>
    cases hk with
    | switch hk => exact ⟨_, _, Step.switchEnd.steps, .nil, .fall hk⟩
  | bodyEnd =>
    cases hk with
    | stop => exact ⟨_, _, Step.bodyEnd.steps, .nil, .left⟩

theorem States.step (hy : y.leaves exits = false)
    (hbody : Stays (.simple y) place ⟨[], [], body⟩ ⟨[], [], body'⟩)
    (h : States (.simple y) place s s') (hstep : Step exits body' s' es' t') :
    ∃ es t, Steps exits body s es t ∧ Traces y place es es' ∧ States (.simple y) place t t' := by
  cases h with
  | run h hk =>
    obtain ⟨es, t, hs, hes, ht⟩ := h.step hbody hk hstep
    exact ⟨es, t, hs.steps, hes, ht⟩
  | fall hk => exact hk.step hstep
  | test h hk =>
    cases hstep with
    | test => exact ⟨_, _, Step.test.steps, .ran h.condition, .choose h hk⟩
  | again h hk =>
    cases hstep with
    | again => exact ⟨_, _, Step.again.steps, .ran h.advance, .test h hk⟩
  | choose h hk =>
    obtain ⟨es, t, hs, hes, ht⟩ := h.step_choose hk hstep
    exact ⟨es, t, hs.steps, hes, ht⟩
  | left => cases hstep
  | added hk =>
    cases hstep with
    | simple =>
      refine ⟨_, _, .refl _, ?_, .fall hk⟩
      rw [Located.evaluated]
      split
      · exact .nil
      · exact .added ⟨rfl, rfl⟩ .nil
    | exitCall hleaves =>
      rw [hy] at hleaves
      cases hleaves

/-- Every execution after is one before, without the added statement. -/
theorem States.steps (hy : y.leaves exits = false)
    (hbody : Stays (.simple y) place ⟨[], [], body⟩ ⟨[], [], body'⟩)
    (h : States (.simple y) place s s') (hsteps : Steps exits body' s' es' t') :
    ∃ es t, Steps exits body s es t ∧ Traces y place es es' ∧ States (.simple y) place t t' := by
  induction hsteps generalizing s with
  | refl s' => exact ⟨[], s, .refl s, .nil, h⟩
  | step hstep _ ih =>
    obtain ⟨es, t, hs, hes, ht⟩ := h.step hy hbody hstep
    obtain ⟨fs, u, hs', hfs, hu⟩ := ih ht
    exact ⟨es ++ fs, u, hs.append hs', hes.append hfs, hu⟩

end Insertion

end JniContracts
