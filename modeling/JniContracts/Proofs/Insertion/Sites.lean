import JniContracts.Proofs.Insertion.Runs
import JniContracts.Proofs.ReachedStates
import JniContracts.Proofs.Splitting.Sites

/-!
The elements, the sites and the control-flow graph of a function into which a statement is put.
Every element and every site is still there, and a body that has a graph still has one.
-/

namespace JniContracts

open Flow Insertion

namespace Located

variable {x : Stmt} {place : Address} {l l' : Located}

theorem StayAll.get {n n' i : Nat} {s : Stmt} {ss ss' : List Stmt}
    (h : StayAll x place l l' n ss n' ss') (hs : ss[i]? = some s) :
    ∃ i' s', ss'[i']? = some s' ∧ Stays x place (l.child (n + i) s) (l'.child (n' + i') s') := by
  have hcount : ∀ a b : Nat, a + 1 + b = a + (b + 1) := by omega
  induction h generalizing i with
  | nil n n' => simp at hs
  | cons h _ ih =>
    cases i with
    | zero =>
      cases hs
      exact ⟨0, _, rfl, h⟩
    | succ i =>
      obtain ⟨i', s', hs', hstays⟩ := ih hs
      exact ⟨i' + 1, s', hs', by simpa only [hcount] using hstays⟩
  | added _ _ ih =>
    obtain ⟨i', s', hs', hstays⟩ := ih hs
    exact ⟨i' + 1, s', hs', by simpa only [hcount] using hstays⟩

theorem Stays.of_part (h : Stays x place l l') {n : Nat} {c : Stmt} (hc : l.stmt.Part n c) :
    ∃ n' c', l'.stmt.Part n' c' ∧ Stays x place (l.child n c) (l'.child n' c') := by
  obtain ⟨up, a, s⟩ := l
  obtain ⟨up', a', s'⟩ := l'
  have halike := h.alike
  cases hc with
  | block hs =>
    cases halike with
    | block p hall =>
      obtain ⟨i', c', hs', hstays⟩ := hall.get hs
      simp only [Nat.zero_add] at hstays
      exact ⟨i', c', .block hs', hstays⟩
  | yes =>
    cases halike with
    | ifOnly c p hs => exact ⟨_, _, .yes, hs⟩
    | ifElse c p hs hno => exact ⟨_, _, .yes, hs⟩
  | no =>
    cases halike with
    | ifElse c p hyes hs => exact ⟨_, _, .no, hs⟩
  | whileDo =>
    cases halike with
    | whileDo c p hs => exact ⟨_, _, .whileDo, hs⟩
  | doWhile =>
    cases halike with
    | doWhile c p hs => exact ⟨_, _, .doWhile, hs⟩
  | forDo =>
    cases halike with
    | forDo i c t p hfirst hs => exact ⟨_, _, .forDo, hs⟩
  | switch =>
    cases halike with
    | switch c p hs => exact ⟨_, _, .switch, hs⟩
  | case =>
    cases halike with
    | case v p hs => exact ⟨_, _, .case, hs⟩
  | label =>
    cases halike with
    | label name p hs => exact ⟨_, _, .label, hs⟩

theorem Stays.part_of (h : Stays x place l l') {n' : Nat} {c' : Stmt} (hc : l'.stmt.Part n' c') :
    c' = x ∨ ∃ n c, l.stmt.Part n c ∧ Stays x place (l.child n c) (l'.child n' c') := by
  obtain ⟨j', hpart'⟩ := Execution.Part.of_child hc .stop
  refine (h.part .stop hpart').imp And.left ?_
  rintro ⟨m, j, hpart, hm, -⟩
  obtain ⟨n, hchild, hc⟩ := hpart.child
  exact ⟨n, m.stmt, hc, hchild ▸ hm⟩

theorem Stays.elements (h : Stays x place l l') {e : Element} (he : e ∈ l.elements) :
    ∃ e' ∈ l'.elements, e.Shifted place e' := by
  induction l using part_induction generalizing l' with
  | step l ih =>
    have hown : List.Forall₂ (Element.Shifted place) l.own l'.own := by
      obtain ⟨up, a, s⟩ := l
      obtain ⟨up', a', s'⟩ := l'
      cases h.alike with
      | simple y => exact .cons (h.element .stmt y.exprs) .nil
      | ret v p => exact .cons (h.element .ret v.toList) .nil
      | goto name p => exact .cons (h.element .goto []) .nil
      | _ => exact .nil
    cases mem_elements.mp he with
    | own he =>
      obtain ⟨e', he', hshift⟩ := exists_of_forall₂ hown.flip he
      exact ⟨e', mem_elements.mpr (.own he'), hshift⟩
    | condition he =>
      obtain ⟨e', he', hshift⟩ := exists_of_forall₂ h.condition.flip he
      exact ⟨e', mem_elements.mpr (.condition he'), hshift⟩
    | advance he =>
      obtain ⟨e', he', hshift⟩ := exists_of_forall₂ h.advance.flip he
      exact ⟨e', mem_elements.mpr (.advance he'), hshift⟩
    | @first y hy he =>
      obtain ⟨up, a, s⟩ := l
      obtain ⟨up', a', s'⟩ := l'
      cases h.alike with
      | forDo i c t p hfirst hs =>
        cases he
        exact ⟨_, mem_elements.mpr (.first hy rfl), (hfirst y).element .init y.exprs⟩
      | _ => cases hy
    | part hc he =>
      obtain ⟨n', c', hc', hstays⟩ := h.of_part hc
      obtain ⟨e', he', hshift⟩ := ih _ _ hc hstays he
      exact ⟨e', mem_elements.mpr (.part hc' he'), hshift⟩

/-- A statement inside after only evaluates, or it was inside before. -/
theorem Stays.inside {y : Simple} (h : Stays (.simple y) place l l') {m' : Located}
    (hm : m' ∈ l'.inside) :
    (∃ z, m'.stmt = .simple z) ∨ ∃ m ∈ l.inside, Stays (.simple y) place m m' := by
  induction l' using part_induction generalizing l with
  | step l' ih =>
    rcases mem_inside.mp hm with rfl | ⟨z, -, rfl⟩ | ⟨n', c', hc', hm⟩
    · exact .inr ⟨l, mem_inside.mpr (.inl rfl), h⟩
    · exact .inl ⟨z, rfl⟩
    · rcases h.part_of hc' with rfl | ⟨n, c, hc, hstays⟩
      · exact .inl ⟨y, by rw [List.mem_singleton.mp hm]⟩
      · refine (ih n' c' hc' hstays hm).imp_right ?_
        rintro ⟨m, hm, hmm⟩
        exact ⟨m, mem_inside.mpr (.inr (.inr ⟨n, c, hc, hm⟩)), hmm⟩

theorem Stays.mayStand (h : Stays x place l l') (hl : MayStand l) : MayStand l' := by
  have hloop : (∃ s ∈ l.up, s.isLoop = true) → ∃ s ∈ l'.up, s.isLoop = true := by
    simp only [← List.any_eq_true, h.loops, imp_self]
  have hswitch : (∃ s ∈ l.up, s.isSwitch = true) → ∃ s ∈ l'.up, s.isSwitch = true := by
    simp only [← List.any_eq_true, h.switches, imp_self]
  obtain ⟨up, a, s⟩ := l
  obtain ⟨up', a', s'⟩ := l'
  refine ⟨?_, ?_, ?_⟩
  · rintro p rfl
    cases h.alike with
    | brk p =>
      obtain ⟨t, ht, hl | hs⟩ := hl.brk p rfl
      · obtain ⟨t', ht', hl'⟩ := hloop ⟨t, ht, hl⟩
        exact ⟨t', ht', .inl hl'⟩
      · obtain ⟨t', ht', hs'⟩ := hswitch ⟨t, ht, hs⟩
        exact ⟨t', ht', .inr hs'⟩
  · rintro p rfl
    cases h.alike with
    | cont p => exact hloop (hl.cont p rfl)
  · rintro v b p rfl
    cases h.alike with
    | case v p hs => exact hswitch (hl.case v _ p rfl)

end Located

namespace Stmt

variable {x s s' : Stmt} {place : Address}

/-- What is gathered from the statements of a walk is the same after, if nothing is found in the
added one. -/
theorem Gains.filterMap_walk {β : Type} {u : Stmt → Option β} (hx : x.walk.filterMap u = [])
    (hu : ∀ {place : Address} {s s' : Stmt}, Gains x place s s' → u s' = u s)
    (h : Gains x place s s') : s'.walk.filterMap u = s.walk.filterMap u := by
  have hhead := hu h
  induction h with
  | here pre post p => simp [walk, walkAll, walkAll_append, List.filterMap_cons, hhead, hx]
  | block pre post p h ih =>
    simp [walk, walkAll, walkAll_append, List.filterMap_cons, hhead, ih (hu h)]
  | yes c no p h ih => simp [walk, List.filterMap_cons, hhead, ih (hu h)]
  | no c yes p h ih => simp [walk, walkElse, List.filterMap_cons, hhead, ih (hu h)]
  | forDo i c t p h ih => simp [walk, List.filterMap_cons, hhead, ih (hu h)]
  | whileDo c p h ih | doWhile c p h ih | switch c p h ih | case c p h ih | label c p h ih =>
    simp [walk, List.filterMap_cons, hhead, ih (hu h)]

/-- A body that has a graph has one after a statement is put in that only evaluates. -/
theorem Gains.wellFormed {y : Simple} (h : Gains (.simple y) place s s') (hs : WellFormed s) :
    WellFormed s' := by
  have hlabels : s'.walk.filterMap Stmt.label? = s.walk.filterMap Stmt.label? :=
    h.filterMap_walk rfl fun h => by cases h <;> rfl
  have hgotos : s'.walk.filterMap Stmt.goto? = s.walk.filterMap Stmt.goto? :=
    h.filterMap_walk rfl fun h => by cases h <;> rfl
  refine ⟨hlabels ▸ hs.labels, fun m' hm' => ?_, fun name p hgoto => ?_⟩
  · rcases (Located.Stays.whole h).inside hm' with ⟨z, hz⟩ | ⟨m, hm, hmm⟩
    · exact ⟨by simp [hz], by simp [hz], by simp [hz]⟩
    · exact hmm.mayStand (hs.stands m hm)
  · have hmem : (name, p.line) ∈ s.walk.filterMap Stmt.goto? :=
      hgotos ▸ List.mem_filterMap.mpr ⟨_, hgoto, rfl⟩
    obtain ⟨t, ht, htarget⟩ := List.mem_filterMap.mp hmem
    obtain ⟨name', p', rfl, hname⟩ := goto?_eq_some htarget
    obtain rfl : name = name' := congrArg Prod.fst hname
    rw [hlabels]
    exact hs.gotos name p' ht

theorem Gains.build {y : Simple} {exits : List String} {f : Function} {body : Stmt} {g : Graph}
    (h : Gains (.simple y) place f.body body) (hg : Flow.build exits f = .ok g) :
    ∃ g', Flow.build exits { f with body } = .ok g' := by
  have hflaw : flaw f.body = none := by
    rcases build_outcome exits f with ⟨hflaw, -⟩ | ⟨e, -, he⟩
    · exact hflaw
    · rw [hg] at he
      cases he
  have hflaw' : flaw body = none := flaw_eq_none_iff.mpr (h.wellFormed (flaw_eq_none_iff.mp hflaw))
  rcases build_outcome exits { f with body } with ⟨-, hg'⟩ | ⟨e, he, -⟩
  · exact hg'
  · rw [show flaw ({ f with body } : Function).body = none from hflaw'] at he
    cases he

end Stmt

structure Site.Shifted (place : Address) (s s' : Site) : Prop where
  element : s.element.Shifted place s'.element
  root : s'.root = s.root
  spot : s'.spot = s.spot
  bindings : s'.bindings = s.bindings

namespace Query

variable {q : Query} {place : Address}

theorem Local.sitesOf_shifted (h : q.Local) {el el' : Element} (hel : el.Shifted place el')
    (root : Nat) (spot : Spot) :
    Paired (Site.Shifted place) (q.sitesOf el root spot) (q.sitesOf el' root spot) := by
  by_cases hcast : ∃ t x p, spot.expr = .cast t x p
  · obtain ⟨t, x, p, hx⟩ := hcast
    rw [Query.sitesOf, Query.sitesOf, hx]
    exact .ok .nil
  · have hne : ∀ t x p, spot.expr ≠ .cast t x p := fun t x p hx => hcast ⟨t, x, p, hx⟩
    rw [sitesOf_eq el root hne, sitesOf_eq el' root hne, h.accepts el el']
    cases (q.pattern.instancesAt spot.expr .empty).filterM (q.accepts el' spot.expr) with
    | error e => exact .error e
    | ok accepted =>
      exact .ok (List.forall₂_map_left_iff.mpr (List.forall₂_map_right_iff.mpr
        (List.forall₂_same.mpr fun b _ => ⟨hel, rfl, rfl, rfl⟩)))

theorem Local.sitesIn_shifted (h : q.Local) {el el' : Element} (hel : el.Shifted place el') :
    Paired (Site.Shifted place) (q.sitesIn el) (q.sitesIn el') := by
  have hgather :
      ∀ el, q.sitesIn el =
      gather (fun e : Expr × Nat => gather (q.sitesOf el e.2) e.1.spots) el.exprs.zipIdx :=
    fun _ => rfl
  rw [hgather, hgather, hel.exprs]
  refine .gather (S := Eq) (List.forall₂_same.mpr fun _ _ => rfl) ?_
  rintro e _ rfl
  refine .gather (S := Eq) (List.forall₂_same.mpr fun _ _ => rfl) ?_
  rintro spot _ rfl
  exact h.sitesOf_shifted hel e.2 spot

theorem Local.sites_shifted (h : q.Local) {x : Stmt} {f f' : Function}
    (hgains : Stmt.Gains x place f.body f'.body) {sites sites' : List Site}
    (hsites : q.sites f = .ok sites) (hsites' : q.sites f' = .ok sites') {s : Site}
    (hs : s ∈ sites) : ∃ s' ∈ sites', s.Shifted place s' := by
  obtain ⟨el, hel, part, hpart, hs⟩ := exists_of_gather hsites hs
  obtain ⟨el', hel', hshift⟩ := (Located.Stays.whole hgains).elements hel
  obtain ⟨part', hpart', hsubset⟩ := subset_of_gather hsites' hel'
  have hpaired := h.sitesIn_shifted hshift
  rw [hpart, hpart'] at hpaired
  cases hpaired with
  | ok hforall =>
    obtain ⟨s', hs', hshifted⟩ := exists_of_forall₂ hforall.flip hs
    exact ⟨s', hsubset hs', hshifted⟩

end Query

end JniContracts
