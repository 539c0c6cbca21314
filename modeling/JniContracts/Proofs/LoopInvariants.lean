import JniContracts.Proofs.EnclosingLoops
import JniContracts.Proofs.Placement
import JniContracts.Proofs.Release
import JniContracts.Proofs.Spelling.Statements
import JniContracts.Rule.Evaluate

/-!
Calls in a loop that could stand in front of it. A call is reported if it is run again by a loop,
its arguments hold no call, and the innermost of these loops changes no variable in them. A variable
is changed by its declaration and by what an expression does to an object that is reached from it.
The header of a range loop is kept as text, so the variable that it declares does not count.
-/

namespace JniContracts

namespace Expr

inductive Has : Expr → Expr → Prop where
  | self {e : Expr} : Has e e
  | child {e c x : Expr} (hc : c ∈ e.children) (hx : Has c x) : Has e x

theorem mem_walk (e : Expr) : ∀ x, x ∈ e.walk ↔ e.Has x := by
  induction e using child_induction with
  | step e ih =>
    intro x
    rw [walk_eq, List.mem_cons, List.mem_flatMap]
    constructor
    · rintro (rfl | ⟨c, hc, hx⟩)
      · exact .self
      · exact .child hc ((ih c hc x).mp hx)
    · intro h
      cases h with
      | self => exact .inl rfl
      | child hc hx => exact .inr ⟨_, hc, (ih _ hc x).mpr hx⟩

inductive RootedIn (x : String) : Expr → Prop where
  | name {p} : RootedIn x (name x p)
  | cast {t e p} (h : RootedIn x e) : RootedIn x (cast t e p)
  | member {e attr arrow p} (h : RootedIn x e) : RootedIn x (member e attr arrow p)
  | index {e i p} (h : RootedIn x e) : RootedIn x (index e i p)
  | deref {e side p} (h : RootedIn x e) : RootedIn x (unary .deref e side p)

theorem rootName?_eq_some {e : Expr} {x : String} : e.rootName? = some x ↔ e.RootedIn x := by
  constructor
  · intro h
    fun_induction rootName? e with
    | case1 n p =>
      cases h
      exact .name
    | case2 t e p ih => exact .cast (ih h)
    | case3 e attr arrow p ih => exact .member (ih h)
    | case4 e i p ih => exact .index (ih h)
    | case5 e side p ih => exact .deref (ih h)
    | case6 => cases h
  · intro h
    induction h with
    | name => rfl
    | cast _ ih | member _ ih | index _ ih | deref _ ih => exact ih

/-- An expression changes the value of a variable, or of an object that is reached from it, or takes
its address. -/
inductive Changes (x : String) : Expr → Prop where
  | assign {op target value p} (h : target.RootedIn x) : Changes x (assign op target value p)
  | incr {e side p} (h : e.RootedIn x) : Changes x (unary .incr e side p)
  | decr {e side p} (h : e.RootedIn x) : Changes x (unary .decr e side p)
  | address {e side p} (h : e.RootedIn x) : Changes x (unary .addr e side p)

theorem changed?_eq_some {e : Expr} {x : String} : e.changed? = some x ↔ e.Changes x := by
  constructor
  · intro h
    cases e with
    | assign => exact .assign (rootName?_eq_some.mp h)
    | unary op e side p =>
      cases op with
      | incr => exact .incr (rootName?_eq_some.mp h)
      | decr => exact .decr (rootName?_eq_some.mp h)
      | addr => exact .address (rootName?_eq_some.mp h)
      | _ => cases h
    | _ => cases h
  · intro h
    cases h with
    | assign h | incr h | decr h | address h => exact rootName?_eq_some.mpr h

theorem name?_eq_some {e : Expr} {x : String} : e.name? = some x ↔ ∃ p, e = name x p := by
  cases e <;> simp [name?]

end Expr

namespace Stmt

inductive Has : Stmt → Stmt → Prop where
  | self {s : Stmt} : Has s s
  | first {s : Stmt} {x : Simple} (hx : s.first? = some x) : Has s (simple x)
  | part {s c t : Stmt} {n : Nat} (hc : s.Part n c) (ht : Has c t) : Has s t

def clauses (s : Stmt) : List Expr :=
  s.control?.toList ++ match s with
    | simple x => x.exprs
    | ret v _ => v.toList
    | forDo _ _ t _ _ => t.toList
    | _ => []

inductive Changes (s : Stmt) (x : String) : Prop where
  | declares {t : String} {ds : List Declarator} {p : Pos} (hs : s.Has (simple (.decl t ds p)))
      {d : Declarator} (hd : d ∈ ds) (hx : d.name = x)
  | evaluates {t : Stmt} (ht : s.Has t) {e : Expr} (he : e ∈ t.clauses) {part : Expr}
      (hp : e.Has part) (hx : part.Changes x)

end Stmt

namespace Located

theorem has_iff (l : Located) : ∀ t, l.stmt.Has t ↔ ∃ m ∈ l.inside, m.stmt = t := by
  induction l using part_induction with
  | step l ih =>
    intro t
    constructor
    · intro h
      cases h with
      | self => exact ⟨l, mem_inside.mpr (.inl rfl), rfl⟩
      | first hx => exact ⟨_, mem_inside.mpr (.inr (.inl ⟨_, hx, rfl⟩)), rfl⟩
      | part hc ht =>
        obtain ⟨m, hm, rfl⟩ := (ih _ _ hc t).mp ht
        exact ⟨m, mem_inside.mpr (.inr (.inr ⟨_, _, hc, hm⟩)), rfl⟩
    · rintro ⟨m, hm, rfl⟩
      rcases mem_inside.mp hm with rfl | ⟨x, hx, rfl⟩ | ⟨n, c, hc, hm⟩
      · exact .self
      · exact .first hx
      · exact .part hc ((ih n c hc m.stmt).mpr ⟨m, hm, rfl⟩)

theorem mem_clauses {l : Located} {x : Expr} :
    x ∈ l.stmt.clauses ↔ ∃ e, (e ∈ l.own ∨ e ∈ l.condition ∨ e ∈ l.advance) ∧ x ∈ e.exprs := by
  obtain ⟨up, addr, s⟩ := l
  cases s with
  | forDo i c t b p =>
    cases c <;> cases t <;> simp [Stmt.clauses, own, condition, advance, element, Stmt.control?]
  | _ => simp [Stmt.clauses, own, condition, advance, element, Stmt.control?]

theorem mem_evaluated (l : Located) (x : Expr) :
    (∃ e ∈ l.elements, x ∈ e.exprs) ↔ ∃ t, l.stmt.Has t ∧ x ∈ t.clauses := by
  induction l using part_induction with
  | step l ih =>
    constructor
    · rintro ⟨e, he, hx⟩
      cases mem_elements.mp he with
      | own ho => exact ⟨_, .self, mem_clauses.mpr ⟨e, .inl ho, hx⟩⟩
      | condition ho => exact ⟨_, .self, mem_clauses.mpr ⟨e, .inr (.inl ho), hx⟩⟩
      | advance ho => exact ⟨_, .self, mem_clauses.mpr ⟨e, .inr (.inr ho), hx⟩⟩
      | first hy ho =>
        subst ho
        exact ⟨_, .first hy, hx⟩
      | part hc ho =>
        obtain ⟨t, ht, hx⟩ := (ih _ _ hc).mp ⟨e, ho, hx⟩
        exact ⟨t, .part hc ht, hx⟩
    · rintro ⟨t, ht, hx⟩
      cases ht with
      | self =>
        obtain ⟨e, ho, hx⟩ := mem_clauses.mp hx
        exact ⟨e, mem_elements.mpr (ho.elim .own fun ho => ho.elim .condition .advance), hx⟩
      | first hy => exact ⟨_, mem_elements.mpr (.first hy rfl), hx⟩
      | part hc ht =>
        obtain ⟨e, he, hx⟩ := (ih _ _ hc).mpr ⟨t, ht, hx⟩
        exact ⟨e, mem_elements.mpr (.part hc he), hx⟩

end Located

namespace Stmt

theorem mem_walk {s t : Stmt} : t ∈ s.walk ↔ s.Has t := by
  rw [← map_stmt_walkIn [] [], List.mem_map]
  exact (Located.has_iff ⟨[], [], s⟩ t).symm

theorem mem_declared {s : Stmt} {x : String} :
    x ∈ s.declared ↔ ∃ t ds p, s = simple (.decl t ds p) ∧ ∃ d ∈ ds, d.name = x := by
  constructor
  · intro h
    cases s with
    | simple y =>
      cases y with
      | decl t ds p => exact ⟨t, ds, p, rfl, List.mem_map.mp h⟩
      | expr e p => exact absurd h List.not_mem_nil
    | _ => exact absurd h List.not_mem_nil
  · rintro ⟨t, ds, p, rfl, hx⟩
    exact List.mem_map.mpr hx

theorem mem_modified {s : Stmt} {x : String} : x ∈ s.modified ↔ s.Changes x := by
  rw [modified_eq, List.mem_eraseDups, List.mem_append, List.mem_flatMap, List.mem_flatMap]
  constructor
  · rintro (⟨e, he, hx⟩ | ⟨t, ht, hx⟩)
    · obtain ⟨t, ht, he⟩ := (Located.mem_evaluated ⟨[], [], s⟩ e).mp (List.mem_flatMap.mp he)
      obtain ⟨part, hpart, hx⟩ := List.mem_filterMap.mp hx
      exact .evaluates ht he ((e.mem_walk part).mp hpart) (Expr.changed?_eq_some.mp hx)
    · obtain ⟨type, ds, p, rfl, d, hd, hx⟩ := mem_declared.mp hx
      exact .declares (mem_walk.mp ht) hd hx
  · intro h
    cases h with
    | declares hs hd hx =>
      exact .inr ⟨_, mem_walk.mpr hs, mem_declared.mpr ⟨_, _, _, rfl, _, hd, hx⟩⟩
    | evaluates ht he hp hx =>
      refine .inl ⟨_,
        List.mem_flatMap.mpr ((Located.mem_evaluated ⟨[], [], s⟩ _).mpr ⟨_, ht, he⟩), ?_⟩
      exact List.mem_filterMap.mpr ⟨_, (Expr.mem_walk _ _).mpr hp, Expr.changed?_eq_some.mpr hx⟩

end Stmt

namespace Scene

variable {scene : Scene} {site : Site}

theorem riskyLoop?_eq_some {c : Call} {loop : Stmt} : scene.riskyLoop? site = some (c, loop) ↔
    site.expr.call? = some c ∧ c.callee?.any scene.settings.isExceptionSafe = false ∧
      site.element.loops.getLast? = some loop := by
  rw [riskyLoop?, Site.loopsAround_eq]
  cases site.expr.call? with
  | none => simp
  | some d =>
    cases site.element.loops.getLast? with
    | none => simp
    | some last =>
      by_cases hd : d.callee?.any scene.settings.isExceptionSafe
      · simp only [hd, if_true, reduceCtorEq, Option.some.injEq, false_iff]
        rintro ⟨rfl, hc, -⟩
        rw [hd] at hc
        cases hc
      · simp only [hd, Bool.false_eq_true, if_false, Option.some.injEq, Prod.mk.injEq]
        constructor
        · rintro ⟨rfl, rfl⟩
          exact ⟨rfl, Bool.not_eq_true _ ▸ hd, rfl⟩
        · rintro ⟨hc, -, hl⟩
          exact ⟨hc, hl⟩

theorem breaksLoopInvariant_eq_true : scene.breaksLoopInvariant site = true ↔
    ∃ c loop, scene.riskyLoop? site = some (c, loop) ∧ ∀ a ∈ c.ownArgs, ∀ part ∈ a.walk,
      part.call? = none ∧ ∀ x, part.name? = some x → x ∉ loop.modified := by
  rw [breaksLoopInvariant]
  cases scene.riskyLoop? site with
  | none => simp
  | some risky =>
    simp only [Bool.and_eq_true, List.all_eq_true, List.mem_flatMap, Option.isNone_iff_eq_none,
      Bool.not_eq_true', List.any_eq_false, List.mem_filterMap, List.contains_iff_mem,
      Option.some.injEq]
    grind

/-- A call that may raise an exception is run again by a loop, with arguments that the loop does not
change. -/
structure Repeats (scene : Scene) (site : Site) (c : Call) (l : Located) : Prop where
  call : site.expr.call? = some c
  risky : c.callee?.any scene.settings.isExceptionSafe = false
  innermost : Innermost scene.function.body site.element l
  noCall : ∀ a ∈ c.ownArgs, ∀ part, a.Has part → part.call? = none
  unchanged : ∀ a ∈ c.ownArgs, ∀ x p, a.Has (.name x p) → ¬ l.stmt.Changes x

theorem breaksLoopInvariant_iff (he : site.element ∈ scene.function.body.elements) :
    scene.breaksLoopInvariant site = true ↔ ∃ c l, scene.Repeats site c l := by
  rw [breaksLoopInvariant_eq_true]
  simp only [riskyLoop?_eq_some, getLast?_loops he, Expr.mem_walk, Expr.name?_eq_some,
    Stmt.mem_modified]
  constructor
  · rintro ⟨c, loop, ⟨hcall, hrisky, l, hl, rfl⟩, hargs⟩
    exact ⟨c, l, hcall, hrisky, hl, fun a ha part hp => (hargs a ha part hp).1,
      fun a ha x p hp => (hargs a ha _ hp).2 x ⟨p, rfl⟩⟩
  · rintro ⟨c, l, h⟩
    refine ⟨c, l.stmt, ⟨h.call, h.risky, l, h.innermost, rfl⟩,
      fun a ha part hp => ⟨h.noCall a ha part hp, ?_⟩⟩
    rintro x ⟨p, rfl⟩
    exact h.unchanged a ha x p hp

/-- At a call in the code of a function, the rule is broken just if the call is repeated with
arguments that hold no call and no variable that the innermost loop around it changes. -/
theorem loop_invariant_iff_repeats (scene : Scene) {q : Query} {sites : List Site}
    (hsites : q.sites scene.function = .ok sites) {site : Site} (hsite : site ∈ sites) :
    (∃ e ∈ site.element.exprs, e.Has site.expr) ∧
      (scene.breaksLoopInvariant site = true ↔ ∃ c l, scene.Repeats site c l) := by
  obtain ⟨hbody, e, he, hspot⟩ := Query.mem_spots_of_sites hsites hsite
  exact ⟨⟨e, he, (e.mem_walk _).mp (Expr.expr_mem_walk hspot)⟩, breaksLoopInvariant_iff hbody⟩

/-- `while (n) for (c = env->GetObjectClass(o); n; n--);`. Only the outer loop runs the call
again. -/
def fetching : Function where
  name := "fetching"
  params := []
  locals := []
  pos := ⟨1, 1⟩
  body := .block [.whileDo (.name "n" ⟨2, 8⟩) (.forDo
    (some (.expr (.assign .set (.name "c" ⟨2, 16⟩) (.call (.member (.name "env" ⟨2, 20⟩)
    "GetObjectClass" true ⟨2, 23⟩) [.name "o" ⟨2, 40⟩] true ⟨2, 39⟩) ⟨2, 18⟩) ⟨2, 16⟩))
    (some (.name "n" ⟨2, 44⟩)) (some (.unary .decr (.name "n" ⟨2, 47⟩) .behind ⟨2, 48⟩))
      (.empty ⟨2, 51⟩) ⟨2, 11⟩)
    ⟨2, 1⟩] ⟨1, 9⟩

def interfaceCalls : Query :=
  ⟨[⟨"$ENV->$FUNC(...)",
    .call (.member (.name "$ENV" ⟨1, 1⟩) "$FUNC" true ⟨1, 5⟩) [.ellipsis ⟨1, 13⟩] true ⟨1, 12⟩⟩],
    [], [], [], []⟩

theorem loop_invariant_iff_repeats_fetching :
    ∃ scene sites site, Scene.make "loops.c" .standard fetching = .ok scene ∧
    interfaceCalls.sites fetching = .ok sites ∧ site ∈ sites ∧
    (∃ e ∈ site.element.exprs, e.Has site.expr) ∧ ∃ c l, scene.Repeats site c l := by
  obtain ⟨scene, hscene, hrun⟩ :=
    exists_of_any (x := Scene.make "loops.c" .standard fetching) (p := fun scene =>
    (interfaceCalls.sites fetching).toOption.any fun sites => sites.any scene.breaksLoopInvariant)
    (by decide +kernel)
  obtain ⟨sites, hsites, hfound⟩ := exists_of_any hrun
  obtain ⟨site, hsite, hbreaks⟩ := List.any_eq_true.mp hfound
  obtain ⟨guard, rfl⟩ := make_ok hscene
  obtain ⟨hexpr, hiff⟩ := loop_invariant_iff_repeats ⟨_, fetching, _, guard, _⟩ hsites hsite
  exact ⟨_, sites, site, hscene, hsites, hsite, hexpr, hiff.mp hbreaks⟩

/-- The loop is a range loop over values of a variable: its header, kept as text, has the variable
in front of the colon. -/
inductive RangesOver (x : String) : Stmt → Prop where
  | header (type range : String) {b : Stmt} {p p' : Pos} (hx : isIdentifier x = true)
      (hrange : range.toList.head? ≠ some ':') :
      RangesOver x (.forDo none (some (.verbatim (type ++ " " ++ x ++ ":" ++ range) p)) none b p')

def perItem : Function where
  name := "perItem"
  params := []
  locals := []
  pos := ⟨1, 1⟩
  body := .block [.forDo none (some (.verbatim "jobject o:xs" ⟨2, 1⟩)) none
    (.simple (.expr (.call (.member (.name "env" ⟨2, 23⟩) "GetObjectClass" true ⟨2, 26⟩)
    [.name "o" ⟨2, 43⟩] true ⟨2, 42⟩) ⟨2, 23⟩)) ⟨2, 1⟩] ⟨1, 9⟩

theorem rangesOver_perItem {l : Located} (hl : l ∈ perItem.body.located)
    (hloop : l.stmt.isLoop = true) : RangesOver "o" l.stmt := by
  rcases List.mem_cons.mp hl with rfl | hl
  · cases hloop
  · rcases List.mem_cons.mp hl with rfl | hl
    · exact .header "jobject" "xs" (by decide +kernel) (by decide +kernel)
    · rw [List.mem_singleton.mp hl] at hloop
      cases hloop

/-- A call with the variable of a range loop is reported as if the loop did not change it. -/
theorem loop_invariant_with_range_variable :
    ∃ scene sites site c l, Scene.make "loops.c" .standard perItem = .ok scene ∧
    interfaceCalls.sites perItem = .ok sites ∧ site ∈ sites ∧
    scene.breaksLoopInvariant site = true ∧ site.expr.call? = some c ∧
    Innermost perItem.body site.element l ∧ RangesOver "o" l.stmt ∧
    ∃ a ∈ c.ownArgs, ∃ p, a.Has (.name "o" p) := by
  obtain ⟨scene, hscene, hrun⟩ :=
    exists_of_any (x := Scene.make "loops.c" .standard perItem) (p := fun scene =>
    (interfaceCalls.sites perItem).toOption.any fun sites => sites.any
    fun site => scene.breaksLoopInvariant site && site.expr.call?.all fun c => c.ownArgs.any
    fun a => a.name? == some "o") (by decide +kernel)
  obtain ⟨sites, hsites, hfound⟩ := exists_of_any hrun
  obtain ⟨site, hsite, hfound⟩ := List.any_eq_true.mp hfound
  obtain ⟨hbreaks, hargs⟩ := Bool.and_eq_true_iff.mp hfound
  obtain ⟨guard, rfl⟩ := make_ok hscene
  obtain ⟨hbody, -⟩ := Query.mem_spots_of_sites hsites hsite
  obtain ⟨c, l, h⟩ := (breaksLoopInvariant_iff hbody).mp hbreaks
  rw [h.call, Option.all_some, List.any_eq_true] at hargs
  obtain ⟨a, ha, hname⟩ := hargs
  obtain ⟨p, rfl⟩ := Expr.name?_eq_some.mp (beq_iff_eq.mp hname)
  exact ⟨_, sites, site, c, l, hscene, hsites, hsite, hbreaks, h.call, h.innermost,
    rangesOver_perItem h.innermost.mem h.innermost.reruns.isLoop, _, ha, p, .self⟩

end Scene

end JniContracts
