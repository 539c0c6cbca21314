import JniContracts.Proofs.Elements
import JniContracts.Proofs.Spelling.Graphs
import JniContracts.Rule.Evaluate
import Mathlib.Data.List.Nodup

/-!
The sites of a rule in a function and in its uniform form. The patterns are calls and assignments,
so that no site is in what spells a call; the sites of the uniform form are those of the function
one by one.
-/

namespace JniContracts

namespace Expr

def isAction : Expr → Bool
  | call .. | assign .. => true
  | _ => false

theorem instances_bare {p n : Expr} (hp : p.isAction = true) (hn : n.isBare = true) (b : Bindings) :
    p.instances n b = [] := by
  cases p with
  | call f args via q =>
    have hcall : n.strip.call? = none := by
      rw [isBare] at hn
      cases hs : n.strip with
      | call => simp [hs] at hn
      | _ => rfl
    rw [instances]
    simp only [hcall]
  | assign op t v q =>
    rw [isBare] at hn
    rw [instances]
    cases hs : n.strip with
    | assign => simp [hs] at hn
    | _ => rfl
  | _ => cases hp

end Expr

/-- A call or an assignment, all calls of which are interface calls or calls of a plain name. -/
def Pattern.Portable (p : Pattern) : Prop := p.expr.Portable ∧ p.expr.isAction = true

instance (p : Pattern) : Decidable p.Portable := inferInstanceAs (Decidable (_ ∧ _))

namespace Patterns

variable {ps : Patterns}

def Portable (ps : Patterns) : Prop := ∀ p ∈ ps, Pattern.Portable p

instance (ps : Patterns) : Decidable ps.Portable := inferInstanceAs (Decidable (∀ p ∈ ps, _))

theorem Portable.single (h : ps.Portable) {p : Pattern} (hp : p ∈ ps) : Patterns.Portable [p] :=
  fun _ hq => List.mem_singleton.mp hq ▸ h p hp

theorem instancesAt_uniform (h : ∀ p ∈ ps, p.expr.Portable) (n : Expr) (b : Bindings) :
    ps.instancesAt n.uniform b = ps.instancesAt n b := by
  have hps :
      (ps.flatMap fun p => p.expr.instances n.uniform b) =
      ps.flatMap fun p => p.expr.instances n b :=
    List.flatMap_congr fun p hp => Expr.instances_uniform p.expr (h p hp) n b
  rw [Patterns.instancesAt, Patterns.instancesAt, hps]

theorem Portable.instancesAt (h : ps.Portable) (n : Expr) (b : Bindings) :
    ps.instancesAt n.uniform b = ps.instancesAt n b :=
  instancesAt_uniform (fun p hp => (h p hp).1) n b

theorem Portable.instancesAt_bare (h : ps.Portable) {n : Expr} (hn : n.isBare = true)
    (b : Bindings) : ps.instancesAt n b = [] := by
  have hps : (ps.flatMap fun p => p.expr.instances n b) = [] :=
    List.flatMap_eq_nil_iff.mpr fun p hp => Expr.instances_bare (h p hp).2 hn b
  rw [Patterns.instancesAt, hps, List.eraseDups_nil]

theorem Portable.inExprs (h : ps.Portable) (e : Expr) (b : Bindings) :
    (ps.inExprs [e.uniform] b).isEmpty = (ps.inExprs [e] b).isEmpty := by
  have hwalk :
      ∀ e : Expr, (ps.inExprs [e] b).isEmpty =
      !e.walk.any fun x => !(ps.instancesAt x b).isEmpty := by
    intro e
    rw [Patterns.inExprs, isEmpty_eraseDups, List.flatMap_singleton, Bool.eq_iff_iff,
      List.isEmpty_iff, List.flatMap_eq_nil_iff]
    simp
  rw [hwalk, hwalk]
  refine congrArg (!·) (Expr.any_walk_uniform (Q := fun _ => false) (fun x => by rw [h.instancesAt])
    (fun x hx => ?_) e)
  rw [h.instancesAt_bare hx]
  cases x.name? <;> rfl

end Patterns

structure Site.Follows (body : Stmt) (s s' : Site) : Prop where
  mem : s.element ∈ body.elements
  element : s'.element = s.element.uniform
  root : s'.root = s.root
  moved : ∃ e, s.element.exprs[s.root]? = some e ∧ e.Moved s.spot.address s'.spot.address
  expr : s'.spot.expr = s.spot.expr.uniform
  assignedTo : s'.spot.assignedTo = s.spot.assignedTo
  bindings : s'.bindings = s.bindings

namespace Query

variable {q : Query}

structure Plain (q : Query) : Prop where
  portable : q.pattern.Portable
  exclude : q.exclude = []
  inside : q.inside = []
  notInside : q.notInside = []

theorem Plain.accepts (h : q.Plain) (el : Element) (e : Expr) (b : Bindings) :
    q.accepts el.uniform e.uniform b = q.accepts el e b := by
  rw [Query.accepts, Query.accepts, h.exclude, h.inside, h.notInside]
  rfl

theorem Plain.sitesOf_bare (h : q.Plain) (el : Element) (root : Nat) {spot : Spot}
    (hs : spot.expr.isBare = true) : q.sitesOf el root spot = .ok [] := by
  rw [sitesOf]
  split
  · rfl
  · rw [h.portable.instancesAt_bare hs]
    rfl

theorem sitesOf_eq (el : Element) (root : Nat) {spot : Spot}
    (hs : ∀ t x p, spot.expr ≠ .cast t x p) :
    q.sitesOf el root spot =
    ((q.pattern.instancesAt spot.expr .empty).filterM (q.accepts el spot.expr)).map
      (List.map fun b => ⟨el, root, spot, b⟩) := by
  rw [sitesOf]
  split
  · rename_i t x p hx
    exact absurd hx (hs t x p)
  · cases (q.pattern.instancesAt spot.expr .empty).filterM (q.accepts el spot.expr) <;> rfl

theorem Plain.sitesOf (h : q.Plain) {body : Stmt} {el : Element} (hel : el ∈ body.elements)
    {root : Nat} {e : Expr} (he : el.exprs[root]? = some e) {spot spot' : Spot}
    (hs : Spot.Goes e [] [] spot spot') :
    Paired (Site.Follows body) (q.sitesOf el root spot) (q.sitesOf el.uniform root spot') := by
  obtain ⟨⟨path, path', hm, ha, ha'⟩, hexpr, hto⟩ := hs
  rw [List.nil_append] at ha ha'
  by_cases hcast : ∃ t x p, spot.expr = .cast t x p
  · obtain ⟨t, x, p, hx⟩ := hcast
    rw [hx, Expr.uniform] at hexpr
    rw [Query.sitesOf, Query.sitesOf, hx, hexpr]
    exact .ok .nil
  · have hne : ∀ t x p, spot.expr ≠ .cast t x p := fun t x p hx => hcast ⟨t, x, p, hx⟩
    have hne' : ∀ t x p, spot'.expr ≠ .cast t x p := by
      intro t x p hx
      rw [hexpr] at hx
      cases hspot : spot.expr with
      | cast t' x' p' => exact hne t' x' p' hspot
      | call f args via p' =>
        obtain ⟨f', args', hcall⟩ := Expr.exists_uniform_call f args via p'
        rw [hspot, hcall] at hx
        cases hx
      | _ =>
        rw [hspot] at hx
        cases hx
    rw [sitesOf_eq el root hne, sitesOf_eq el.uniform root hne', hexpr, h.portable.instancesAt,
      funext (h.accepts el spot.expr)]
    cases (q.pattern.instancesAt spot.expr .empty).filterM (q.accepts el spot.expr) with
    | error e => exact .error e
    | ok accepted =>
      refine .ok (List.forall₂_map_left_iff.mpr
        (List.forall₂_map_right_iff.mpr (List.forall₂_same.mpr fun b _ => ?_)))
      exact ⟨hel, rfl, rfl, ⟨e, he, by rw [ha, ha']; exact hm⟩, hexpr, hto, rfl⟩

theorem Plain.sitesIn (h : q.Plain) {body : Stmt} {el : Element} (hel : el ∈ body.elements) :
    Paired (Site.Follows body) (q.sitesIn el) (q.sitesIn el.uniform) := by
  have hgather : ∀ el, q.sitesIn el =
      gather (fun e : Expr × Nat => gather (q.sitesOf el e.2) e.1.spots) el.exprs.zipIdx :=
      fun _ => rfl
  have hexprs :
      List.Forall₂ (fun e e' : Expr × Nat => el.exprs[e.2]? = some e.1 ∧
        e' = (e.1.uniform, e.2)) el.exprs.zipIdx el.uniform.exprs.zipIdx := by
    rw [Element.uniform, List.zipIdx_map]
    refine List.forall₂_map_right_iff.mpr (List.forall₂_same.mpr fun e he => ⟨?_, rfl⟩)
    exact List.mem_zipIdx_iff_getElem?.mp he
  rw [hgather, hgather]
  refine .gather hexprs ?_
  rintro ⟨e, root⟩ _ ⟨he, rfl⟩
  -- The spellings have different numbers of bare places, and no site is at one of them.
  rw [← gather_filter (p := (!·.expr.isBare)) fun s _ hs => h.sitesOf_bare el root
    (by simpa using hs), ← gather_filter (p := (!·.expr.isBare))
    fun s _ hs => h.sitesOf_bare el.uniform root (by simpa using hs)]
  exact .gather (e.spots_go none [] []) fun s s' hs => h.sitesOf hel he hs

/-- The sites of the uniform form are those of the function. -/
theorem Plain.sites (h : q.Plain) (f : Function) :
    Paired (Site.Follows f.body) (q.sites f) (q.sites f.uniform) := by
  have hgather : ∀ f : Function, q.sites f = gather q.sitesIn f.body.elements := fun _ => rfl
  have helements : List.Forall₂ (fun el el' : Element => el ∈ f.body.elements ∧ el' = el.uniform)
      f.body.elements f.uniform.body.elements := by
    rw [Function.uniform, Stmt.elements_uniform]
    exact List.forall₂_map_right_iff.mpr (List.forall₂_same.mpr fun el hel => ⟨hel, rfl⟩)
  rw [hgather, hgather]
  refine .gather helements ?_
  rintro el _ ⟨hel, rfl⟩
  exact h.sitesIn hel

end Query

namespace Site

variable {body : Stmt} {s s' t t' : Site}

/-- Two sites are at one place just if they are in the uniform form. -/
theorem Follows.place_iff (hs : Follows body s s') (ht : Follows body t t') :
    s.place = t.place ↔ s'.place = t'.place := by
  obtain ⟨e, he, hm⟩ := hs.moved
  obtain ⟨e', he', hm'⟩ := ht.moved
  simp only [place, hs.element, ht.element, Element.key_uniform, hs.root, ht.root, Prod.mk.injEq]
  refine and_congr_right fun hk => and_congr_right fun hroot => ?_
  have hel : s.element = t.element :=
    List.inj_on_of_nodup_map (Stmt.keyed_elementsIn [] [] body).nodup hs.mem ht.mem hk
  rw [hel, hroot, he'] at he
  cases he
  exact hm.inj hm'

theorem rel_oncePerPlace {R : Site → Site → Prop}
    (hR : ∀ {s s' t t'}, R s s' → R t t' → (s.place = t.place ↔ s'.place = t'.place))
    {l l' : List Site} (h : List.Forall₂ R l l') :
    List.Forall₂ R (Scene.oncePerPlace l) (Scene.oncePerPlace l') := by
  induction h with
  | nil => exact .nil
  | cons hs _ ih =>
    refine .cons hs (List.rel_filter (fun t t' ht => ?_) ih)
    simp only [bne_iff_ne, ne_eq, hR ht hs]

theorem forall₂_oncePerPlace {l l' : List Site} (h : List.Forall₂ (Follows body) l l') :
    List.Forall₂ (Follows body) (Scene.oncePerPlace l) (Scene.oncePerPlace l') :=
  rel_oncePerPlace (fun hs ht => hs.place_iff ht) h

theorem Follows.enclosingCalls (h : Follows body s s') :
    s'.enclosingCalls = s.enclosingCalls.map Call.uniform := by
  obtain ⟨e, he, hm⟩ := h.moved
  have he' : s'.element.exprs[s'.root]? = some e.uniform := by
    rw [h.element, h.root, Element.exprs_uniform, List.getElem?_map, he, Option.map_some]
  simp only [Site.enclosingCalls, he, he']
  exact hm.callsAround

theorem Follows.line (h : Follows body s s') : s'.line = s.line := by
  rw [Site.line, Site.line, Site.expr, Site.expr, h.expr, Expr.line_uniform, h.element]
  exact congrArg (fun n => if s.spot.expr.line == 0 then n else s.spot.expr.line)
    s.element.stmt.line_uniform

theorem Follows.loopsAround (h : Follows body s s') :
    s'.loopsAround = s.loopsAround.map Stmt.uniform := by
  have hloops : (s.element.ancestors.map Stmt.uniform).filter Stmt.isLoop =
      (s.element.ancestors.filter Stmt.isLoop).map Stmt.uniform := by
    rw [List.filter_map]
    exact congrArg (fun p => (s.element.ancestors.filter p).map Stmt.uniform)
      (funext Stmt.isLoop_uniform)
  simp only [Site.loopsAround, h.element, Element.ancestors_uniform, Element.stmt_uniform,
    Element.role_uniform, hloops, List.getLast?_map, Stmt.isLoop_uniform]
  cases s.element.role with
  | init =>
    cases s.element.ancestors.getLast? with
    | none => rfl
    | some last =>
      simp only [Option.map_some, Stmt.isLoop_uniform]
      split
      · rw [List.map_dropLast]
      · rfl
  | cond | step =>
    simp only
    split
    · rw [List.map_append]; rfl
    · rfl
  | _ => rfl

end Site

end JniContracts
