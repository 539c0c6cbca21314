import JniContracts.Proofs.Spelling.Sites
import JniContracts.Proofs.Splitting.Rows

/-!
The sites of a rule before and after declarations are split. They are the same one by one: a site in
a split declaration is afterwards in the element of one of its names.
-/

namespace JniContracts

namespace Stmt

variable {chosen : Address → Bool} {body : Stmt} {r r' : Row}

theorem row_eq_of_whole (hr : r ∈ body.rows chosen) (hr' : r' ∈ body.rows chosen)
    (h : r.whole.key = r'.whole.key) : r = r' := by
  have hnodup := (keyed_elementsIn [] [] body).nodup
  rw [show body.elementsIn [] [] = _ from (body.covers_rows chosen).wholes.symm,
    List.map_map] at hnodup
  exact List.inj_on_of_nodup_map hnodup hr hr' h

theorem nodup_keys_parts : (((body.rows chosen).flatMap Row.parts).map Element.key).Nodup := by
  rw [(body.covers_rows chosen).parts]
  exact (keyed_elementsIn [] [] (body.split chosen)).nodup

theorem row_eq_of_part (hr : r ∈ body.rows chosen) (hr' : r' ∈ body.rows chosen) {e e' : Element}
    (he : e ∈ r.parts) (he' : e' ∈ r'.parts) (h : e.key = e'.key) : r = r' ∧ e = e' := by
  have hpairs :
      ((body.rows chosen).flatMap fun r => r.parts.map fun e => (r, e)).map (fun x => x.2.key) =
      ((body.rows chosen).flatMap Row.parts).map Element.key := by
    simp only [List.map_flatMap, List.map_map]
    rfl
  have hnodup := hpairs ▸ nodup_keys_parts
  have heq := List.inj_on_of_nodup_map hnodup (List.mem_flatMap.mpr ⟨r, hr, List.mem_map_of_mem he⟩)
    (List.mem_flatMap.mpr ⟨r', hr', List.mem_map_of_mem he'⟩) h
  exact ⟨congrArg Prod.fst heq, congrArg Prod.snd heq⟩

theorem nodup_parts (hr : r ∈ body.rows chosen) : (r.parts.map Element.key).Nodup := by
  have hnodup : (((body.rows chosen).flatMap Row.parts).map Element.key).Nodup := nodup_keys_parts
  refine hnodup.sublist (List.Sublist.map _ ?_)
  rw [List.flatMap_def]
  exact List.sublist_flatten_of_mem (List.mem_map_of_mem hr)

end Stmt

structure Site.Persists (rows : List Row) (s s' : Site) : Prop where
  row : ∃ r ∈ rows, ∃ pre post, s.element = r.whole ∧ r.parts = pre ++ s'.element :: post ∧
    s.root = (pre.flatMap Element.exprs).length + s'.root
  root : s'.root < s'.element.exprs.length
  spot : s'.spot = s.spot
  bindings : s'.bindings = s.bindings

namespace Query

variable {q : Query} {rows : List Row}

/-- A query that does not look at what stands around a site. -/
structure Local (q : Query) : Prop where
  inside : q.inside = []
  notInside : q.notInside = []

theorem Local.accepts (h : q.Local) (el el' : Element) : q.accepts el = q.accepts el' := by
  funext e b
  rw [Query.accepts, Query.accepts, h.inside, h.notInside]
  rfl

theorem Local.sitesOf (h : q.Local) {el el' : Element} {root root' : Nat} {spot : Spot}
    (hsite : ∀ b, Site.Persists rows ⟨el, root, spot, b⟩ ⟨el', root', spot, b⟩) :
    Paired (Site.Persists rows) (q.sitesOf el root spot) (q.sitesOf el' root' spot) := by
  by_cases hcast : ∃ t x p, spot.expr = .cast t x p
  · obtain ⟨t, x, p, hx⟩ := hcast
    rw [Query.sitesOf, Query.sitesOf, hx]
    exact .ok .nil
  · have hne : ∀ t x p, spot.expr ≠ .cast t x p := fun t x p hx => hcast ⟨t, x, p, hx⟩
    rw [sitesOf_eq el root hne, sitesOf_eq el' root' hne, h.accepts el el']
    cases (q.pattern.instancesAt spot.expr .empty).filterM (q.accepts el' spot.expr) with
    | error e => exact .error e
    | ok accepted =>
      exact .ok (List.forall₂_map_left_iff.mpr
        (List.forall₂_map_right_iff.mpr (List.forall₂_same.mpr fun b _ => hsite b)))

theorem Local.sitesIn_part (h : q.Local) {r : Row} (hr : r ∈ rows) {pre post : List Element}
    {el : Element} (hparts : r.parts = pre ++ el :: post) :
    Paired (Site.Persists rows) (gather (fun e : Expr × Nat => gather (q.sitesOf r.whole e.2)
      e.1.spots) (el.exprs.zipIdx (pre.flatMap Element.exprs).length)) (q.sitesIn el) := by
  have hgather :
      q.sitesIn el =
      gather (fun e : Expr × Nat => gather (q.sitesOf el e.2) e.1.spots) el.exprs.zipIdx := rfl
  rw [hgather, List.zipIdx_eq_map_add, gather_map]
  refine .gather (S := fun e e' => e' = e ∧ e.2 < el.exprs.length)
    (List.forall₂_same.mpr fun e he => ⟨rfl, ?_⟩) ?_
  · exact (List.getElem?_eq_some_iff.mp (List.mem_zipIdx_iff_getElem?.mp he)).1
  · rintro ⟨e, root⟩ _ ⟨rfl, hroot⟩
    refine .gather (S := Eq) (List.forall₂_same.mpr fun spot _ => rfl) ?_
    rintro spot _ rfl
    exact h.sitesOf fun b => ⟨⟨r, hr, pre, post, rfl, hparts, rfl⟩, hroot, rfl, rfl⟩

/-- The sites in an element are those in the elements that stand for it. -/
theorem Local.sitesIn (h : q.Local) {r : Row} (hr : r ∈ rows)
    (hexprs : r.whole.exprs = r.parts.flatMap Element.exprs) :
    Paired (Site.Persists rows) (q.sitesIn r.whole) (gather q.sitesIn r.parts) := by
  have hgather : q.sitesIn r.whole =
      gather (fun e : Expr × Nat => gather (q.sitesOf r.whole e.2) e.1.spots)
      r.whole.exprs.zipIdx := rfl
  rw [hgather, hexprs]
  suffices hrest : ∀ pre post, r.parts = pre ++ post → Paired (Site.Persists rows)
      (gather (fun e : Expr × Nat => gather (q.sitesOf r.whole e.2) e.1.spots)
        ((post.flatMap Element.exprs).zipIdx (pre.flatMap Element.exprs).length))
        (gather q.sitesIn post) from
    hrest [] r.parts rfl
  intro pre post hparts
  induction post generalizing pre with
  | nil => exact .ok .nil
  | cons el post ih =>
    have hlater := ih (pre ++ [el]) (by rw [hparts, List.append_assoc]; rfl)
    rw [List.flatMap_append, List.flatMap_singleton, List.length_append] at hlater
    rw [List.flatMap_cons, List.zipIdx_append, gather_append, gather_cons]
    refine (h.sitesIn_part hr hparts).bind fun _ _ hfound => hlater.map
      fun _ _ hrest => List.rel_append hfound hrest

theorem Local.sites (h : q.Local) (chosen : Address → Bool) (f : Function) :
    Paired (Site.Persists (f.body.rows chosen)) (q.sites f) (q.sites (f.split chosen)) := by
  have hgather : ∀ f : Function, q.sites f = gather q.sitesIn f.body.elements := fun _ => rfl
  have hcovers := f.body.covers_rows chosen
  rw [hgather, hgather, Function.split, ← hcovers.wholes, ← hcovers.parts, gather_map,
    gather_flatMap]
  refine .gather (S := fun r r' => r' = r ∧ r ∈ f.body.rows chosen)
    (List.forall₂_same.mpr fun r hr => ⟨rfl, hr⟩) ?_
  rintro _ r ⟨rfl, hr⟩
  exact h.sitesIn hr (hcovers.fits r hr).exprs

end Query

/-- Two ways to take a member out of a list: it is the same one, or one is in front of the other. -/
theorem append_cons_cases {α : Type} {pre pre' post post' : List α} {a a' : α}
    (h : pre ++ a :: post = pre' ++ a' :: post') :
    (pre = pre' ∧ a = a') ∨ (∃ mid, pre' = pre ++ a :: mid ∧ post = mid ++ a' :: post') ∨
    ∃ mid, pre = pre' ++ a' :: mid ∧ post' = mid ++ a :: post := by
  rcases List.append_eq_append_iff.mp h with ⟨mid, hpre, hpost⟩ | ⟨mid, hpre, hpost⟩
  · cases mid with
    | nil =>
      cases hpost
      exact .inl ⟨by rw [hpre, List.append_nil], rfl⟩
    | cons x mid =>
      cases hpost
      exact .inr (.inl ⟨mid, hpre, rfl⟩)
  · cases mid with
    | nil =>
      cases hpost
      exact .inl ⟨by rw [hpre, List.append_nil], rfl⟩
    | cons x mid =>
      cases hpost
      exact .inr (.inr ⟨mid, hpre, rfl⟩)

theorem pre_eq_of_nodup {α : Type} {pre pre' post post' : List α} {a : α}
    (hn : (pre ++ a :: post).Nodup) (h : pre ++ a :: post = pre' ++ a :: post') : pre = pre' := by
  have hnot := (List.nodup_cons.mp (List.nodup_middle.mp hn)).1
  rcases append_cons_cases h with ⟨hpre, -⟩ | ⟨mid, -, rfl⟩ | ⟨mid, rfl, -⟩
  · exact hpre
  · exact absurd (by simp) hnot
  · exact absurd (by simp) hnot

namespace Site

variable {chosen : Address → Bool} {body : Stmt} {s s' t t' : Site}

theorem Persists.row_of_whole (h : s.Persists (body.rows chosen) s') {r : Row}
    (hr : r ∈ body.rows chosen) (hkey : r.whole.key = s.element.key) :
    s.element = r.whole ∧ ∃ pre post, r.parts = pre ++ s'.element :: post ∧
    s.root = (pre.flatMap Element.exprs).length + s'.root := by
  obtain ⟨r', hr', pre, post, hel, hparts, hroot⟩ := h.row
  obtain rfl := Stmt.row_eq_of_whole hr hr' (by rw [hkey, hel])
  exact ⟨hel, pre, post, hparts, hroot⟩

theorem Persists.row_of_part (h : s.Persists (body.rows chosen) s') {r : Row}
    (hr : r ∈ body.rows chosen) {e : Element} (he : e ∈ r.parts) (hkey : e.key = s'.element.key) :
    s.element = r.whole := by
  obtain ⟨r', hr', pre, post, hel, hparts, -⟩ := h.row
  obtain ⟨rfl, -⟩ := Stmt.row_eq_of_part hr hr' he (by simp [hparts]) hkey
  exact hel

theorem Persists.kept (h : s.Persists (body.rows chosen) s') {e e' : Element}
    (hr : ⟨e, [e']⟩ ∈ body.rows chosen) (hkey : e.key = s.element.key) :
    s'.element = e' ∧ s'.root = s.root := by
  obtain ⟨-, pre, post, hparts, hroot⟩ := h.row_of_whole hr hkey
  cases pre with
  | nil => exact ⟨(List.cons.inj hparts).1.symm, by simpa using hroot.symm⟩
  | cons x pre => simp at hparts

theorem Persists.key_iff_of_kept (h : s.Persists (body.rows chosen) s') {e e' : Element}
    (hr : ⟨e, [e']⟩ ∈ body.rows chosen) : e'.key = s'.element.key ↔ e.key = s.element.key := by
  constructor
  · intro hkey
    rw [h.row_of_part hr (List.mem_singleton_self e') hkey]
  · intro hkey
    rw [(h.kept hr hkey).1]

/-- Two sites are at one place before just if they are after. -/
theorem Persists.place_iff (hs : s.Persists (body.rows chosen) s')
    (ht : t.Persists (body.rows chosen) t') : s.place = t.place ↔ s'.place = t'.place := by
  obtain ⟨r, hr, pre, post, hel, hparts, hroot⟩ := hs.row
  obtain ⟨r', hr', pre', post', hel', hparts', hroot'⟩ := ht.row
  simp only [place, hel, hel', hs.spot, ht.spot, hroot, hroot', Prod.mk.injEq]
  have hlt := hs.root
  have hlt' := ht.root
  constructor
  · rintro ⟨hkey, hoffset, haddr⟩
    cases Stmt.row_eq_of_whole hr hr' hkey
    rw [hparts] at hparts'
    rcases append_cons_cases hparts' with ⟨rfl, he⟩ | ⟨mid, rfl, -⟩ | ⟨mid, rfl, -⟩
    · exact ⟨by rw [he], by omega, haddr⟩
    · simp only [List.flatMap_append, List.flatMap_cons, List.length_append] at hoffset
      omega
    · simp only [List.flatMap_append, List.flatMap_cons, List.length_append] at hoffset
      omega
  · rintro ⟨hkey, hoffset, haddr⟩
    obtain ⟨rfl, he⟩ := Stmt.row_eq_of_part hr hr' (by simp [hparts]) (by simp [hparts']) hkey
    have hnodup := (Stmt.nodup_parts hr).of_map
    rw [hparts, he] at hparts' hnodup
    rw [pre_eq_of_nodup hnodup hparts', hoffset]
    exact ⟨rfl, rfl, haddr⟩

theorem Persists.assignedTo {rows : List Row} (h : s.Persists rows s') :
    s'.assignedTo = s.assignedTo := by
  rw [Site.assignedTo, Site.assignedTo, h.spot]

theorem Persists.expr {rows : List Row} (h : s.Persists rows s') : s'.expr = s.expr := by
  rw [Site.expr, Site.expr, h.spot]

theorem Persists.enclosingCalls (h : s.Persists (body.rows chosen) s') :
    s'.enclosingCalls = s.enclosingCalls := by
  obtain ⟨r, hr, pre, post, hel, hparts, hroot⟩ := h.row
  have hexprs := ((body.covers_rows chosen).fits r hr).exprs
  have hget : s.element.exprs[s.root]? = s'.element.exprs[s'.root]? := by
    rw [hel, hexprs, hparts, hroot, List.flatMap_append, List.flatMap_cons,
      List.getElem?_append_right (by omega), Nat.add_sub_cancel_left,
      List.getElem?_append_left h.root]
  rw [Site.enclosingCalls, Site.enclosingCalls, hget, h.spot]

theorem Persists.reflects (h : s.Persists (body.rows chosen) s') :
    s.element.Reflects s'.element := by
  obtain ⟨r, hr, pre, post, hel, hparts, -⟩ := h.row
  rw [hel]
  exact ((body.covers_rows chosen).fits r hr).reflects (by simp [hparts])

theorem Persists.exprs_of_role (h : s.Persists (body.rows chosen) s')
    (hrole : s.element.role ≠ .stmt) : s'.element.exprs = s.element.exprs := by
  obtain ⟨r, hr, pre, post, hel, -⟩ := h.row
  cases (body.covers_rows chosen).fits r hr with
  | kept he => rw [(h.kept hr (by rw [hel])).1, he.exprs, hel]
  | split => exact absurd (by rw [hel]) hrole

theorem Persists.line (h : s.Persists (body.rows chosen) s') : s'.line = s.line := by
  rw [Site.line, Site.line, h.expr, h.reflects.line]

theorem Persists.loopsAround (h : s.Persists (body.rows chosen) s') :
    List.Forall₂ Stmt.Resembles s.loopsAround s'.loopsAround := by
  have hisLoop : ∀ {x x' : Stmt}, x.Resembles x' → x'.isLoop = x.isLoop := by
    rintro x _ ⟨chosen, rfl⟩
    exact x.isLoop_split chosen
  have hel := h.reflects
  have hloops : List.Forall₂ Stmt.Resembles (s.element.ancestors.filter Stmt.isLoop)
      (s'.element.ancestors.filter Stmt.isLoop) :=
    List.rel_filter (fun x x' hx => by simp only [hisLoop hx]) hel.ancestors
  have hown : s.element.role ≠ .stmt → ∀ {l l' : List Stmt}, List.Forall₂ Stmt.Resembles l l' →
      List.Forall₂ Stmt.Resembles (if s.element.stmt.isLoop then l ++ [s.element.stmt] else l)
        (if s'.element.stmt.isLoop then l' ++ [s'.element.stmt] else l') := by
    intro hrole l l' hl
    have hstmt := hel.stmt.resolve_left hrole
    rw [hisLoop hstmt]
    split
    · exact List.rel_append hl (.cons hstmt .nil)
    · exact hl
  simp only [Site.loopsAround, hel.role]
  cases hrole : s.element.role with
  | init =>
    rcases getLast?_of_forall₂ hel.ancestors with ⟨hl, hl'⟩ | ⟨x, x', hl, hl', hx⟩
    · simpa only [hl, hl'] using hloops
    · simp only [hl, hl', hisLoop hx]
      split
      · exact forall₂_dropLast hloops
      · exact hloops
  | cond | step => exact hown (by simp [hrole]) hloops
  | _ => exact hloops

end Site

end JniContracts
