import JniContracts.Pattern.Query
import JniContracts.Proofs.Duty
import JniContracts.Proofs.Gathering
import JniContracts.Proofs.GraphShape

/-!
The control-flow graph of a function has the elements of its body, each in one place. So the element
at which a query has a site is found in the graph just if control can come to it.
-/

namespace JniContracts

variable {e : Element}

namespace Stmt

def isBareDecl : Stmt → Bool
  | simple (.decl _ ds _) => ds.all (·.values.isEmpty)
  | _ => false

theorem isBareDecl_simple (x : Simple) : (simple x).isBareDecl = x.exprs.isEmpty := by
  cases x with
  | expr e p => rfl
  | decl t ds p =>
    rw [isBareDecl, Simple.exprs, Bool.eq_iff_iff, List.all_eq_true, List.isEmpty_iff,
      List.flatMap_eq_nil_iff]
    simp [Declarator.assignments]

end Stmt

namespace Element

def Faithful (e : Element) : Prop := ∀ x, e.stmt = .simple x → e.exprs = x.exprs

theorem Faithful.isPlaced (h : e.Faithful) : e.isPlaced = !e.stmt.isBareDecl := by
  cases hs : e.stmt with
  | simple x => rw [Element.isPlaced, hs, Stmt.isBareDecl_simple, h x hs]
  | _ =>
    rw [Element.isPlaced, hs]
    rfl

theorem isPlaced_of_exprs (h : e.exprs ≠ []) : e.isPlaced = true := by
  unfold isPlaced
  split
  · simpa using h
  · rfl

end Element

namespace Stmt

mutual
theorem faithful_elementsIn (up : List Stmt) (addr : Address) :
    ∀ s : Stmt, ∀ e ∈ s.elementsIn up addr, e.Faithful
  | block ss p => by
    rw [elementsIn]
    exact faithful_elementsOfAll _ _ 0 ss
  | simple x => by simp [elementsIn, Element.Faithful]
  | ifElse c a b p => by
    rw [elementsIn, List.forall_mem_cons, List.forall_mem_append]
    exact ⟨by simp [Element.Faithful], faithful_elementsIn _ _ a, faithful_elementsOfElse _ _ b⟩
  | whileDo c b p => by
    rw [elementsIn, List.forall_mem_cons]
    exact ⟨by simp [Element.Faithful], faithful_elementsIn _ _ b⟩
  | doWhile b c p => by
    rw [elementsIn, List.forall_mem_append]
    exact ⟨faithful_elementsIn _ _ b, by simp [Element.Faithful]⟩
  | forDo i c t b p => by
    rw [elementsIn, List.forall_mem_append, List.forall_mem_append, List.forall_mem_append]
    exact ⟨⟨⟨by simp [Element.Faithful], by simp [Element.Faithful]⟩, faithful_elementsIn _ _ b⟩,
      by simp [Element.Faithful]⟩
  | switch c b p => by
    rw [elementsIn, List.forall_mem_cons]
    exact ⟨by simp [Element.Faithful], faithful_elementsIn _ _ b⟩
  | case v b p => by
    rw [elementsIn]
    exact faithful_elementsIn _ _ b
  | label n b p => by
    rw [elementsIn]
    exact faithful_elementsIn _ _ b
  | ret v p => by simp [elementsIn, Element.Faithful]
  | goto n p => by simp [elementsIn, Element.Faithful]
  | brk p => by simp [elementsIn]
  | cont p => by simp [elementsIn]
  | empty p => by simp [elementsIn]

theorem faithful_elementsOfAll (up : List Stmt) (addr : Address) :
    ∀ (n : Nat) (ss : List Stmt), ∀ e ∈ elementsOfAll up addr n ss, e.Faithful
  | n, [] => by simp [elementsOfAll]
  | n, s :: ss => by
    rw [elementsOfAll, List.forall_mem_append]
    exact ⟨faithful_elementsIn _ _ s, faithful_elementsOfAll _ _ (n + 1) ss⟩

theorem faithful_elementsOfElse (up : List Stmt) (addr : Address) :
    ∀ o : Option Stmt, ∀ e ∈ elementsOfElse up addr o, e.Faithful
  | none => by simp [elementsOfElse]
  | some s => by
    rw [elementsOfElse]
    exact faithful_elementsIn _ _ s
end

theorem filter_isPlaced (s : Stmt) :
    s.elements.filter Element.isPlaced = s.elements.filter (!·.stmt.isBareDecl) :=
  List.filter_congr fun e he => (faithful_elementsIn [] [] s e he).isPlaced

end Stmt

namespace Query

variable {q : Query} {f : Function} {el : Element} {s : Site} {sites : List Site}

theorem place_of_sitesOf {root : Nat} {spot : Spot} (h : q.sitesOf el root spot = .ok sites)
    (hs : s ∈ sites) : s.element = el ∧ s.spot = spot := by
  rw [sitesOf] at h
  split at h
  · cases h
    cases hs
  · generalize (q.pattern.instancesAt spot.expr .empty).filterM (q.accepts el spot.expr) =
        accepted at h
    cases accepted with
    | error e => cases h
    | ok bs =>
      cases h
      obtain ⟨b, -, rfl⟩ := List.mem_map.mp hs
      exact ⟨rfl, rfl⟩

theorem mem_spots_of_sites (h : q.sites f = .ok sites) (hs : s ∈ sites) :
    s.element ∈ f.body.elements ∧ ∃ e ∈ s.element.exprs, s.spot ∈ e.spots := by
  obtain ⟨el, hel, found, hfound, hs⟩ := exists_of_gather (f := q.sitesIn) h hs
  obtain ⟨e, he, part, hpart, hs⟩ := exists_of_gather
    (f := fun e : Expr × Nat => gather (q.sitesOf el e.2) e.1.spots) hfound hs
  obtain ⟨spot, hspot, there, hthere, hs⟩ := exists_of_gather (f := q.sitesOf el e.2) hpart hs
  obtain ⟨hsel, hsspot⟩ := place_of_sitesOf hthere hs
  rw [hsel, hsspot]
  exact ⟨hel, e.1, List.fst_mem_of_mem_zipIdx he, hspot⟩

theorem mem_elements_of_sites (h : q.sites f = .ok sites) (hs : s ∈ sites) :
    s.element ∈ f.body.elements ∧ s.element.exprs ≠ [] := by
  obtain ⟨hel, e, he, -⟩ := mem_spots_of_sites h hs
  exact ⟨hel, List.ne_nil_of_mem he⟩

end Query

namespace Flow

open Execution

variable {exits : List String} {f : Function} {g : Graph}

/-- The blocks of a graph hold the elements of the body. -/
theorem elements_of_build (h : build exits f = .ok g) :
    ((g.blocks ++ g.unreachable).flatMap Block.elements).Perm
      (f.body.elements.filter (!·.stmt.isBareDecl)) := by
  obtain ⟨d, hrun, hd, rfl⟩ := completed_of_build h
  obtain ⟨D, hdrawn, hblocks, -⟩ := drawn_of_addFunction hrun
  rw [← Stmt.filter_isPlaced]
  refine (hd.formed.partition.flatMap_right _).trans ?_
  rw [hblocks]
  exact hdrawn.elements

theorem Graph.Distinct.elementAt?_iff (hd : g.Distinct) {p : Position} :
    g.elementAt? p = some e ↔ (p, e) ∈ g.placed := by
  rw [Graph.elementAt?, Option.bind_eq_some_iff, Graph.mem_placed]
  constructor
  · rintro ⟨b, hb, he⟩
    obtain ⟨hmem, hid⟩ := Graph.mem_of_block? hb
    exact ⟨b, hmem, hid, he⟩
  · rintro ⟨b, hb, hid, he⟩
    exact ⟨b, hid ▸ hd.block? hb, he⟩

/-- The keys of the elements in a graph are different, also those of elements that control cannot
come to. -/
theorem nodup_keys_of_build (h : build exits f = .ok g) :
    (((g.blocks ++ g.unreachable).flatMap Block.elements).map Element.key).Nodup := by
  have hbody : (f.body.elements.map Element.key).Nodup := (Stmt.keyed_elementsIn [] [] f.body).nodup
  exact ((elements_of_build h).map Element.key).nodup_iff.mpr
    (hbody.sublist (List.filter_sublist.map _))

theorem position?_eq_some_iff (h : build exits f = .ok g)
    (he : e ∈ (g.blocks ++ g.unreachable).flatMap Block.elements) {p : Position} :
    g.position? e.key = some p ↔ g.elementAt? p = some e := by
  rw [(distinct_of_build h).elementAt?_iff]
  constructor
  · intro hp
    obtain ⟨e', he', hkey⟩ := Graph.placed_of_position? hp
    have hmem : e' ∈ g.blocks.flatMap Block.elements :=
      g.map_placed ▸ List.mem_map_of_mem (f := (·.2)) he'
    have hsame : e' = e := by
      refine List.inj_on_of_nodup_map (nodup_keys_of_build h) ?_ he hkey
      rw [List.flatMap_append]
      exact List.mem_append_left _ hmem
    rwa [← hsame]
  · exact (keyed_of_build h).position?

theorem position?_eq_none_iff (h : build exits f = .ok g)
    (he : e ∈ (g.blocks ++ g.unreachable).flatMap Block.elements) :
    g.position? e.key = none ↔ e ∈ g.unreachable.flatMap Block.elements := by
  have hkeys := nodup_keys_of_build h
  rw [List.flatMap_append, List.map_append, List.nodup_append] at hkeys
  rw [List.flatMap_append, List.mem_append] at he
  rw [← Option.not_isSome_iff_eq_none, Graph.position?_isSome]
  constructor
  · exact fun hnone => he.resolve_left fun hin => hnone ⟨e, hin, rfl⟩
  · rintro hout ⟨e', he', hkey⟩
    exact hkeys.2.2 _ (List.mem_map_of_mem he') _ (List.mem_map_of_mem hout) hkey

/-- An element has a position just if some execution runs it. -/
theorem position?_isSome_iff_runs (h : build exits f = .ok g)
    (he : e ∈ (g.blocks ++ g.unreachable).flatMap Block.elements) :
    (g.position? e.key).isSome = true ↔
      ∃ es st, Steps exits f.body (start f.body) (es ++ [Event.ran e]) st := by
  constructor
  · intro hsome
    obtain ⟨p, hp⟩ := Option.isSome_iff_exists.mp hsome
    have hplaced := (distinct_of_build h).elementAt?_iff.mp ((position?_eq_some_iff h he).mp hp)
    obtain ⟨ms, hw⟩ := walk_to_placed h hplaced
    obtain ⟨st, hs, -⟩ := (aligned_start h).steps (hw.snoc (Graph.moves_of_placed hplaced))
    rw [List.flatMap_append, List.flatMap_singleton] at hs
    exact ⟨_, st, hs⟩
  · rintro ⟨es, st, hs⟩
    obtain ⟨ms, q, hw, hes, -⟩ := (aligned_start h).walk hs
    obtain ⟨ms₁, p, ms₂, rfl, -⟩ := split_ran hes
    obtain ⟨r, r', hm⟩ := hw.moves (.run p e) (by simp)
    rw [(keyed_of_build h).position? hm.placed.2.1]
    rfl

/-- The graph has the elements of the body that run something, each once. At the site of a query the
element is found where it is if control can come there from the entry, which it can if some
execution runs the element, and it is not found if it is in a block that control cannot come to. -/
theorem build_places_elements (h : build exits f = .ok g) :
    ((g.blocks ++ g.unreachable).flatMap Block.elements).Perm
      (f.body.elements.filter (!·.stmt.isBareDecl)) ∧
    (((g.blocks ++ g.unreachable).flatMap Block.elements).map Element.key).Nodup ∧
    ∀ (q : Query) (sites : List Site), q.sites f = .ok sites → ∀ s ∈ sites,
      (∀ p, g.position? s.element.key = some p ↔
        g.elementAt? p = some s.element ∧ ∃ ms, g.Walk ⟨g.entry, 0⟩ ms p) ∧
      (g.position? s.element.key = none ↔ s.element ∈ g.unreachable.flatMap Block.elements) ∧
      ((g.position? s.element.key).isSome = true ↔
        ∃ es st, Steps exits f.body (start f.body) (es ++ [.ran s.element]) st) := by
  refine ⟨elements_of_build h, nodup_keys_of_build h, fun q sites hsites s hs => ?_⟩
  obtain ⟨hbody, hexprs⟩ := Query.mem_elements_of_sites hsites hs
  have he : s.element ∈ (g.blocks ++ g.unreachable).flatMap Block.elements := by
    rw [(elements_of_build h).mem_iff, ← Stmt.filter_isPlaced, List.mem_filter]
    exact ⟨hbody, Element.isPlaced_of_exprs hexprs⟩
  refine ⟨fun p => ?_, position?_eq_none_iff h he, position?_isSome_iff_runs h he⟩
  rw [position?_eq_some_iff h he]
  refine ⟨fun hp => ⟨hp, ?_⟩, And.left⟩
  exact walk_to_placed h ((distinct_of_build h).elementAt?_iff.mp hp)

/-- `int n; f; return; f;` -/
def trailing : Function where
  name := "trailing"
  params := []
  locals := ["n"]
  pos := ⟨1, 1⟩
  body := .block
    [.simple (.decl "int" [⟨"n", ⟨2, 5⟩, []⟩] ⟨2, 1⟩), .simple (.expr (.name "f" ⟨3, 1⟩) ⟨3, 1⟩),
      .ret none ⟨4, 1⟩, .simple (.expr (.name "f" ⟨5, 1⟩) ⟨5, 1⟩)] ⟨1, 9⟩

def mentions : Query := ⟨[⟨"f", .name "f" ⟨1, 1⟩⟩], [], [], [], []⟩

theorem build_places_elements_trailing :
    ∃ g sites, build defaultExitFunctions trailing = .ok g ∧ mentions.sites trailing = .ok sites ∧
    ((g.blocks ++ g.unreachable).flatMap Block.elements).Perm
      (trailing.body.elements.filter (!·.stmt.isBareDecl)) ∧
    (((g.blocks ++ g.unreachable).flatMap Block.elements).map Element.key).Nodup ∧
    (∃ s ∈ sites, ∃ p, g.elementAt? p = some s.element ∧ (∃ ms, g.Walk ⟨g.entry, 0⟩ ms p) ∧ ∃ es st,
      Steps defaultExitFunctions trailing.body (start trailing.body) (es ++ [.ran s.element]) st) ∧
    ∃ s ∈ sites, s.element ∈ g.unreachable.flatMap Block.elements := by
  obtain ⟨g, hg, hrun⟩ := exists_of_any (x := build defaultExitFunctions trailing) (p := fun g =>
    (mentions.sites trailing).toOption.any
    fun sites => sites.any (fun s => (g.position? s.element.key).isSome) && sites.any
    fun s => (g.position? s.element.key).isNone) (by decide +kernel)
  obtain ⟨sites, hsites, hfound⟩ := exists_of_any hrun
  obtain ⟨hperm, hkeys, hplace⟩ := build_places_elements hg
  rw [Bool.and_eq_true, List.any_eq_true, List.any_eq_true] at hfound
  obtain ⟨⟨s, hs, hsome⟩, s', hs', hnone⟩ := hfound
  obtain ⟨hat, -, hruns⟩ := hplace mentions sites hsites s hs
  obtain ⟨p, hp⟩ := Option.isSome_iff_exists.mp hsome
  obtain ⟨helement, hwalk⟩ := (hat p).mp hp
  refine ⟨g, sites, hg, hsites, hperm, hkeys, ⟨s, hs, p, helement, hwalk, hruns.mp hsome⟩,
    s', hs', ?_⟩
  exact (hplace mentions sites hsites s' hs').2.1.mp (Option.isNone_iff_eq_none.mp hnone)

end Flow

end JniContracts
