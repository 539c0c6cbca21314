import JniContracts.Proofs.Insertion.Sites
import JniContracts.Proofs.Placement
import JniContracts.Proofs.Release
import JniContracts.Proofs.Spelling.Findings

/-!
Leaks and added statements. A statement that assigns nothing and comes back creates no leak: an
execution that leaks after it is added leaks without it. One that releases what the statement in
front of it acquires leaves no leak.
-/

namespace JniContracts

open Flow Execution Insertion

namespace Scene

variable {scene scene' : Scene} {c : CompiledRule} {place : Address} {site site' : Site}
  {el el' : Element}

structure Edited (scene scene' : Scene) : Prop where
  settings : scene'.settings = scene.settings
  locals : scene'.function.locals = scene.function.locals

theorem Edited.settles_iff (h : Edited scene scene') (hsite : site.Shifted place site')
    (hel : el.Shifted place el') : scene'.Settles c site' el' ↔ scene.Settles c site el := by
  have hstores : ∀ v, stores scene'.function v = stores scene.function v := by
    intro v
    funext e
    simp only [stores, h.locals]
  have hescapes : ∀ v, scene'.escapes c.rule v el' = scene.escapes c.rule v el := by
    intro v
    rw [escapes, escapes, hel.role, hel.exprs, hstores]
  simp only [Settles, releases, hsite.bindings, hel.exprs, hescapes]

theorem overwrites_iff_shifted (hsite : site.Shifted place site') (hel : el.Shifted place el') :
    site'.Overwrites el' ↔ site.Overwrites el := by
  simp only [Site.Overwrites, hsite.bindings, hel.exprs]

theorem Edited.exemptBranch_iff (h : Edited scene scene') (hsite : site.Shifted place site')
    (hel : el.Shifted place el') (yes : Bool) :
    scene'.ExemptBranch c.rule site' el' yes ↔ scene.ExemptBranch c.rule site el yes := by
  have hstatus : site'.status? = site.status? := by
    rw [Site.status?, Site.status?, hsite.bindings, Site.assignedTo, Site.assignedTo, hsite.spot]
  have hkey : (el'.key == site'.element.key) = (el.key == site.element.key) := by
    rw [Bool.eq_iff_iff, beq_iff_eq, beq_iff_eq, hel.key_iff hsite.element]
  have hsubject : ∀ status, isSubject site' status el' = isSubject site status el := by
    intro status
    funext place e
    simp only [isSubject, hkey, hsite.root, hsite.spot]
  simp only [ExemptBranch, hel.exprs, hsite.bindings, h.settings, hstatus, hsubject]

theorem Edited.holds (h : Edited scene scene') (hsite : site.Shifted place site') {x x' : Event}
    (hx : Events place x x') (hholds : scene'.Holds c site' x') : scene.Holds c site x := by
  cases hx with
  | ran he => exact fun hs => hholds ((h.settles_iff hsite he).mpr hs)
  | chose he yes => exact fun hs => hholds ((h.exemptBranch_iff hsite he yes).mpr hs)

theorem Edited.leaks {y : Simple} (h : Edited scene scene')
    (hy : y.leaves scene.settings.exitFunctions = false)
    (hplain : ∀ v, ∀ e ∈ y.exprs, e.assigns v = false)
    (hgains : Stmt.Gains (.simple y) place scene.function.body scene'.function.body)
    (hsite : site.Shifted place site') (hleaks : scene'.Leaks c site') : scene.Leaks c site := by
  have hbody := Located.Stays.whole hgains
  -- what comes to the site again, or overwrites, is not the added statement
  have hother : ∀ {e : Element}, e.key = site'.element.key → ¬ e.IsAdded y place := by
    intro e hkey hadded
    have haddr : site'.element.address = place := congrArg Prod.fst (hkey.symm.trans hadded.key)
    exact shift_ne hgains.ne_nil site.element.address (hsite.element.address.symm.trans haddr)
  obtain ⟨before', el', s', after', t', hbefore', hkey', hafter', hholds, hend⟩ := hleaks
  simp only [h.settings] at hbefore' hafter' hend
  obtain ⟨es, s, hes, htrace, hs⟩ := States.steps hy hbody (.run hbody .stop) hbefore'
  obtain ⟨before, one, rfl, -, hone⟩ := htrace.split
  obtain ⟨el, rfl, hel⟩ := hone.ran_one (hother hkey')
  obtain ⟨after, t, hafter, htrace', ht⟩ := hs.steps hy hbody hafter'
  refine ⟨before, el, s, after, t, hes, (hel.key_iff hsite.element).mp hkey', hafter,
    fun x hx => ?_, ?_⟩
  · obtain ⟨x', hx', hxx⟩ := htrace'.exists_of_mem hx
    exact h.holds hsite hxx (hholds x' hx')
  · rcases hend with rfl | ⟨last', u', hlast', hends⟩
    · cases ht with
      | left => exact .inl rfl
    · have hnot : ¬ last'.IsAdded y place := by
        rcases hends with hkey | ⟨⟨v, -, e, he, hassigns⟩, -⟩
        · exact hother hkey
        · intro hadded
          rw [hplain v e (hadded.exprs ▸ he)] at hassigns
          cases hassigns
      obtain ⟨es, u, hu, hshown, -⟩ := ht.steps hy hbody hlast'
      obtain ⟨last, rfl, hlast⟩ := hshown.ran_one hnot
      refine .inr ⟨last, u, hu, ?_⟩
      rwa [← hlast.key_iff hsite.element, ← overwrites_iff_shifted hsite hlast,
        ← h.settles_iff hsite hlast]

end Scene

/-- Statements that only evaluate, and behind which control goes on. -/
def Stmt.comesBack (exits : List String) : Stmt → Bool
  | simple y => !y.leaves exits
  | _ => false

theorem Stmt.Gains.leads {x s s' : Stmt} {place : Address} (h : Gains x place s s') :
    ∃ q pre post p, place = q ++ [pre.length] ∧ s'.Leads q (.block (pre ++ x :: post) p) := by
  induction place generalizing s s' with
  | nil => exact absurd rfl h.ne_nil
  | cons n place ih =>
    rcases h.here_or_part with ⟨pre, post, p, hplace, -,
      rfl⟩ | ⟨m, rest, d, d', hplace, -, hd', hgains⟩
    · exact ⟨[], pre, post, p, hplace, .here _⟩
    · cases hplace
      obtain ⟨q, pre, post, p, rfl, hleads⟩ := ih hgains
      exact ⟨n :: q, pre, post, p, rfl, .part hd' hleads⟩

namespace Execution

variable {exits : List String} {body body' : Stmt} {l : Located} {k : Cont} {q : Address} {n : Nat}

/-- Behind the statement in front of the added one, the added one is next. -/
theorem Within.added_next {x : Stmt} (hgains : Stmt.Gains x (q ++ [n + 1]) body body')
    (h : Within true ⟨[], [], body'⟩ .stop l k) (haddr : l.addr = q ++ [n]) :
    ∃ b post j, b.addr = q ∧ k = .rest b (n + 1) (x :: post) j := by
  obtain ⟨q', pre, post, p, hplace, hleads⟩ := hgains.leads
  obtain ⟨rfl, hlen⟩ := List.append_inj' hplace rfl
  simp only [List.cons.injEq, and_true] at hlen
  rcases h.self_or_part with ⟨rfl, -⟩ | ⟨b, j, hb, hpart⟩
  · simp at haddr
  · obtain ⟨i, hchild, -⟩ := hpart.child
    have hnumber : b.addr ++ [i] = q ++ [n] := by
      rw [← haddr, hchild]
      rfl
    obtain ⟨rfl, -⟩ := List.append_inj' hnumber rfl
    obtain ⟨way, hway, hto⟩ := hb.leads
    cases hway
    obtain ⟨pre', s, post', hss, hl, rfl⟩ := hpart.of_block (hto.unique hleads)
    have hlen' : pre'.length = n := by
      rw [hl] at haddr
      simpa [Located.child] using haddr
    rw [List.append_cons pre' s post'] at hss
    obtain ⟨-, rfl⟩ := List.append_inj hss (by simp [hlen', ← hlen])
    exact ⟨b, post, j, rfl, by rw [hlen']⟩

/-- A statement that is next and comes back is run before anything else is seen. -/
theorem Steps.run_next {y : Simple} {b : Located} {ss : List Stmt} {es : List Event} {u : State}
    (hy : y.leaves exits = false) (hne : y.exprs.isEmpty = false)
    (h : Steps exits body (.fall (.rest b n (.simple y :: ss) k)) es u) :
    (es = [] ∧ u ≠ .left) ∨
    ∃ fs, es = .ran ((b.child n (.simple y)).element .stmt y.exprs) :: fs := by
  cases h with
  | refl => exact .inl ⟨rfl, by simp⟩
  | step hstep hrest =>
    cases hstep with
    | next =>
      cases hrest with
      | refl => exact .inl ⟨rfl, by simp⟩
      | @step _ _ _ _ fs hstep hrest =>
        cases hstep with
        | simple =>
          refine .inr ⟨fs, ?_⟩
          rw [Located.evaluated, hne]
          rfl
        | exitCall hleaves =>
          rw [hy] at hleaves
          cases hleaves

end Execution

namespace Scene

variable {scene scene' : Scene} {c : CompiledRule} {site site' : Site} {y : Simple}
  {q a : Address} {n : Nat}

/-- The statement of a site is the one that an execution runs there. -/
theorem statement_of_site {exits : List String} {body body' : Stmt} {place : Address}
    {up : List Stmt} {a : Address} {z : Simple} {k : Cont}
    (hgains : Stmt.Gains (.simple y) place body body') (hmem : site.element ∈ body.elements)
    (hrole : site.element.role = .stmt) (hback : site.element.stmt.comesBack exits = true)
    (hw : Within true ⟨[], [], body'⟩ .stop ⟨up, a, .simple z⟩ k)
    (ha : a = shift place site.element.address) :
    z.leaves exits = false ∧ up.map Stmt.isLabel = site.element.ancestors.map Stmt.isLabel := by
  rcases (Located.Stays.whole hgains).within .stop hw with
    ⟨-, hplace⟩ | ⟨⟨up', a', s⟩, j, hw', hstays, -⟩
  · exact absurd (ha.symm.trans hplace) (shift_ne hgains.ne_nil _)
  · have haddr : a' = site.element.address := shift_injective place (hstays.addr.symm.trans ha)
    have hlabels := hstays.labels
    cases hstays.alike with
    | simple z =>
      have helement : Located.element ⟨up', a', .simple z⟩ .stmt z.exprs ∈ body.elements :=
        hw'.elements (Located.mem_elements.mpr (.own List.mem_cons_self))
      have hsame : Located.element ⟨up', a', .simple z⟩ .stmt z.exprs = site.element :=
        List.inj_on_of_nodup_map (Stmt.keyed_elementsIn [] [] body).nodup helement hmem
          (Prod.ext haddr hrole.symm)
      rw [← hsame] at hback ⊢
      exact ⟨by simpa [Located.element, Stmt.comesBack] using hback, hlabels⟩

/-- Where the statement behind a site releases what the site acquires, nothing leaks. -/
theorem Edited.not_leaks (h : Edited scene scene')
    (hy : y.leaves scene.settings.exitFunctions = false)
    (hgains : Stmt.Gains (.simple y) (q ++ [n + 1]) scene.function.body scene'.function.body)
    (hsite : site.Shifted (q ++ [n + 1]) site') (hmem : site.element ∈ scene.function.body.elements)
    (hrole : site.element.role = .stmt)
    (hback : site.element.stmt.comesBack scene.settings.exitFunctions = true)
    (haddr : site.element.address = q ++ n :: a)
    (hlabels : ∀ t ∈ site.element.ancestors.drop (q.length + 1), t.isLabel = true)
    (hreleases : ∀ el : Element, el.exprs = y.exprs → releases c.requires site.bindings el = true)
    (hne : y.exprs.isEmpty = false) : ¬ scene'.Leaks c site' := by
  rintro ⟨before, el, s, after, t, hbefore, hkey, hafter, hholds, hend⟩
  simp only [h.settings] at hbefore hafter hend
  have hstay : shift (q ++ [n + 1]) site.element.address = q ++ n :: a := by
    rw [haddr, shift_append (by simp), shift, if_pos (Nat.lt_succ_self n)]
  -- the step that runs the site comes to the added statement
  obtain ⟨r, r', hr, hrun, hsilent⟩ := hbefore.split
  have hrole' : el.role = .stmt := by
    rw [show el.role = site'.element.role from congrArg Prod.snd hkey, hsite.element.role, hrole]
  have haddr' : el.address = shift (q ++ [n + 1]) site.element.address :=
    (congrArg Prod.fst hkey).trans hsite.element.address
  obtain ⟨up, z, k, rfl, -, rfl⟩ := hrun.of_ran_stmt hrole'
  have hw : Within true ⟨[], [], scene'.function.body⟩ .stop ⟨up, el.address, .simple z⟩ k :=
    hr.stands (stands_start _)
  obtain ⟨hleaves, hup⟩ := statement_of_site hgains hmem hrole hback hw haddr'
  rw [hleaves] at hsilent
  have hlabels' : ∀ t ∈ up.drop (q.length + 1), t.isLabel = true := by
    have hdrop := congrArg (List.drop (q.length + 1)) hup
    rw [← List.map_drop, ← List.map_drop] at hdrop
    intro t ht
    obtain ⟨t', ht', hsame⟩ := List.mem_map.mp (hdrop ▸ List.mem_map_of_mem ht)
    rw [← hsame, hlabels t' ht']
  obtain ⟨l, hl, hladdr⟩ := hw.behind_labels (haddr'.trans hstay) hlabels'
  obtain ⟨b, post, j, hb, rfl⟩ := hl.added_next hgains hladdr
  -- it is run first, and settles what there is to release
  have hsettles : scene'.Settles c site' ((b.child (n + 1) (.simple y)).element .stmt y.exprs) :=
    .inl (by rw [hsite.bindings]; exact hreleases _ rfl)
  have hnever :
      ∀ {fs}, after ≠ .ran ((b.child (n + 1) (.simple y)).element .stmt y.exprs) :: fs := by
    intro fs hfs
    have hopen : scene'.Holds c site' (.ran _) := hholds _ (hfs ▸ List.mem_cons_self)
    exact hopen hsettles
  rcases hend with rfl | ⟨last, u, hlast, hends⟩
  · rcases (hsilent.append hafter).run_next hy hne with ⟨-, hleft⟩ | ⟨fs, hfs⟩
    · exact hleft rfl
    · exact hnever hfs
  · rcases ((hsilent.append hafter).append hlast).run_next hy hne with ⟨hnil, -⟩ | ⟨fs, hfs⟩
    · simp at hnil
    · cases after with
      | cons x after =>
        cases hfs
        exact hnever rfl
      | nil =>
        cases hfs
        rcases hends with hkey | ⟨-, hnot⟩
        · have haddress : b.addr ++ [n + 1] = site'.element.address := congrArg Prod.fst hkey
          rw [hb, hsite.element.address, hstay] at haddress
          simp at haddress
        · exact hnot hsettles

section Reports

variable {file : String} {s : Settings} {f : Function} {g : Graph}

theorem assigns_of_plain {e : Expr}
    (h : ∀ op target value pos, Expr.assign op target value pos ∉ e.walk) (v : String) :
    e.assigns v = false := by
  rw [Expr.assigns, List.any_eq_false]
  intro part hpart
  split
  · exact absurd hpart (h _ _ _ _)
  · simp

/-- A statement is put into a block of a function: an expression that assigns nothing and is no call
of an exit function. The function still has a graph, and every site of a rule is still there. A site
at which nothing leaked is not reported after. Nor is one whose own statement stands right in front,
perhaps behind labels, and comes back, if the new statement releases what it acquires. -/
theorem insertion_creates_no_leak {r : Rule} {sites : List Site} {e : Expr} {p : Pos}
    {place : Address} {body : Stmt}
    (hscene : Scene.make file s f = .ok scene) (hgraph : build s.exitFunctions f = .ok g)
    (hc : r.compile = .ok c) (hsites : c.query.sites f = .ok sites)
    (hgains : Stmt.Gains (.simple (.expr e p)) place f.body body)
    (hplain : ∀ op target value pos, Expr.assign op target value pos ∉ e.walk)
    (hexit : isExitCall s.exitFunctions e = false) :
    ∃ scene' g', Scene.make file s { f with body } = .ok scene' ∧
      build s.exitFunctions { f with body } = .ok g' ∧
      ∀ site ∈ sites,
        (∀ sites', c.query.sites { f with body } = .ok sites' →
          ∃ site' ∈ sites', site.Shifted place site') ∧
        ∀ site', site.Shifted place site' →
          (scene.breaksRelease c site = false → scene'.breaksRelease c site' = false) ∧
          ((∃ q n a, site.element.address = q ++ n :: a ∧ place = q ++ [n + 1] ∧
              ∀ t ∈ site.element.ancestors.drop (q.length + 1), t.isLabel = true) →
            site.element.role = .stmt →
            site.element.stmt.comesBack s.exitFunctions = true →
            (∃ pattern ∈ c.requires, Patterns.inExprs [pattern] [e] site.bindings ≠ []) →
            scene'.breaksRelease c site' = false) := by
  obtain ⟨-, -, hinside, hnotInside⟩ := query_of_compile hc
  obtain ⟨cond, hmake⟩ := make_of_make hscene
  obtain ⟨g', hgraph'⟩ := hgains.build hgraph
  cases (hmake f).symm.trans hscene
  refine ⟨_, g', hmake { f with body }, hgraph',
    fun site hsite => ⟨fun sites' hsites' => ?_, fun site' hshift => ?_⟩⟩
  · exact Query.Local.sites_shifted ⟨hinside, hnotInside⟩ hgains hsites hsites' hsite
  have hedited : Edited ⟨file, f, s, ⟨.branch, some cond, none, none⟩, build s.exitFunctions f⟩
      ⟨file, { f with body }, s, ⟨.branch, some cond, none, none⟩,
        build s.exitFunctions { f with body }⟩ := ⟨rfl, rfl⟩
  have hy : (Simple.expr e p).leaves s.exitFunctions = false := hexit
  constructor
  · intro hsilent
    rw [← Bool.not_eq_true] at hsilent ⊢
    intro hreport
    obtain ⟨hconcerns, hleaks⟩ := leaks_of_breaksRelease (hmake { f with body }) hgraph' hreport
    refine hsilent (breaksRelease_of_leaks hscene hgraph ?_ ?_)
    · rwa [Concerns, ← hshift.bindings]
    · have hassigns : ∀ v, ∀ x ∈ (Simple.expr e p).exprs, x.assigns v = false :=
        fun v x hx => List.mem_singleton.mp hx ▸ assigns_of_plain hplain v
      exact hedited.leaks hy hassigns hgains hshift hleaks
  · rintro ⟨q, n, a, haddr, rfl, hlabels⟩ hrole hback ⟨pattern, hpattern, hfound⟩
    rw [← Bool.not_eq_true]
    intro hreport
    have hreleases :
        ∀ el : Element, el.exprs = [e] → releases c.requires site.bindings el = true := by
      intro el hel
      rw [releases, hel, List.any_eq_true]
      exact ⟨pattern, hpattern, by simpa using hfound⟩
    exact hedited.not_leaks hy hgains hshift
      (Query.mem_elements_of_sites hsites hsite).1 hrole hback haddr hlabels hreleases
      rfl (leaks_of_breaksRelease (hmake { f with body }) hgraph' hreport).2

end Reports

/-- `again: s = get(n); if (s == NULL) return; if (n) return; put(s);` -/
def retried : Function :=
  { careless with
    body := .block ((careless.body.children.take 1).map (.label "again" · ⟨2, 1⟩) ++
      careless.body.children.drop 1) ⟨1, 9⟩ }

def putS : Expr := .call (.name "put" ⟨2, 13⟩) [.name "s" ⟨2, 17⟩] false ⟨2, 13⟩

/-- `again: s = get(n); put(s); if (s == NULL) return; if (n) return; put(s);` -/
def hasty : Stmt :=
  .block (retried.body.children.take 1 ++ .simple (.expr putS ⟨2, 13⟩) ::
    retried.body.children.drop 1) ⟨1, 9⟩

theorem insertion_creates_no_leak_hasty :
    ∃ c scene scene' sites sites' site site', putBack.compile = .ok c ∧
    c.query.sites retried = .ok sites ∧ c.query.sites { retried with body := hasty } = .ok sites' ∧
    site ∈ sites ∧ site' ∈ sites' ∧ Scene.make "careless.c" .standard retried = .ok scene ∧
    Scene.make "careless.c" .standard { retried with body := hasty } = .ok scene' ∧
    site.Shifted [1] site' ∧ scene.breaksRelease c site = true ∧
    scene'.breaksRelease c site' = false := by
  have hrun : ((Scene.make "careless.c" .standard retried).toOption.any fun scene =>
      (build Settings.standard.exitFunctions retried).toOption.any fun _ =>
      putBack.compile.toOption.any fun c =>
      (c.query.sites { retried with body := hasty }).toOption.any fun _ =>
      (c.query.sites retried).toOption.any fun sites => sites.any fun site =>
        scene.breaksRelease c site && site.element.key == ([0, 0], .stmt) &&
        (site.element.ancestors.drop 1).all Stmt.isLabel &&
        site.element.stmt.comesBack Settings.standard.exitFunctions &&
        c.requires.any (fun pattern =>
          !(Patterns.inExprs [pattern] [putS] site.bindings).isEmpty)) = true := by
    decide +kernel
  obtain ⟨scene, hscene, hrun⟩ := exists_of_any hrun
  obtain ⟨g, hgraph, hrun⟩ := exists_of_any hrun
  obtain ⟨c, hc, hrun⟩ := exists_of_any hrun
  obtain ⟨sites', hsites', hrun⟩ := exists_of_any hrun
  obtain ⟨sites, hsites, hrun⟩ := exists_of_any hrun
  simp only [List.any_eq_true, Bool.and_eq_true, beq_iff_eq] at hrun
  obtain ⟨site, hsite, ⟨⟨⟨hbreaks, hkey⟩, hlabels⟩, hback⟩, pattern, hpattern, hfound⟩ := hrun
  have hgains : Stmt.Gains (.simple (.expr putS ⟨2, 13⟩)) [1] retried.body hasty :=
    .here (retried.body.children.take 1) (retried.body.children.drop 1) ⟨1, 9⟩
  obtain ⟨scene', g', hscene', -, hall⟩ := insertion_creates_no_leak hscene hgraph hc hsites hgains
    (by simp [putS, Expr.walk, Expr.walkAll]) (by decide)
  obtain ⟨hkept, hsilent⟩ := hall site hsite
  obtain ⟨site', hsite', hshift⟩ := hkept sites' hsites'
  refine ⟨c, scene, scene', sites, sites', site, site', hc, hsites, hsites', hsite, hsite', hscene,
    hscene', hshift, hbreaks, ?_⟩
  exact (hsilent site' hshift).2
    ⟨[], 0, [0], congrArg Prod.fst hkey, rfl, List.all_eq_true.mp hlabels⟩
    (congrArg Prod.snd hkey) hback ⟨pattern, hpattern, by simpa using hfound⟩

end Scene

end JniContracts
