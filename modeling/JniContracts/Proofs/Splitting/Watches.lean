import JniContracts.Proofs.Splitting.Signs
import JniContracts.Proofs.Splitting.Sites

/-!
What a rule watches for behind a site, before and after declarations are split. The search for a
path on which it is not done comes to the same result if the rule is indifferent to the declarations
that are split.
-/

namespace JniContracts

open Flow

/-- What a rule asks of the elements behind a site. The end of the function means the same as the
site itself when it runs again. -/
structure Watch where
  classify : Element → Verdict
  again : Verdict
  exempt : Element → Edge → Bool

def Watch.obligation (w : Watch) (p : Position) : Obligation :=
  ⟨p, w.classify, w.again, w.again, w.exempt⟩

structure Watch.Agrees (scene : Scene) (c : CompiledRule) (chosen : Address → Bool) (s : Site)
  (w w' : Watch) : Prop where
  again : w'.again = w.again
  closes : w.again ≠ .pending
  breaks : c.rule.kind ≠ .nullCheck → w.again = .violated
  stmt : ∀ el, el.role = .stmt → w.classify el = Sign.judge (scene.signs c s) el.exprs
  stmt' : ∀ el, el.role = .stmt → w'.classify el = Sign.judge (scene.signs c s) el.exprs
  kept : ∀ e e', ⟨e, [e']⟩ ∈ scene.function.body.rows chosen → e.Resembles e' →
    w'.classify e' = w.classify e ∧ ∀ k, w'.exempt e' k = w.exempt e k

namespace Scene

/-- Whether control can come to a site, and from there along a path on which what the rule asks is
not done. -/
def fails (scene : Scene) (site : Site) (w : Watch) : Bool :=
  match scene.start? site with
  | none => false
  | some (g, p) => !((w.obligation p).coverage g).isSatisfied

def split (chosen : Address → Bool) (scene : Scene) : Scene :=
  { scene with
    function := scene.function.split chosen
    graph := Flow.build scene.settings.exitFunctions (scene.function.split chosen) }

@[simp] theorem settings_split (chosen : Address → Bool) (scene : Scene) :
    (scene.split chosen).settings = scene.settings := rfl

section Searching

variable {scene : Scene} {c : CompiledRule} {chosen : Address → Bool} {s s' : Site} {w w' : Watch}
  {p p' : Position}

theorem judge_kept (h : s.Persists (scene.function.body.rows chosen) s')
    (hw : Watch.Agrees scene c chosen s w w') {e e' : Element}
    (hr : ⟨e, [e']⟩ ∈ scene.function.body.rows chosen) (he : e.Resembles e') :
    (w'.obligation p').judge s'.element.key e' = (w.obligation p).judge s.element.key e := by
  simp only [Obligation.judge, h.key_iff_of_kept hr, Watch.obligation, hw.again,
    (hw.kept e e' hr he).1]

theorem judge_part (hw : Watch.Agrees scene c chosen s w w') {e : Element} (hrole : e.role = .stmt)
    (hkey : e.key ≠ s'.element.key) :
    (w'.obligation p').judge s'.element.key e = Sign.judge (scene.signs c s) e.exprs := by
  rw [Obligation.judge, if_neg hkey]
  exact hw.stmt' e hrole

section Split

variable {up : List Stmt} {t : String} {q : Pos} {ds : List Declarator} {parts : List Element}

theorem isPlaced_of_root {e : Element} {n : Nat} (h : n < e.exprs.length) : e.isPlaced = true := by
  have hne : e.exprs.isEmpty = false :=
    List.isEmpty_eq_false_iff.mpr (List.ne_nil_of_length_pos (by omega))
  rw [Element.isPlaced, hne]
  cases e.stmt <;> rfl

theorem role_of_declares (hparts : List.Forall₂ (Element.Declares up t q) ds parts) {e : Element}
    (he : e ∈ parts) : e.role = .stmt := by
  obtain ⟨d, -, hd⟩ := exists_of_forall₂ hparts he
  exact hd.role

theorem isPlaced_of_declares (hparts : List.Forall₂ (Element.Declares up t q) ds parts)
    {e : Element} (he : e ∈ parts) : e.isPlaced = !e.exprs.isEmpty := by
  obtain ⟨d, -, hd⟩ := exists_of_forall₂ hparts he
  rw [Element.isPlaced, hd.stmt]

/-- A split declaration that does not hold the site. -/
theorem judge_elsewhere (hw : Watch.Agrees scene c chosen s w w')
    (hparts : List.Forall₂ (Element.Declares up t q) ds parts)
    (hkeys : ∀ e ∈ parts, e.key ≠ s'.element.key)
    (hind : (ds.map Declarator.assignments).Pairwise (Sign.Decides (scene.signs c s))) :
    firstVerdict ((w'.obligation p').judge s'.element.key) (parts.filter Element.isPlaced) =
    Sign.judge (scene.signs c s) (ds.flatMap Declarator.assignments) := by
  have hverdict :
      ∀ e ∈ parts, (w'.obligation p').judge s'.element.key e =
      Sign.judge (scene.signs c s) e.exprs :=
    fun e he => judge_part hw (role_of_declares hparts he) (hkeys e he)
  have hexprs : parts.map Element.exprs = ds.map Declarator.assignments :=
    (map_congr_of_forall₂ hparts fun _ _ h => h.exprs.symm).symm
  have hunplaced :
      ∀ e ∈ parts, e.isPlaced = false → (w'.obligation p').judge s'.element.key e = .pending := by
    intro e he hplaced
    rw [isPlaced_of_declares hparts he, Bool.not_eq_false', List.isEmpty_iff] at hplaced
    rw [hverdict e he, hplaced, Sign.judge_nil]
  rw [firstVerdict_filter hunplaced, firstVerdict_congr hverdict, ← firstVerdict_map, hexprs,
    Sign.firstVerdict_judge hind]
  rfl

/-- The names of the declaration in front of the site and behind it, and their elements. -/
theorem names_around {pre post : List Element}
    (hparts : List.Forall₂ (Element.Declares up t q) ds (pre ++ s'.element :: post))
    (hroot : s.root = (pre.flatMap Element.exprs).length + s'.root)
    (hlt : s'.root < s'.element.exprs.length) :
    List.Forall₂ (Element.Declares up t q) (s.namesAhead (.simple (.decl t ds q))) pre ∧
    List.Forall₂ (Element.Declares up t q) (s.namesBehind (.simple (.decl t ds q))) post := by
  obtain ⟨ahead, d, behind, rfl, hahead, hd, hbehind⟩ := forall₂_of_append_cons hparts
  have hlen :
      (pre.flatMap Element.exprs).length = (ahead.flatMap Declarator.assignments).length := by
    rw [List.flatMap_def, List.flatMap_def, map_congr_of_forall₂ hahead fun _ _ h => h.exprs.symm]
  have howner : Declarator.owner s.root (ahead ++ d :: behind) = ahead.length := by
    rw [hroot, hlen]
    exact Declarator.owner_append (hd.exprs ▸ hlt) ahead behind
  have hdrop : (ahead ++ d :: behind).drop (ahead.length + 1) = behind := by
    rw [← List.drop_drop, List.drop_left]
    rfl
  simp only [Site.namesAhead, Site.namesBehind, Stmt.declarators, howner, List.take_left, hdrop]
  exact ⟨hahead, hbehind⟩

/-- A split declaration that holds the site. -/
theorem judge_around (hw : Watch.Agrees scene c chosen s w w') {pre post : List Element}
    (hparts : List.Forall₂ (Element.Declares up t q) ds (pre ++ s'.element :: post))
    (hroot : s.root = (pre.flatMap Element.exprs).length + s'.root)
    (hlt : s'.root < s'.element.exprs.length)
    (hnodup : ((pre ++ s'.element :: post).map Element.key).Nodup)
    (hind : ∀ d ∈ s.namesAhead (.simple (.decl t ds q)), scene.verdictOn c s d = .pending ∨
      c.rule.kind ≠ .nullCheck ∧ scene.verdictOn c s d = .violated) :
    firstVerdict ((w'.obligation p').judge s'.element.key)
      ((pre ++ s'.element :: post).filter Element.isPlaced) = w.again := by
  have hself : (w'.obligation p').judge s'.element.key s'.element = w.again := by
    rw [Obligation.judge, if_pos rfl]
    exact hw.again
  rw [List.filter_append, List.filter_cons_of_pos (isPlaced_of_root hlt), ← hself]
  refine firstVerdict_of_ahead (by rw [hself]; exact hw.closes) fun x hx => ?_
  have hx := List.mem_of_mem_filter hx
  have hkey : x.key ≠ s'.element.key := by
    rw [List.map_append, List.map_cons] at hnodup
    intro hkey
    exact (List.nodup_append.mp hnodup).2.2 x.key
      (List.mem_map_of_mem hx) s'.element.key List.mem_cons_self hkey
  obtain ⟨d, hd, hdx⟩ := exists_of_forall₂ (names_around hparts hroot hlt).1 hx
  have hverdict : (w'.obligation p').judge s'.element.key x = scene.verdictOn c s d := by
    rw [judge_part hw hdx.role hkey, hdx.exprs]
    rfl
  rw [hself, hverdict]
  rcases hind d hd with hpending | ⟨hkind, hviolated⟩
  · exact .inl hpending
  · exact .inr (hviolated.trans (hw.breaks hkind).symm)

end Split

section Rows

variable {r : Row} (hr : r ∈ scene.function.body.rows chosen) (hplaced : r.whole.isPlaced = true)
include hr hplaced

theorem judge_row (h : s.Persists (scene.function.body.rows chosen) s')
    (hw : Watch.Agrees scene c chosen s w w')
    (hind : r.whole.role = .stmt → chosen r.whole.address = true → scene.Indifferent c s r.whole) :
    firstVerdict ((w'.obligation p').judge s'.element.key) r.placed =
    (w.obligation p).judge s.element.key r.whole := by
  cases (scene.function.body.covers_rows chosen).fits r hr with
  | @kept e e' he =>
    rw [Row.placed, List.filter_cons_of_pos (he.isPlaced.trans hplaced), firstVerdict,
      judge_kept h hw hr he]
    split
    · rename_i hpending
      exact hpending.symm
    · rfl
  | @split addr t ds q up parts haddr hds hparts =>
    have hnames := hind rfl haddr
    rw [Indifferent] at hnames
    rw [Obligation.judge]
    split
    · rename_i hkey
      rw [if_pos hkey] at hnames
      obtain ⟨-, pre, post, rfl, hroot⟩ := h.row_of_whole hr hkey
      exact judge_around hw hparts hroot h.root (Stmt.nodup_parts hr) hnames.1
    · rename_i hkey
      rw [if_neg hkey] at hnames
      rw [show (w.obligation p).classify _ = _ from hw.stmt _ rfl]
      refine judge_elsewhere hw hparts (fun e he hkey' => hkey ?_) hnames
      rw [h.row_of_part hr he hkey']

theorem getLast?_row (hw : Watch.Agrees scene c chosen s w w') : ∃ e, r.placed.getLast? = some e ∧
    e.role = r.whole.role ∧ (r.whole.role = .cond → ∀ k, w'.exempt e k = w.exempt r.whole k) := by
  have hfits := (scene.function.body.covers_rows chosen).fits r hr
  have hne : r.placed ≠ [] := fun hnil => by
    rw [hfits.placed_eq_nil_iff.mp hnil] at hplaced
    cases hplaced
  cases hfits with
  | @kept e e' he =>
    refine ⟨e', ?_, he.role, fun _ => (hw.kept e e' hr he).2⟩
    rw [Row.placed, List.filter_cons_of_pos (he.isPlaced.trans hplaced)]
    rfl
  | @split addr t ds q up parts haddr hds hparts =>
    have hlast := List.getLast?_eq_some_getLast hne
    have hrole := role_of_declares hparts (List.mem_of_mem_filter (List.mem_of_getLast? hlast))
    exact ⟨_, hlast, hrole, fun hcond => by cases hcond⟩

theorem behind_row (h : s.Persists (scene.function.body.rows chosen) s')
    (hw : Watch.Agrees scene c chosen s w w')
    (hind : r.whole.role = .stmt → chosen r.whole.address = true → scene.Indifferent c s r.whole)
    (hkey : r.whole.key = s.element.key) :
    ∃ pre e post, r.placed = pre ++ e :: post ∧ e.key = s'.element.key ∧
    ∀ x ∈ post, w'.classify x = .pending := by
  obtain ⟨-, pre, post, hparts, hroot⟩ := h.row_of_whole hr hkey
  cases (scene.function.body.covers_rows chosen).fits r hr with
  | @kept e e' he =>
    refine ⟨[], e', [], ?_, ?_, by simp⟩
    · rw [Row.placed, List.filter_cons_of_pos (he.isPlaced.trans hplaced)]
      rfl
    · exact (h.key_iff_of_kept hr).mpr hkey
  | @split addr t ds q up parts haddr hds hdeclares =>
    subst hparts
    have hnames := hind rfl haddr
    rw [Indifferent, if_pos hkey] at hnames
    refine ⟨pre.filter Element.isPlaced, s'.element, post.filter Element.isPlaced, ?_, rfl,
      fun x hx => ?_⟩
    · rw [Row.placed, List.filter_append, List.filter_cons_of_pos (isPlaced_of_root h.root)]
    · obtain ⟨d, hd, hdx⟩ :=
        exists_of_forall₂ (names_around hdeclares hroot h.root).2 (List.mem_of_mem_filter hx)
      rw [hw.stmt' x hdx.role, hdx.exprs]
      exact hnames.2 d hd

end Rows

/-- The search behind a site comes to the same result before and after, if the rule is indifferent
to the declarations that are split. -/
theorem accords (h : s.Persists (scene.function.body.rows chosen) s')
    (hw : Watch.Agrees scene c chosen s w w') (hind : scene.Tolerates c chosen s) :
    Obligation.Accords (placedRows chosen scene.function) s.element.key s'.element.key
      (w.obligation p) (w'.obligation p') := by
  have hrow : ∀ r ∈ scene.function.body.rows chosen,
      r.whole.role = .stmt → chosen r.whole.address = true →
      scene.Indifferent c s r.whole := fun r hr =>
    hind r.whole
      (by rw [← (scene.function.body.covers_rows chosen).wholes]; exact List.mem_map_of_mem hr)
  exact ⟨hw.again, fun r hr => judge_row hr.1 hr.2 h hw (hrow r hr.1),
    fun r hr => getLast?_row hr.1 hr.2 hw, fun r hr => behind_row hr.1 hr.2 h hw (hrow r hr.1)⟩

theorem row_key_iff (h : s.Persists (scene.function.body.rows chosen) s') {r : Row}
    (hr : r ∈ scene.function.body.rows chosen) :
    r.whole.key = s.element.key ↔ ∃ e ∈ r.placed, e.key = s'.element.key := by
  constructor
  · intro hkey
    obtain ⟨-, pre, post, hparts, -⟩ := h.row_of_whole hr hkey
    refine ⟨s'.element, List.mem_filter.mpr ⟨?_, isPlaced_of_root h.root⟩, rfl⟩
    simp [hparts]
  · rintro ⟨e, he, hkey⟩
    rw [h.row_of_part hr (List.mem_of_mem_filter he) hkey]

section Starting

variable (hgraph : scene.graph = Flow.build scene.settings.exitFunctions scene.function)
  (h : s.Persists (scene.function.body.rows chosen) s')
include hgraph h

/-- Where control can come to a site before and after, and the two graphs; or it comes to
neither. -/
theorem start?_split :
    (scene.start? s = none ∧ (scene.split chosen).start? s' = none) ∨
      ∃ g g' p p', scene.start? s = some (g, p) ∧ (scene.split chosen).start? s' = some (g', p') ∧
        g.Splits (placedRows chosen scene.function) g' ∧ g.Unique ∧ g'.Unique ∧
        g.position? s.element.key = some p ∧ g'.position? s'.element.key = some p' := by
  rw [start?, start?, split, hgraph]
  rcases build_split scene.settings.exitFunctions chosen scene.function with
    ⟨e, hg, hg'⟩ | ⟨g, g', hg, hg', hsplits⟩
  · rw [hg, hg']
    exact .inl ⟨rfl, rfl⟩
  · have hsome := hsplits.position? fun r hr => row_key_iff h hr.1
    simp only [hg, hg']
    cases hp : g.position? s.element.key with
    | none =>
      rw [hp, Option.isSome_none, Option.isSome_eq_false_iff, Option.isNone_iff_eq_none] at hsome
      rw [hsome]
      exact .inl ⟨rfl, rfl⟩
    | some p =>
      rw [hp] at hsome
      obtain ⟨p', hp'⟩ := Option.isSome_iff_exists.mp hsome
      rw [hp']
      exact .inr ⟨g, g', p, p', rfl, rfl, hsplits, unique_of_build hg, unique_of_build hg', hp, hp'⟩

theorem isSome_start?_split :
    ((scene.split chosen).start? s').isSome = (scene.start? s).isSome := by
  rcases start?_split hgraph h with ⟨hs, hs'⟩ | ⟨g, g', p, p', hs, hs', -⟩
  · rw [hs, hs']
  · rw [hs, hs', Option.isSome_some, Option.isSome_some]

theorem fails_split (hw : Watch.Agrees scene c chosen s w w') (hind : scene.Tolerates c chosen s) :
    (scene.split chosen).fails s' w' = scene.fails s w := by
  rw [fails, fails]
  rcases start?_split hgraph h with ⟨hs, hs'⟩ | ⟨g, g', p, p', hs, hs', hsplits, hu, hu', hp, hp'⟩
  · rw [hs, hs']
  · rw [hs, hs']
    exact congrArg (!·) ((accords h hw hind).coverage hsplits hu hu' hp hp')

end Starting

end Searching

end Scene

end JniContracts
