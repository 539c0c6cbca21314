import JniContracts.Proofs.Gathering
import JniContracts.Proofs.NamePattern

/-!
Names with several metavariables. A text can be an instance of such a name in more than one way.
Which one is chosen does not depend on the bindings: it is the one that gives the first variable the
shortest value, then the second, and so on. The bindings are compared with this choice alone, so
that a match can be missed.
-/

namespace JniContracts

namespace NamePattern

open Segment

variable {s : Bindings} {p t : String} {v : String} {segs : List Segment} {cs : List Char}

abbrev Values := List (String × List Char)

def Values.text (found : Values) (v : String) : List Char := (found.lookup v).getD []

def Values.widths (found : Values) : List Nat := found.map fun e => e.2.length

def unread (found : Values) (segs : List Segment) : List String :=
  ((names segs).filter fun v => (found.lookup v).isNone).eraseDups

/-- One way to read a text as segments: `new` are the values of the variables that have none yet. -/
structure Reads (found : Values) (segs : List Segment) (cs : List Char) (new : Values) : Prop where
  vars : new.map Prod.fst = unread found segs
  inner : ∀ e ∈ new, e.2 ≠ [] ∧ e.2.all isInner = true
  text : cs = segs.flatMap (expand (found ++ new).text)

variable {found : Values} {new : Values}

theorem Reads.nodup (h : Reads found segs cs new) : (new.map Prod.fst).Nodup := by
  rw [h.vars]
  exact nodup_eraseDups _

theorem lookup_append_of_some {found new : Values} {x : List Char} (h : found.lookup v = some x) :
    (found ++ new).lookup v = some x := by
  rw [List.lookup_append, h]
  rfl

theorem reads_nil : Reads found [] cs new ↔ cs = [] ∧ new = [] := by
  constructor
  · intro h
    exact ⟨h.text, List.map_eq_nil_iff.mp h.vars⟩
  · rintro ⟨rfl, rfl⟩
    exact ⟨rfl, by simp, rfl⟩

theorem reads_char {c : Char} :
    Reads found (.char c :: segs) cs new ↔ ∃ rest, cs = c :: rest ∧ Reads found segs rest new := by
  constructor
  · intro h
    exact ⟨_, h.text, h.vars, h.inner, rfl⟩
  · rintro ⟨rest, rfl, h⟩
    exact ⟨h.vars, h.inner, congrArg (c :: ·) h.text⟩

theorem reads_known {x : List Char} (hv : found.lookup v = some x) :
    Reads found (.var v :: segs) cs new ↔ ∃ rest, cs = x ++ rest ∧ Reads found segs rest new := by
  have hvars : unread found (.var v :: segs) = unread found segs := by simp [unread, hv]
  have htext : (found ++ new).text v = x := by
    rw [Values.text, lookup_append_of_some hv, Option.getD_some]
  constructor
  · intro h
    refine ⟨_, ?_, hvars ▸ h.vars, h.inner, rfl⟩
    rw [← htext]
    exact h.text
  · rintro ⟨rest, rfl, h⟩
    refine ⟨hvars.symm ▸ h.vars, h.inner, ?_⟩
    rw [List.flatMap_cons, expand, htext, ← h.text]

theorem unread_new (hv : found.lookup v = none) (x : List Char) (segs : List Segment) :
    unread found (.var v :: segs) = v :: unread (found ++ [(v, x)]) segs := by
  have hfilter :
      ∀ u, ((found ++ [(v, x)]).lookup u).isNone = ((!u == v) && (found.lookup u).isNone) := by
    intro u
    rw [List.lookup_append, Bindings.lookup_cons_ite, List.lookup_nil]
    by_cases hu : u = v <;> cases found.lookup u <;> simp [hu]
  simp only [unread, names_var, List.filter_cons, hv, Option.isNone_none, if_true,
    List.eraseDups_cons, List.filter_filter, hfilter]

theorem reads_new (hv : found.lookup v = none) :
    Reads found (.var v :: segs) cs new ↔ ∃ x rest more, new = (v, x) :: more ∧ x ≠ [] ∧
      x.all isInner = true ∧ cs = x ++ rest ∧ Reads (found ++ [(v, x)]) segs rest more := by
  have htext : ∀ x more, (found ++ (v, x) :: more).text v = x := by
    intro x more
    rw [Values.text, List.lookup_append, hv, Bindings.lookup_cons_ite, if_pos rfl]
    rfl
  constructor
  · intro h
    have hvars := h.vars
    rw [unread_new hv []] at hvars
    obtain ⟨⟨u, x⟩, more, rfl, hu, -⟩ := List.map_eq_cons_iff.mp hvars
    obtain rfl : u = v := hu
    have hmore := h.vars
    rw [unread_new hv x, List.map_cons, List.cons.injEq] at hmore
    obtain ⟨hx, hin⟩ := h.inner _ List.mem_cons_self
    refine ⟨x, _, more, rfl, hx, hin, ?_, hmore.2,
      fun e he => h.inner e (List.mem_cons_of_mem _ he), rfl⟩
    have hcs := h.text
    rw [List.flatMap_cons, expand, htext] at hcs
    rwa [List.append_assoc]
  · rintro ⟨x, rest, more, rfl, hx, hin, rfl, h⟩
    refine ⟨?_, ?_, ?_⟩
    · rw [unread_new hv x, List.map_cons, h.vars]
    · rintro e he
      rcases List.mem_cons.mp he with rfl | he
      · exact ⟨hx, hin⟩
      · exact h.inner e he
    · have hcs := h.text
      rw [List.append_assoc] at hcs
      rw [List.flatMap_cons, expand, htext, hcs]
      rfl

/-- Shorter first parts come first. -/
theorem cuts_pairwise (cs : List Char) : (cuts cs).Pairwise fun a b => a.1.length < b.1.length := by
  induction cs with
  | nil => exact .nil
  | cons c rest ih =>
    rw [cuts]
    refine .cons (fun a ha => ?_) (List.pairwise_map.mpr (ih.imp fun h => by simpa using h))
    obtain ⟨⟨x, y⟩, hxy, rfl⟩ := List.mem_map.mp ha
    have hx : x ≠ [] := (mem_cuts.mp hxy).1
    simpa using List.length_pos_iff.mpr hx

/-- A reading in front of all others: at the first variable with different values it has the shorter
one. -/
def First (found : Values) (segs : List Segment) (cs : List Char) (new : Values) : Prop :=
  Reads found segs cs new ∧
    ∀ new', Reads found segs cs new' → new' = new ∨ List.Lex (· < ·) new.widths new'.widths

def Solves (found : Values) (segs : List Segment) (cs : List Char) : Option Values → Prop
  | none => ∀ new, ¬ Reads found segs cs new
  | some found' => ∃ new, found' = found ++ new ∧ First found segs cs new

theorem Solves.congr {segs segs' : List Segment} {cs cs' : List Char} {r : Option Values}
    (h : Solves found segs cs r) (hr : ∀ new, Reads found segs' cs' new ↔ Reads found segs cs new) :
    Solves found segs' cs' r := by
  cases r with
  | none => exact fun new hnew => h new ((hr new).mp hnew)
  | some found' =>
    obtain ⟨new, hnew, hreads, hfirst⟩ := h
    exact ⟨new, hnew, (hr new).mpr hreads, fun new' h' => hfirst new' ((hr new').mp h')⟩

theorem solve_new (hv : found.lookup v = none) (segs : List Segment) (cs : List Char) :
    solve (.var v :: segs) cs found = (cuts cs).findSome? fun e =>
      if e.1.all isInner then solve segs e.2 (found ++ [(v, e.1)]) else none := by
  rw [solve, hv]

/-- The value of a variable is the shortest with which the rest can be read. -/
theorem solves_new (hv : found.lookup v = none)
    (ih : ∀ (found : Values) (cs : List Char), Solves found segs cs (solve segs cs found))
    (cs : List Char) : Solves found (.var v :: segs) cs (solve (.var v :: segs) cs found) := by
  rw [solve_new hv]
  cases hfind : (cuts cs).findSome? fun e => if e.1.all isInner then solve segs e.2
    (found ++ [(v, e.1)]) else none with
  | none =>
    intro new hnew
    obtain ⟨x, rest, more, -, hx, hin, rfl, hmore⟩ := (reads_new hv).mp hnew
    have hcut := List.findSome?_eq_none_iff.mp hfind (x, rest) (mem_cuts.mpr ⟨hx, rfl⟩)
    simp only [hin, if_true] at hcut
    have hsolve := ih (found ++ [(v, x)]) rest
    rw [hcut] at hsolve
    exact hsolve more hmore
  | some found' =>
    obtain ⟨before, ⟨x, rest⟩, behind, hcuts, hx, hbefore⟩ := List.findSome?_eq_some_iff.mp hfind
    have hmem : (x, rest) ∈ cuts cs := by simp [hcuts]
    obtain ⟨hne, hcs⟩ := mem_cuts.mp hmem
    by_cases hin : x.all isInner = true
    · simp only [hin, if_true] at hx
      have hsolve := ih (found ++ [(v, x)]) rest
      rw [hx] at hsolve
      obtain ⟨more, hmore, hreads, hfirst⟩ := hsolve
      refine ⟨(v, x) :: more, by simpa using hmore,
        (reads_new hv).mpr ⟨x, rest, more, rfl, hne, hin, hcs, hreads⟩, ?_⟩
      intro new' hnew'
      obtain ⟨x', rest', more', rfl, hne', hin', hcs', hmore'⟩ := (reads_new hv).mp hnew'
      have hmem' : (x', rest') ∈ before ++ (x, rest) :: behind := hcuts ▸ mem_cuts.mpr ⟨hne', hcs'⟩
      -- The other reading's first value was tried before, is the same, or is longer.
      rcases List.mem_append.mp hmem' with hbef | hcons
      · have hnone := hbefore _ hbef
        simp only [hin', if_true] at hnone
        have hsolve' := ih (found ++ [(v, x')]) rest'
        rw [hnone] at hsolve'
        exact absurd hmore' (hsolve' more')
      · rcases List.mem_cons.mp hcons with heq | hbeh
        · cases heq
          exact (hfirst more' hmore').imp (fun h => by rw [h]) fun h => .cons h
        · have hpairs := cuts_pairwise cs
          rw [hcuts] at hpairs
          exact .inr (.rel ((List.pairwise_cons.mp (List.pairwise_append.mp hpairs).2.1).1 _ hbeh))
    · simp [hin] at hx

/-- Solving finds the first reading whenever there is one. -/
theorem solves (found : Values) (segs : List Segment) (cs : List Char) :
    Solves found segs cs (solve segs cs found) := by
  induction segs generalizing found cs with
  | nil =>
    cases cs with
    | nil =>
      refine ⟨[], by simp, reads_nil.mpr ⟨rfl, rfl⟩, fun new' h' => .inl (reads_nil.mp h').2⟩
    | cons d rest => exact fun new h => by cases (reads_nil.mp h).1
  | cons seg segs ih =>
    cases seg with
    | char c =>
      cases cs with
      | nil =>
        intro new h
        obtain ⟨rest, hrest, -⟩ := reads_char.mp h
        cases hrest
      | cons d rest =>
        by_cases hcd : c = d
        · subst hcd
          simp only [solve, beq_self_eq_true, if_true]
          exact (ih found rest).congr fun new => by simp [reads_char]
        · simp only [solve, beq_iff_eq, hcd, if_false]
          intro new h
          obtain ⟨rest', hrest, -⟩ := reads_char.mp h
          exact hcd (List.cons.inj hrest).1.symm
    | var v =>
      cases hv : found.lookup v with
      | none => exact solves_new hv ih cs
      | some x =>
        simp only [solve, hv]
        cases hd : dropStart? x cs with
        | none =>
          intro new h
          obtain ⟨rest, hrest, -⟩ := (reads_known hv).mp h
          rw [dropStart?_eq_some.mpr hrest] at hd
          cases hd
        | some rest =>
          have hcs := dropStart?_eq_some.mp hd
          exact (ih found rest).congr fun new => by simp [reads_known hv, hcs]

/-- Bindings make a text out of a name with metavariables: each variable of the name has a value
that is not empty, and in a longer name one made of characters that can stand there. -/
def Fits (s : Bindings) (p t : String) : Prop :=
  fillIn p s = t ∧ ∀ v ∈ metavariables p, ∃ x, s.get? v = some x ∧ x ≠ "" ∧
    (soleVariable? p = none → x.toList.all isInner = true)

def widths (p : String) (s : Bindings) : List Nat :=
  (metavariables p).map fun v => ((s.get? v).getD "").toList.length

def readingOf (p : String) (s : Bindings) : Values :=
  (metavariables p).map fun v => (v, ((s.get? v).getD "").toList)

theorem widths_readingOf (p : String) (s : Bindings) : (readingOf p s).widths = widths p s := by
  simp [readingOf, widths, Values.widths, Function.comp_def]

theorem unread_split (p : String) : unread [] (split p) = metavariables p := by
  simp [unread, metavariables, names]

theorem lookup_map {β : Type} (f : String → β) {l : List String} (hv : v ∈ l) :
    (l.map fun u => (u, f u)).lookup v = some (f v) := by
  induction l with
  | nil => cases hv
  | cons u l ih =>
    rw [List.map_cons, Bindings.lookup_cons_ite]
    split
    · rename_i h
      rw [h]
    · rename_i h
      exact ih ((List.mem_cons.mp hv).resolve_left h)

/-- In a longer name, bindings that fit are readings. -/
theorem reads_of_fits (hp : soleVariable? p = none) (h : Fits s p t) :
    Reads [] (split p) t.toList (readingOf p s) := by
  refine ⟨?_, ?_, ?_⟩
  · rw [unread_split]
    simp [readingOf, Function.comp_def]
  · intro e he
    obtain ⟨v, hv, rfl⟩ := List.mem_map.mp he
    obtain ⟨x, hx, hne, hin⟩ := h.2 v hv
    simp only [hx, Option.getD_some]
    exact ⟨fun hnil => hne (String.toList_inj.mp hnil), hin hp⟩
  · rw [← h.1, toList_fillIn]
    refine expand_congr fun v hv => ?_
    have hmem := mem_metavariables.mpr hv
    obtain ⟨x, hx, -⟩ := h.2 v hmem
    rw [List.nil_append, Values.text, readingOf, lookup_map _ hmem]
    simp [value, hx]

theorem fits_of_reads (h : Reads [] (split p) t.toList new)
    (hs : ∀ e ∈ new, s.get? e.1 = some (String.ofList e.2)) : Fits s p t ∧ readingOf p s = new := by
  have hvars : new.map Prod.fst = metavariables p := h.vars.trans (unread_split p)
  have hreading : readingOf p s = new := by
    rw [readingOf, ← hvars, List.map_map]
    refine (List.map_congr_left fun e he => ?_).trans (List.map_id new)
    simp [hs e he]
  have hvalue :
      ∀ v ∈ metavariables p, ∃ e ∈ new, e.1 = v ∧ s.get? v = some (String.ofList e.2) := by
    intro v hv
    rw [← hvars] at hv
    obtain ⟨e, he, rfl⟩ := List.mem_map.mp hv
    exact ⟨e, he, rfl, hs e he⟩
  refine ⟨⟨?_, fun v hv => ?_⟩, hreading⟩
  · rw [← String.toList_inj, toList_fillIn, h.text, ← hreading]
    refine expand_congr fun v hv => ?_
    have hmem := mem_metavariables.mpr hv
    obtain ⟨e, -, -, hx⟩ := hvalue v hmem
    rw [List.nil_append, Values.text, readingOf, lookup_map _ hmem]
    simp [value, hx]
  · obtain ⟨e, he, -, hx⟩ := hvalue v hv
    obtain ⟨hne, hin⟩ := h.inner e he
    refine ⟨_, hx, fun hempty => hne ?_, fun _ => by rwa [String.toList_ofList]⟩
    rw [← String.toList_ofList (l := e.2), hempty]
    rfl

theorem bindAll_sound {b b' : Bindings} (h : bindAll found b = some b') :
    b.Adds (found.map Prod.fst) b' ∧ ∀ e ∈ found, b'.get? e.1 = some (String.ofList e.2) := by
  induction found generalizing b with
  | nil =>
    cases h
    exact ⟨.refl _, by simp⟩
  | cons e found ih =>
    obtain ⟨v, x⟩ := e
    rw [bindAll] at h
    cases hb : b.bind v (String.ofList x) with
    | none => simp [hb] at h
    | some b₁ =>
      simp only [hb] at h
      obtain ⟨hadds, hv⟩ := Bindings.adds_of_bind hb
      obtain ⟨hadds', hall⟩ := ih h
      refine ⟨hadds.trans hadds', fun e he => ?_⟩
      rcases List.mem_cons.mp he with rfl | he
      · exact hadds'.le _ _ hv
      · exact hall e he

theorem bindAll_complete {b s : Bindings} (hle : b ≤ s)
    (h : ∀ e ∈ found, s.get? e.1 = some (String.ofList e.2)) : ∃ b', bindAll found b = some b' := by
  induction found generalizing b with
  | nil => exact ⟨b, rfl⟩
  | cons e found ih =>
    obtain ⟨v, x⟩ := e
    obtain ⟨b₁, hb₁, hle₁⟩ := Bindings.exists_bind hle (h (v, x) List.mem_cons_self)
    obtain ⟨b', hb'⟩ := ih hle₁ fun e he => h e (List.mem_cons_of_mem _ he)
    exact ⟨b', by simp [bindAll, hb₁, hb']⟩

theorem bindAll_fresh (hn : (found.map Prod.fst).Nodup) {b : Bindings}
    (hb : ∀ v ∈ found.map Prod.fst, ¬ b.Binds v) : ∃ b', bindAll found b = some b' := by
  induction found generalizing b with
  | nil => exact ⟨b, rfl⟩
  | cons e found ih =>
    obtain ⟨v, x⟩ := e
    obtain ⟨hv, hn⟩ := List.nodup_cons.mp hn
    have hnone : b.get? v = none := by simpa [Bindings.Binds] using hb v List.mem_cons_self
    have hbind : b.bind v (String.ofList x) = some (b.insert v (String.ofList x)) := by
      simp [Bindings.bind, hnone]
    obtain ⟨b', hb'⟩ := ih hn (b := b.insert v (String.ofList x)) fun u hu => by
      have hne : u ≠ v := fun h => hv (h ▸ hu)
      simpa [Bindings.Binds, hne] using hb u (List.mem_cons_of_mem _ hu)
    exact ⟨b', by simp [bindAll, hbind, hb']⟩

/-- Bindings that fit, with values in front of all others that fit: at the first variable with
another length the value is shorter. -/
def FitsFirst (s : Bindings) (p t : String) : Prop :=
  Fits s p t ∧ ∀ s', Fits s' p t → ¬ List.Lex (· < ·) (widths p s') (widths p s)

theorem fits_sole {p t v : String} (hp : soleVariable? p = some v) :
    Fits s p t ↔ t ≠ "" ∧ s.get? v = some t := by
  have hfill : ∀ x, s.get? v = some x → fillIn p s = x := by
    intro x hx
    rw [← String.toList_inj, toList_fillIn, split_of_sole hp]
    simp [expand, value, hx]
  rw [Fits, metavariables_of_sole hp]
  constructor
  · rintro ⟨rfl, hvars⟩
    obtain ⟨x, hx, hne, -⟩ := hvars v List.mem_cons_self
    rw [hfill x hx]
    exact ⟨hne, hx⟩
  · rintro ⟨hne, hv⟩
    refine ⟨hfill t hv, fun u hu => ?_⟩
    rw [List.mem_singleton.mp hu]
    exact ⟨t, hv, hne, by simp [hp]⟩

theorem fitsFirst_sole {p t v : String} (hp : soleVariable? p = some v) (h : Fits s p t) :
    FitsFirst s p t := by
  have hwidths : ∀ s', Fits s' p t → widths p s' = [t.toList.length] := by
    intro s' hs'
    simp [widths, metavariables_of_sole hp, ((fits_sole hp).mp hs').2]
  refine ⟨h, fun s' hs' => ?_⟩
  rw [hwidths s' hs', hwidths s h]
  exact List.lt_irrefl _

/-- In a longer name, bindings fit first if their values are the first reading. -/
theorem fitsFirst_iff (hp : soleVariable? p = none) (h : Fits s p t)
    (hnew : First [] (split p) t.toList new) : FitsFirst s p t ↔ readingOf p s = new := by
  have hreads := reads_of_fits hp h
  constructor
  · rintro ⟨-, hmin⟩
    rcases hnew.2 _ hreads with heq | hlex
    · exact heq
    · -- The first reading's values, as bindings of nothing else, come before.
      obtain ⟨s', hs'⟩ := bindAll_fresh hnew.1.nodup (b := .empty) fun v _ => by
        simp [Bindings.Binds, Bindings.empty, Bindings.get?]
      obtain ⟨hfits, hreading⟩ := fits_of_reads hnew.1 (bindAll_sound hs').2
      rw [← hreading, widths_readingOf, widths_readingOf] at hlex
      exact absurd hlex (hmin s' hfits)
  · rintro rfl
    refine ⟨h, fun s' hs' hlex => ?_⟩
    rw [← widths_readingOf, ← widths_readingOf] at hlex
    rcases hnew.2 _ (reads_of_fits hp hs') with heq | hlt
    · rw [heq] at hlex
      exact List.lt_irrefl _ hlex
    · exact List.lt_asymm hlex hlt

theorem exists_first (hp : soleVariable? p = none) (h : Fits s p t) :
    ∃ new, solve (split p) t.toList [] = some new ∧ First [] (split p) t.toList new := by
  have hsolves := solves [] (split p) t.toList
  cases hsolve : solve (split p) t.toList [] with
  | none =>
    rw [hsolve] at hsolves
    exact absurd (reads_of_fits hp h) (hsolves _)
  | some found =>
    rw [hsolve] at hsolves
    obtain ⟨new, hfound, hfirst⟩ := hsolves
    exact ⟨new, by rw [hfound, List.nil_append], hfirst⟩

theorem fitsFirst_of_match? {b b' : Bindings} (h : match? p t b = some b') :
    b.Adds (metavariables p) b' ∧ FitsFirst b' p t := by
  cases hp : soleVariable? p with
  | some v =>
    rw [match?_sole hp] at h
    split at h
    · cases h
    · rename_i hc
      obtain ⟨hadds, hget⟩ := Bindings.adds_of_bind h
      simp only [Bool.or_eq_true, beq_iff_eq, not_or] at hc
      rw [metavariables_of_sole hp]
      exact ⟨hadds, fitsFirst_sole hp ((fits_sole hp).mpr ⟨hc.1, hget⟩)⟩
  | none =>
    rw [match?_solve hp] at h
    obtain ⟨found, hsolve, hbind⟩ := Option.bind_eq_some_iff.mp h
    have hsolves := solves [] (split p) t.toList
    rw [hsolve] at hsolves
    obtain ⟨new, hnew, hfirst⟩ := hsolves
    rw [List.nil_append] at hnew
    subst hnew
    obtain ⟨hadds, hvalues⟩ := bindAll_sound hbind
    obtain ⟨hfits, hreading⟩ := fits_of_reads hfirst.1 hvalues
    rw [hfirst.1.vars, unread_split] at hadds
    exact ⟨hadds, (fitsFirst_iff hp hfits hfirst).mpr hreading⟩

theorem instance_of_fits (ht : '\n' ∉ t.toList) (h : Fits s p t) : Instance s p t := by
  cases hp : soleVariable? p with
  | some v =>
    obtain ⟨hne, hv⟩ := (fits_sole hp).mp h
    exact .whole hp hv hne ht
  | none =>
    by_cases hvars : metavariables p = []
    · exact .plain hvars (h.1.symm.trans (fillIn_of_metavariables_nil hvars s))
    · refine .embedded hp hvars (fun v hv => ?_) h.1.symm
      obtain ⟨x, hx, hne, hin⟩ := h.2 v hv
      exact ⟨x, hx, hne, hin hp⟩

/-- With one variable at most there is only one way to fit, and it is found. -/
theorem match?_of_fits (ht : '\n' ∉ t.toList) (hp : (metavariables p).length ≤ 1)
    {b : Bindings} (hle : b ≤ s) (h : Fits s p t) : (match? p t b).isSome := by
  obtain ⟨b', hb', -⟩ := match?_complete hp hle (instance_of_fits ht h)
  simp [hb']

theorem match?_of_fitsFirst (ht : '\n' ∉ t.toList) {b : Bindings} (hle : b ≤ s)
    (h : FitsFirst s p t) : (match? p t b).isSome := by
  cases hp : soleVariable? p with
  | some v => exact match?_of_fits ht (by simp [metavariables_of_sole hp]) hle h.1
  | none =>
    obtain ⟨new, hsolve, hfirst⟩ := exists_first hp h.1
    have hreading := (fitsFirst_iff hp h.1 hfirst).mp h
    have hvalues : ∀ e ∈ new, s.get? e.1 = some (String.ofList e.2) := by
      intro e he
      rw [← hreading] at he
      obtain ⟨v, hv, rfl⟩ := List.mem_map.mp he
      obtain ⟨x, hx, -⟩ := h.1.2 v hv
      simp [hx]
    obtain ⟨b', hb'⟩ := bindAll_complete hle hvalues
    simp [match?_solve hp, hsolve, hb']

/-- Variables without earlier values leave the choice free. -/
theorem match?_of_unbound (ht : '\n' ∉ t.toList) {b : Bindings}
    (hb : ∀ v ∈ metavariables p, ¬ b.Binds v) (hle : b ≤ s) (h : Fits s p t) :
    (match? p t b).isSome := by
  cases hp : soleVariable? p with
  | some v => exact match?_of_fits ht (by simp [metavariables_of_sole hp]) hle h
  | none =>
    obtain ⟨new, hsolve, hfirst⟩ := exists_first hp h
    have hvars : new.map Prod.fst = metavariables p := hfirst.1.vars.trans (unread_split p)
    obtain ⟨b', hb'⟩ := bindAll_fresh hfirst.1.nodup (hvars ▸ hb)
    simp [match?_solve hp, hsolve, hb']

/-- A match extends the bindings so that the name becomes the text. There is one just if the
bindings extend to the first of all values that make the name the text. This is all there is to find
when no variable of the name has a value yet, or when it has one variable at most. -/
theorem match?_takes_first_reading {p t : String} (ht : '\n' ∉ t.toList) (b : Bindings) :
    (∀ b', match? p t b = some b' → b.Adds (metavariables p) b' ∧ Fits b' p t) ∧
    ((match? p t b).isSome ↔ ∃ s, b.Adds (metavariables p) s ∧ FitsFirst s p t) ∧
    ((∀ v ∈ metavariables p, ¬ b.Binds v) ∨ (metavariables p).length ≤ 1 →
      ((match? p t b).isSome ↔ ∃ s, b.Adds (metavariables p) s ∧ Fits s p t)) := by
  have hfound : (match? p t b).isSome → ∃ s, b.Adds (metavariables p) s ∧ FitsFirst s p t := by
    intro h
    obtain ⟨b', hb'⟩ := Option.isSome_iff_exists.mp h
    exact ⟨b', fitsFirst_of_match? hb'⟩
  refine ⟨?_, ⟨hfound, ?_⟩, fun hfew => ⟨?_, ?_⟩⟩
  · intro b' hb'
    obtain ⟨hadds, hfits, -⟩ := fitsFirst_of_match? hb'
    exact ⟨hadds, hfits⟩
  · rintro ⟨s, hadds, hfits⟩
    exact match?_of_fitsFirst ht hadds.le hfits
  · intro h
    obtain ⟨s, hadds, hfits, -⟩ := hfound h
    exact ⟨s, hadds, hfits⟩
  · rintro ⟨s, hadds, hfits⟩
    rcases hfew with hfree | hone
    · exact match?_of_unbound ht hfree hadds.le hfits
    · exact match?_of_fits ht hone hadds.le hfits

/-- A value of the first variable that is the shortest one agrees with the choice, as no values at
all do. -/
theorem match?_takes_first_reading_bound :
    '\n' ∉ "GetXOfYOfZ".toList ∧
    (∃ s, (Bindings.ofList [("A", "X")]).Adds (metavariables "Get$AOf$B") s ∧
      FitsFirst s "Get$AOf$B" "GetXOfYOfZ") ∧
    ∃ s, Bindings.empty.Adds (metavariables "Get$AOf$B") s ∧ Fits s "Get$AOf$B" "GetXOfYOfZ" :=
  ⟨by decide +kernel, (match?_takes_first_reading (by decide +kernel) _).2.1.mp (by decide +kernel),
    ((match?_takes_first_reading (by decide +kernel) _).2.2 (.inl (by decide +kernel))).mp
    (by decide +kernel)⟩

/-- An earlier value of the last variable rules the first reading out, and another one that agrees
with it is missed. -/
theorem match?_misses_later_reading :
    match? "Get$AOf$B" "GetXOfYOfZ" (.ofList [("B", "Z")]) = none ∧
    (Bindings.ofList [("B", "Z")]).Adds (metavariables "Get$AOf$B")
      (.ofList [("A", "XOfY"), ("B", "Z")]) ∧
    Fits (.ofList [("A", "XOfY"), ("B", "Z")]) "Get$AOf$B" "GetXOfYOfZ" := by
  have hvars : metavariables "Get$AOf$B" = ["A", "B"] := by decide +kernel
  have hbind : bindAll [("A", "XOfY".toList), ("B", "Z".toList)] (.ofList [("B", "Z")]) =
      some (.ofList [("A", "XOfY"), ("B", "Z")]) := by decide +kernel
  refine ⟨by decide +kernel, ?_, by decide +kernel, ?_⟩
  · rw [hvars]
    exact (bindAll_sound hbind).1
  · rw [hvars]
    intro v hv
    rcases List.mem_cons.mp hv with rfl | hv
    · exact ⟨"XOfY", by decide +kernel, by decide +kernel, fun _ => by decide +kernel⟩
    · rw [List.mem_singleton.mp hv]
      exact ⟨"Z", by decide +kernel, by decide +kernel, fun _ => by decide +kernel⟩

end NamePattern

end JniContracts
