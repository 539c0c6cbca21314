import JniContracts.Scan
import JniContracts.Proofs.Sorting
import Mathlib.Data.List.Induction
import Mathlib.Logic.Relation

/-!
Scans by several workers. Each file is taken up by one worker, which tells the collector about it
once: it adds the report on the file, or it skips the file if the scan was stopped by then. In which
order the workers come to that does not show in the result.
-/

namespace JniContracts

/-- The records of some files in order: none is lost or doubled, and records with equal keys stand
as in the report on their file. -/
structure Merges {α : Type} (order : α → α → Ordering) (file : α → String)
  (records : String → List α) (files : List String) (l : List α) : Prop where
  complete : l.Perm (files.flatMap records)
  ascending : Ascending order l
  ties : ∀ f ∈ files, ∀ x, file x = f → alike order x l = alike order x (records f)

section Merges

variable {α : Type} {order : α → α → Ordering} [Std.TransCmp order] {file : α → String}
  {records : String → List α} {files arrivals : List String} {l l' : List α}

theorem merges_sortBy (horder : ∀ a b, order a b = .eq → file a = file b) (hfiles : files.Nodup)
    (hown : ∀ f ∈ files, ∀ x ∈ records f, file x = f) (h : arrivals.Perm files) :
    Merges order file records files (sortBy order (arrivals.flatMap records)) where
  complete := (sortBy_perm order _).trans (h.flatMap_right records)
  ascending := ascending_sortBy _
  ties f hf x hx := by
    have hnodup : (arrivals.map id).Nodup := by rwa [List.map_id, h.nodup_iff]
    rw [alike_sortBy]
    exact alike_flatMap_of_mem id file horder hnodup (fun f hf => hown f (h.mem_iff.mp hf))
      (h.mem_iff.mpr hf) hx

theorem Merges.unique (hown : ∀ f ∈ files, ∀ x ∈ records f, file x = f)
    (horder : ∀ a b, order a b = .eq → file a = file b) (h : Merges order file records files l)
    (h' : Merges order file records files l') : l = l' := by
  refine eq_of_alike h.ascending h'.ascending fun x => ?_
  by_cases hx : file x ∈ files
  · rw [h.ties _ hx x rfl, h'.ties _ hx x rfl]
  · -- a record with this key would be of a file that is not among these
    have hnone : ∀ {m}, Merges order file records files m → alike order x m = [] := by
      intro m hm
      refine List.filter_eq_nil_iff.mpr fun y hy heq => hx ?_
      obtain ⟨f, hf, hyf⟩ := List.mem_flatMap.mp (hm.complete.mem_iff.mp hy)
      rw [horder x y (by simpa using heq), hown f hf y hyf]
      exact hf
    rw [hnone h, hnone h']

end Merges

structure FileReport.About (r : FileReport) (file : String) : Prop where
  findings : ∀ x ∈ r.findings, x.file = file
  diagnostics : ∀ d ∈ r.diagnostics, d.file = file

structure ScanResult.Covers (r : ScanResult) (files : List String) (started : String → Bool)
    (report : String → FileReport) : Prop where
  findings : Merges Finding.order Finding.file (fun f => (report f).findings)
    (files.filter started) r.findings
  diagnostics : Merges Diagnostic.order Diagnostic.file (fun f => (report f).diagnostics)
    (files.filter started) r.diagnostics
  scanned : r.filesScanned = (files.filter started).length
  skipped : r.filesSkipped = files.length - (files.filter started).length
  incomplete : r.incomplete = true ↔ ∃ f ∈ files, started f = false

namespace Collector

def receive (report : String → FileReport) (started : String → Bool) (c : Collector)
    (file : String) : Collector :=
  if started file then c.add (report file) else c.skip

def collect (report : String → FileReport) (started : String → Bool) (arrivals : List String) :
    Collector :=
  arrivals.foldl (receive report started) {}

variable {report : String → FileReport} {started : String → Bool} {files arrivals : List String}

theorem collect_snoc (arrivals : List String) (f : String) :
    collect report started (arrivals ++ [f]) =
    (collect report started arrivals).receive report started f := by
  rw [collect, List.foldl_append, List.foldl_cons, List.foldl_nil, collect]

/-- Each call adds the records of its file at the end, or counts the file as skipped. -/
theorem collect_eq (arrivals : List String) : collect report started arrivals =
    ⟨(arrivals.filter started).flatMap fun f => (report f).findings,
      (arrivals.filter started).flatMap fun f => (report f).diagnostics,
      (arrivals.filter started).length, arrivals.length - (arrivals.filter started).length⟩ := by
  induction arrivals using List.reverseRecOn with
  | nil => rfl
  | append_singleton arrivals f ih =>
    have hle := List.length_filter_le started arrivals
    rw [collect_snoc, ih, receive]
    cases hf : started f with
    | true => simp [add, List.filter_append, hf]
    | false =>
      simp only [Bool.false_eq_true, if_false, skip, List.filter_append, List.filter_cons,
        List.filter_nil, hf, List.append_nil, List.length_append, List.length_cons, List.length_nil,
        mk.injEq, true_and]
      omega

theorem collect_congr {started' : String → Bool} (h : ∀ f ∈ arrivals, started f = started' f) :
    collect report started arrivals = collect report started' arrivals := by
  rw [collect_eq, collect_eq, List.filter_congr h]

theorem filter_length_lt :
    (files.filter started).length < files.length ↔ ∃ f ∈ files, started f = false := by
  rw [List.length_filter_lt_length_iff_exists]
  simp

theorem covers_of_arrivals (hfiles : files.Nodup) (hown : ∀ f ∈ files, (report f).About f)
    (h : arrivals.Perm files) :
    (collect report started arrivals).result.Covers files started report := by
  have hstarted : (files.filter started).Nodup := hfiles.filter _
  have hperm : (arrivals.filter started).Perm (files.filter started) := h.filter _
  have hmem : ∀ {f}, f ∈ files.filter started → f ∈ files := fun hf => (List.mem_filter.mp hf).1
  have hle := List.length_filter_le started files
  rw [collect_eq, hperm.length_eq, h.length_eq]
  refine ⟨?_, ?_, rfl, ?_, ?_⟩
  · exact merges_sortBy (fun _ _ hab => (Finding.order_eq hab).1) hstarted
      (fun f hf => (hown f (hmem hf)).findings) hperm
  · exact merges_sortBy (fun _ _ hab => (Diagnostic.order_eq hab).1) hstarted
      (fun f hf => (hown f (hmem hf)).diagnostics) hperm
  · simp only [result]
    omega
  · simp only [result, decide_eq_true_eq, ← filter_length_lt]
    omega

end Collector

theorem ScanResult.Covers.unique {files : List String} {started : String → Bool}
    {report : String → FileReport} (hown : ∀ f ∈ files, (report f).About f) {r r' : ScanResult}
    (h : r.Covers files started report) (h' : r'.Covers files started report) : r = r' := by
  have hmem : ∀ {f}, f ∈ files.filter started → f ∈ files := fun hf => (List.mem_filter.mp hf).1
  have hfindings :=
    h.findings.unique (fun f hf => (hown f (hmem hf)).findings)
      (fun _ _ hab => (Finding.order_eq hab).1) h'.findings
  have hdiagnostics := h.diagnostics.unique (fun f hf => (hown f (hmem hf)).diagnostics)
    (fun _ _ hab => (Diagnostic.order_eq hab).1) h'.diagnostics
  have hscanned := h.scanned.trans h'.scanned.symm
  have hskipped := h.skipped.trans h'.skipped.symm
  have hincomplete := Bool.eq_iff_iff.mpr (h.incomplete.trans h'.incomplete.symm)
  cases r
  cases r'
  simp only [ScanResult.mk.injEq]
  exact ⟨hfindings, hdiagnostics, hscanned, hskipped, hincomplete⟩

namespace Scan

/-- How far a worker has come with a file: it has taken it, and then found that the scan goes on or
that it was stopped. -/
inductive Phase where
  | taken
  | going
  | declined
  deriving DecidableEq

structure Pool where
  /-- The files that no worker has taken. -/
  waiting : List String
  busy : List (String × Phase)
  isStopped : Bool
  /-- The files that were started so far. -/
  started : List String
  collected : Collector

namespace Pool

def initial (files : List String) : Pool := ⟨files, [], false, [], {}⟩

def IsDone (p : Pool) : Prop := p.waiting = [] ∧ p.busy = []

/-- What can happen next, with a number of workers: a free worker takes the next file, a worker
looks whether the scan was stopped, a worker tells the collector, or the scan is stopped. -/
inductive Step (workers : Nat) (report : String → FileReport) : Pool → Pool → Prop where
  | take {p f rest} (hwaiting : p.waiting = f :: rest) (hfree : p.busy.length < workers) :
      Step workers report p { p with waiting := rest, busy := p.busy ++ [(f, .taken)] }
  | start {p f before after} (hbusy : p.busy = before ++ (f, .taken) :: after)
      (hgoes : p.isStopped = false) :
      Step workers report p
        { p with busy := before ++ (f, .going) :: after, started := f :: p.started }
  | decline {p f before after} (hbusy : p.busy = before ++ (f, .taken) :: after)
      (hstopped : p.isStopped = true) :
      Step workers report p { p with busy := before ++ (f, .declined) :: after }
  | add {p f before after} (hbusy : p.busy = before ++ (f, .going) :: after) :
      Step workers report p
        { p with busy := before ++ after, collected := p.collected.add (report f) }
  | skip {p f before after} (hbusy : p.busy = before ++ (f, .declined) :: after) :
      Step workers report p { p with busy := before ++ after, collected := p.collected.skip }
  | stop {p} : Step workers report p { p with isStopped := true }

/-- Each file has arrived at the collector, or a worker is on it, or it waits; and of these the
started ones are those that arrived with a report and those that are going. -/
structure Sound (files : List String) (report : String → FileReport) (p : Pool)
  (arrivals : List String) : Prop where
  files : (arrivals ++ (p.busy.map Prod.fst ++ p.waiting)).Perm files
  collected : p.collected = Collector.collect report p.started.contains arrivals
  going : ∀ f ph, (f, ph) ∈ p.busy → (f ∈ p.started ↔ ph = .going)
  waiting : ∀ f ∈ p.waiting, f ∉ p.started

variable {workers : Nat} {report : String → FileReport} {files arrivals : List String} {p p' : Pool}

theorem sound_initial (files : List String) (report : String → FileReport) :
    (initial files).Sound files report [] where
  files := by simp [initial]
  collected := rfl
  going f ph h := by cases h
  waiting f _ h := by cases h

section Step

variable {before after : List (String × Phase)} {f : String} {ph : Phase}

theorem perm_of_busy (h : p.Sound files report arrivals)
    (hbusy : p.busy = before ++ (f, ph) :: after) :
    (f :: (arrivals ++ ((before ++ after).map Prod.fst ++ p.waiting))).Perm files := by
  have hmiddle :
      ((arrivals ++ before.map Prod.fst) ++ f :: (after.map Prod.fst ++ p.waiting)).Perm files := by
    simpa [hbusy] using h.files
  simpa using List.perm_middle.symm.trans hmiddle

/-- A file that a worker is on stands nowhere else. -/
theorem Sound.apart (hfiles : files.Nodup) (h : p.Sound files report arrivals)
    (hbusy : p.busy = before ++ (f, ph) :: after) :
    f ∉ arrivals ∧ f ∉ p.waiting ∧ ∀ g ph', (g, ph') ∈ before ++ after → g ≠ f := by
  have hperm := perm_of_busy h hbusy
  have hf := (List.nodup_cons.mp (hperm.nodup_iff.mpr hfiles)).1
  simp only [List.mem_append, not_or] at hf
  refine ⟨hf.1, hf.2.2, fun g ph' hg heq => hf.2.1 ?_⟩
  exact List.mem_map.mpr ⟨(g, ph'), hg, heq⟩

theorem Sound.going_on (hfiles : files.Nodup) (h : p.Sound files report arrivals)
    (hbusy : p.busy = before ++ (f, ph) :: after) {started : List String} {ph' : Phase}
    (hf : f ∈ started ↔ ph' = .going) (hstarted : ∀ g, g ≠ f → (g ∈ started ↔ g ∈ p.started)) :
    Sound files report { p with busy := before ++ (f, ph') :: after, started := started }
      arrivals := by
  obtain ⟨harrivals, hwaiting, hothers⟩ := h.apart hfiles hbusy
  refine ⟨?_, ?_, fun g ph'' hg => ?_, fun g hg => ?_⟩
  · simpa [hbusy] using h.files
  · rw [h.collected]
    refine Collector.collect_congr fun g hg => ?_
    rw [Bool.eq_iff_iff, List.contains_iff_mem, List.contains_iff_mem,
      hstarted g fun heq => harrivals (heq ▸ hg)]
  · by_cases hself : (g, ph'') = (f, ph')
    · cases hself
      exact hf
    · have hg' : (g, ph'') ∈ before ++ after := by
        simp only [List.mem_append, List.mem_cons, hself, false_or] at hg ⊢
        exact hg
      rw [hstarted g (hothers g ph'' hg')]
      refine h.going g ph'' ?_
      rw [hbusy]
      simp only [List.mem_append, List.mem_cons] at hg' ⊢
      exact hg'.imp_right .inr
  · rw [hstarted g fun heq => hwaiting (heq ▸ hg)]
    exact h.waiting g hg

theorem Sound.arrive (h : p.Sound files report arrivals)
    (hbusy : p.busy = before ++ (f, ph) :: after) :
    Sound files report
      { p with
        busy := before ++ after
        collected := p.collected.receive report p.started.contains f }
      (arrivals ++ [f]) := by
  have hperm := perm_of_busy h hbusy
  refine ⟨?_, ?_, fun g ph' hg => h.going g ph' ?_, h.waiting⟩
  · rw [List.append_assoc]
    exact List.perm_middle.trans hperm
  · rw [Collector.collect_snoc, h.collected]
  · rw [hbusy]
    simp only [List.mem_append, List.mem_cons] at hg ⊢
    exact hg.imp_right .inr

end Step

theorem Sound.step (hfiles : files.Nodup) (h : p.Sound files report arrivals)
    (hstep : Step workers report p p') : ∃ arrivals', p'.Sound files report arrivals' := by
  cases hstep with
  | @take f rest hwaiting hfree =>
    have hfresh : f ∉ p.started := h.waiting f (hwaiting ▸ List.mem_cons_self)
    refine ⟨arrivals, ?_, h.collected, fun g ph hg => ?_, fun g hg => ?_⟩
    · simpa [hwaiting] using h.files
    · rcases List.mem_append.mp hg with hg | hg
      · exact h.going g ph hg
      · cases List.mem_singleton.mp hg
        simp [hfresh]
    · exact h.waiting g (hwaiting ▸ List.mem_cons_of_mem _ hg)
  | @start f before after hbusy hgoes =>
    exact ⟨arrivals, h.going_on hfiles hbusy (by simp) fun g hg => by simp [hg]⟩
  | @decline f before after hbusy hstopped =>
    have hfresh := h.going f .taken (by simp [hbusy])
    exact ⟨arrivals, h.going_on hfiles hbusy (by simp [hfresh]) fun g _ => Iff.rfl⟩
  | @add f before after hbusy =>
    have hgoing := (h.going f .going (by simp [hbusy])).mpr rfl
    have harrive := h.arrive hbusy
    rw [Collector.receive, if_pos (List.contains_iff_mem.mpr hgoing)] at harrive
    exact ⟨_, harrive⟩
  | @skip f before after hbusy =>
    have hfresh := h.going f .declined (by simp [hbusy])
    have harrive := h.arrive hbusy
    rw [Collector.receive, if_neg (by simp [hfresh])] at harrive
    exact ⟨_, harrive⟩
  | stop => exact ⟨arrivals, h.files, h.collected, h.going, h.waiting⟩

theorem exists_sound (hfiles : files.Nodup)
    (hrun : Relation.ReflTransGen (Step workers report) (initial files) p) :
    ∃ arrivals, p.Sound files report arrivals := by
  induction hrun with
  | refl => exact ⟨[], sound_initial files report⟩
  | tail _ hstep ih =>
    obtain ⟨arrivals, h⟩ := ih
    exact h.step hfiles hstep

end Pool

end Scan

/-- Every order in which files arrive at the collector, and every run of workers to its end, comes
to the one result that covers the files. -/
theorem result_of_any_schedule {files : List String} {report : String → FileReport}
    (hfiles : files.Nodup) (hown : ∀ f ∈ files, (report f).About f) :
    (∀ started arrivals, arrivals.Perm files →
      ∀ r, (Collector.collect report started arrivals).result = r ↔ r.Covers files started report) ∧
    ∀ workers p, Relation.ReflTransGen (Scan.Pool.Step workers report) (.initial files) p →
      p.IsDone → ∀ r, p.collected.result = r ↔ r.Covers files p.started.contains report := by
  have horder : ∀ started arrivals, arrivals.Perm files →
      ∀ r, (Collector.collect report started arrivals).result = r ↔
      r.Covers files started report := by
    intro started arrivals hperm r
    have hcovers : (Collector.collect report started arrivals).result.Covers files started report :=
      Collector.covers_of_arrivals hfiles hown hperm
    exact ⟨fun h => h ▸ hcovers, fun h => hcovers.unique hown h⟩
  refine ⟨horder, fun workers p hrun hdone r => ?_⟩
  obtain ⟨arrivals, hsound⟩ := Scan.Pool.exists_sound hfiles hrun
  have hperm := hsound.files
  rw [hdone.1, hdone.2, List.map_nil, List.append_nil, List.append_nil] at hperm
  rw [hsound.collected]
  exact horder _ _ hperm r

def tiedReport (file : String) : FileReport :=
  ⟨["x", "y"].map fun value => ⟨"r", file, 1, 1, none, .warning, "m", .ofList [("VAR", value)]⟩, []⟩

open Scan in
/-- Both files are taken, the second is started, the scan is stopped, and the first is skipped. -/
theorem result_of_any_schedule_stopped :
    ∃ p, Relation.ReflTransGen (Pool.Step 2 tiedReport) (.initial ["a.c", "b.c"]) p ∧ p.IsDone ∧
    p.started = ["b.c"] ∧ p.collected.result.Covers ["a.c", "b.c"] p.started.contains tiedReport ∧
    p.collected.result.incomplete = true := by
  have hown : ∀ f ∈ ["a.c", "b.c"], (tiedReport f).About f := fun f _ =>
    ⟨fun x hx => by obtain ⟨_, -, rfl⟩ := List.mem_map.mp hx; rfl, fun d hd => by cases hd⟩
  have hrun : Relation.ReflTransGen (Pool.Step 2 tiedReport) (.initial ["a.c", "b.c"])
      ⟨[], [], true, ["b.c"], (({} : Collector).skip).add (tiedReport "b.c")⟩ :=
    .head (.take rfl (by decide)) <| .head (.take rfl (by decide)) <|
      .head (@Pool.Step.start _ _ _ "b.c" [("a.c", .taken)] [] rfl rfl) <| .head .stop <|
        .head (@Pool.Step.decline _ _ _ "a.c" [] [("b.c", .going)] rfl rfl) <|
          .head (@Pool.Step.skip _ _ _ "a.c" [] [("b.c", .going)] rfl) <|
            .single (@Pool.Step.add _ _ _ "b.c" [] [] rfl)
  have hresult := (result_of_any_schedule (by decide) hown).2 2 _ hrun ⟨rfl, rfl⟩
  exact ⟨_, hrun, ⟨rfl, rfl⟩, rfl, (hresult _).mp rfl, rfl⟩

end JniContracts
