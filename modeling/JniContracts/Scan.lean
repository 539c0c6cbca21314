import JniContracts.Analysis
import JniContracts.Catalog
import JniContracts.Config

/-!
Scans: the plan of a scan, the analysis of each file, and the collection of what is found.
-/

namespace JniContracts

open Decimal

structure Collector where
  findings : List Finding := []
  diagnostics : List Diagnostic := []
  scanned : Nat := 0
  skipped : Nat := 0

namespace Collector

def add (c : Collector) (r : FileReport) : Collector :=
  { c with
    findings := c.findings ++ r.findings
    diagnostics := c.diagnostics ++ r.diagnostics
    scanned := c.scanned + 1 }

def skip (c : Collector) : Collector := { c with skipped := c.skipped + 1 }

/-- Everything in order; the result is incomplete if files were skipped. -/
def result (c : Collector) : ScanResult :=
  ⟨Finding.sort c.findings, Diagnostic.sort c.diagnostics, c.scanned, c.skipped, 0 < c.skipped⟩

end Collector

namespace Catalog

def load (t : FileTree) : Option Path → Except (Path × Defect) Catalog
  | none => .ok builtin
  | some p =>
    match t.readWholeText p with
    | .error (.file .notFound) => .error (p, .missing)
    | .error e => .error (p, .unreadable e)
    | .ok text => (parse text).mapError fun d => (p, d)

end Catalog

namespace Scan

def unread (path reason : String) : FileReport :=
  ⟨[], [⟨.readError, path, 0, none, none, s!"cannot read file: {reason}"⟩]⟩

def stopText : Stop → String
  | .fault f => "internal error: ParseError: " ++ f.located "<pattern>"
  | .noBracket index => s!"internal error: KeyError: {index}"
  | .tooDeep => Problem.tooDeep.message
  | .endless => Stop.endless.message

def stopped (path : String) (s : Stop) : FileReport :=
  ⟨[], [⟨.parseError, path, 0, none, none, stopText s⟩]⟩

/-- The report on one file; whatever goes wrong with it is a diagnostic. -/
def file (t : FileTree) (rules : List Rule) (s : Settings) (p : Path) : FileReport :=
  match t.readText p with
  | .error e => unread p.text e.text
  | .ok text =>
    match analyze text p.text rules s with
    | .ok report => report
    | .error stop => stopped p.text stop

inductive Failure where
  | catalog (path : Path) (defect : Catalog.Defect)
  | unknownRules (ids : List String)
  | discover (failure : Discover.Failure)
  | noWorkers
  deriving DecidableEq, Repr

structure Request where
  paths : List String
  rules : Option (List String) := none
  workers : Option Int := none
  timeBudget : Option Double := none

structure Plan where
  rules : List Rule
  settings : Settings
  files : List Path
  workers : Int
  timeBudget : Option Double

/-- Rules that are asked for have to be in the catalog; else the configuration selects them. -/
def chooseRules (catalog : Catalog) (config : Config) :
    Option (List String) → Except Failure (List Rule)
  | none => .ok (catalog.select (config.selection catalog.ids))
  | some ids =>
    match (ids.filter fun id => !catalog.ids.contains id).eraseDups with
    | [] => .ok (catalog.select (some ids))
    | unknown => .error (.unknownRules (unknown.mergeSort fun a b => decide (a ≤ b)))

def plan (t : FileTree) (catalog : Catalog) (config : Config) (r : Request) : Except Failure Plan :=
  do
  let rules ← chooseRules catalog config r.rules
  let files ← (Discover.files t config.extensions config.ignore
    (r.paths.map Path.ofString)).mapError Failure.discover
  let workers := match r.workers with
    | none | some 0 => config.workers
    | some n => n
  if workers < 1 then throw .noWorkers
  pure ⟨rules, catalog.settings, files, workers, r.timeBudget.or config.timeBudget⟩

def step (t : FileTree) (plan : Plan) (stop : Bool) (c : Collector) (p : Path) : Collector :=
  if stop then c.skip else c.add (file t plan.rules plan.settings p)

def Plan.isOver (plan : Plan) (elapsed : Nat) : Bool :=
  plan.timeBudget.any (·.isAtMost elapsed 1000)

/-- Runs a plan in no time; a scan that is stopped takes up no file. -/
def run (t : FileTree) (plan : Plan) (stop : Bool) : ScanResult :=
  (plan.files.foldl (step t plan (stop || plan.isOver 0)) {}).result

end Scan

end JniContracts
