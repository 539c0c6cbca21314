import JniContracts.Finding.Json
import JniContracts.Report.Console
import JniContracts.Report.Text
import JniContracts.Scan

/-!
The command line: its options, and what each command prints, writes and returns.
-/

namespace JniContracts

open Decimal

structure ScanOptions where
  paths : List String := []
  rules : List String := []
  json : Bool := false
  output : Option String := none
  workers : Option Int := none
  timeBudget : Option Double := none
  rulesFile : Option String := none
  configFile : Option String := none
  verbose : Bool := false
  quiet : Bool := false

inductive Command where
  | scan (options : ScanOptions)
  | rules (file : Option String)
  | version
  | help

namespace Command

inductive Action (σ : Type) where
  | switch (set : σ → σ)
  | value (set : String → σ → Option σ)

structure Flag (σ : Type) where
  names : List String
  action : Action σ

structure Parsed (σ : Type) where
  state : σ
  arguments : List String

variable {σ : Type}

def lookup? (flags : List (Flag σ)) (name : String) : Option (Flag σ) :=
  flags.find? fun f => f.names.contains name

/-- The value is what is attached, or else the next argument. -/
def takeValue (attached : Option String) (rest : List String) : Option (String × List String) :=
  match attached, rest with
  | some v, rest => some (v, rest)
  | none, v :: rest => some (v, rest)
  | none, [] => none

def long (flags : List (Flag σ)) (name : String) (attached : Option String)
    (rest : List String) (s : σ) : Option (σ × List String) := do
  let flag ← lookup? flags name
  match flag.action, attached with
  | .switch set, none => pure (set s, rest)
  | .switch _, some _ => none
  | .value set, attached => do
    let (v, rest) ← takeValue attached rest
    pure (← set v s, rest)

/-- A group of one-letter options; the first that has a value takes the other letters as its
value. -/
def short (flags : List (Flag σ)) : List Char → List String → σ → Option (σ × List String)
  | [], rest, s => some (s, rest)
  | c :: cs, rest, s => do
    let flag ← lookup? flags (String.ofList ['-', c])
    match flag.action with
    | .switch set => short flags cs rest (set s)
    | .value set => do
      let (v, rest) ← takeValue (if cs.isEmpty then none else some (String.ofList cs)) rest
      pure (← set v s, rest)

inductive Shape where
  | argument
  | stop
  | long (name : String) (attached : Option String)
  | short (letters : List Char)

def shape (arg : String) : Shape :=
  match arg.toList with
  | ['-', '-'] => .stop
  | '-' :: '-' :: cs =>
    match cs.span (· != '=') with
    | (name, '=' :: v) => .long (String.ofList ('-' :: '-' :: name)) (some (String.ofList v))
    | (name, _) => .long (String.ofList ('-' :: '-' :: name)) none
  | '-' :: c :: cs => .short (c :: cs)
  | _ => .argument

/-- Reads options and arguments in any order. Each round takes one argument at least. -/
def parseFor (flags : List (Flag σ)) : Nat → List String → Parsed σ → Option (Parsed σ)
  | _, [], p => some p
  | 0, _ :: _, _ => none
  | fuel + 1, arg :: rest, p =>
    match shape arg with
    | .argument => parseFor flags fuel rest { p with arguments := arg :: p.arguments }
    | .stop => some { p with arguments := rest.reverse ++ p.arguments }
    | .long name attached => do
      let (s, rest) ← long flags name attached rest p.state
      parseFor flags fuel rest { p with state := s }
    | .short letters => do
      let (s, rest) ← short flags letters rest p.state
      parseFor flags fuel rest { p with state := s }

def parseOptions (flags : List (Flag σ)) (args : List String) (s : σ) : Option (σ × List String) :=
  (parseFor flags args.length args ⟨s, []⟩).map fun p => (p.state, p.arguments.reverse)

def readWorkers (v : String) : Option Int := (Numeral.int? v).filter fun n => 1 ≤ n

def scanFlags : List (Flag (ScanOptions × Bool)) := [
  ⟨["--rule", "-r"], .value fun v (o, h) => some ({ o with rules := o.rules ++ [v] }, h)⟩,
  ⟨["--json"], .switch fun (o, h) => ({ o with json := true }, h)⟩,
  ⟨["--output", "-o"], .value fun v (o, h) => some ({ o with output := some v }, h)⟩,
  ⟨["--workers", "-j"],
  .value fun v (o, h) => (readWorkers v).map fun n => ({ o with workers := some n }, h)⟩,
  ⟨["--time-budget"], .value fun v (o, h) =>
    (Numeral.float? v).map fun d => ({ o with timeBudget := some d }, h)⟩,
  ⟨["--rules-file"], .value fun v (o, h) => some ({ o with rulesFile := some v }, h)⟩,
  ⟨["--config"], .value fun v (o, h) => some ({ o with configFile := some v }, h)⟩,
  ⟨["--verbose", "-v"], .switch fun (o, h) => ({ o with verbose := true }, h)⟩,
  ⟨["--quiet", "-q"], .switch fun (o, h) => ({ o with quiet := true }, h)⟩,
  ⟨["--help"], .switch fun (o, _) => (o, true)⟩]

def rulesFlags : List (Flag (Option String × Bool)) := [
  ⟨["--rules-file"], .value fun v (_, h) => some (some v, h)⟩,
  ⟨["--help"], .switch fun (o, _) => (o, true)⟩]

def helpFlag : List (Flag Bool) := [⟨["--help"], .switch fun _ => true⟩]

def parseScan (args : List String) : Option Command := do
  let ((options, asksHelp), paths) ← parseOptions scanFlags args ({}, false)
  if asksHelp then pure .help
  else if paths.isEmpty then none
  else pure (.scan { options with paths := paths })

def parseRules (args : List String) : Option Command := do
  let ((file, asksHelp), extra) ← parseOptions rulesFlags args (none, false)
  if asksHelp then pure .help
  else if extra.isEmpty then pure (.rules file)
  else none

def parseVersion (args : List String) : Option Command := do
  let (asksHelp, extra) ← parseOptions helpFlag args false
  if asksHelp then pure .help
  else if extra.isEmpty then pure .version
  else none

def parse : List String → Option Command
  | "scan" :: args => parseScan args
  | "rules" :: args => parseRules args
  | "version" :: args => parseVersion args
  | "--help" :: _ => some .help
  | "--" :: "scan" :: args => parseScan args
  | "--" :: "rules" :: args => parseRules args
  | "--" :: "version" :: args => parseVersion args
  | _ => none

structure Outcome where
  exitCode : Nat
  stdout : String
  deriving DecidableEq, Repr

def usageError : Outcome := ⟨2, ""⟩

def breakdown : Outcome := ⟨1, ""⟩

def refusal (message : String) : Outcome :=
  match Report.errorText message with
  | .ok text => ⟨2, text⟩
  | .error _ => breakdown

def defectOutcome (path : Path) (d : Catalog.Defect) : Outcome :=
  match d with
  | .unreadable _ | .badPattern _ .tooDeep => breakdown
  | d => refusal (d.message path.text)

def configOutcome (path : Path) (d : Config.Defect) : Outcome :=
  match d with
  | .unreadable (.encoding _) => breakdown
  | d => refusal (d.message path)

def failureOutcome : Scan.Failure → Outcome
  | .catalog path defect => defectOutcome path defect
  | .unknownRules ids => refusal ("Unknown rule id(s): " ++ ", ".intercalate ids)
  | .discover (.noPath p) => refusal s!"Path does not exist: {p.text}"
  | .discover (.unreadable p (.file .notFound)) => refusal (FileError.notFound.full p.text)
  | .discover (.unreadable ..) | .noWorkers => breakdown

/-- An option that is given an empty text counts as not given. -/
def given (o : Option String) : Option String := o.filter (· != "")

/-- The configuration of a scan: the file that is given, or the one that applies to the first
path. -/
def scanConfig (t : FileTree) (o : ScanOptions) : Except (Path × Config.Defect) Config :=
  Config.load t (o.paths.head?.map fun p => t.absolute (.ofString p))
    ((given o.configFile).map Path.ofString)

/-- The catalog of a scan; the option goes before the configuration. -/
def scanCatalog (o : ScanOptions) (config : Config) : Option Path :=
  ((given o.rulesFile).or config.rulesFile).map Path.ofString

def planScan (t : FileTree) (o : ScanOptions) : Except Outcome Scan.Plan := do
  match o.paths.find? fun p => !t.holds (.ofString p) with
  | some p => throw (refusal s!"Path not found: {p}")
  | none =>
    let config ← (scanConfig t o).mapError fun (p, d) => configOutcome p d
    let catalog ← (Catalog.load t (scanCatalog o config)).mapError fun (p, d) => defectOutcome p d
    let rules := if o.rules.isEmpty then none else some o.rules
    (Scan.plan t catalog config ⟨o.paths, rules, o.workers, o.timeBudget⟩).mapError failureOutcome

def reportText (r : ScanResult) : String := r.report.canonical

def scanOutcome (width : Nat) (o : ScanOptions) (r : ScanResult) : Outcome :=
  if o.json then ⟨r.exitCode, reportText r⟩
  else if o.quiet then ⟨r.exitCode, r.text⟩
  else
    match Report.summary width r with
    | .ok summary => ⟨r.exitCode, r.text ++ summary⟩
    | .error _ => ⟨1, r.text⟩

def writeFailure (output reason : String) : Outcome :=
  refusal s!"Cannot write report to {output}: {reason}"

def finishScan (t : FileTree) (width : Nat) (o : ScanOptions) (r : ScanResult) :
    Outcome × FileTree :=
  match given o.output with
  | none => (scanOutcome width o r, t)
  | some output =>
    match t.write (.ofString output) (reportText r) with
    | .ok t => (scanOutcome width o r, t)
    | .error e => (writeFailure output e.text, t)

def rulesOutcome (t : FileTree) (file : Option String) : Outcome :=
  match Catalog.load t (file.map Path.ofString) with
  | .ok catalog =>
    match Report.rulesText catalog.rules with
    | .ok text => ⟨0, text⟩
    | .error _ => breakdown
  | .error (p, d) => defectOutcome p d

def versionOutcome : Outcome := ⟨0, s!"jniguard v{programVersion}\n"⟩

def helpOutcome : Outcome := ⟨0, "Usage: jniguard (scan PATHS... | rules | version) [OPTIONS]\n"⟩

def run (t : FileTree) (width : Nat) : Command → Outcome × FileTree
  | .scan o =>
    match planScan t o with
    | .ok plan => finishScan t width o (Scan.run t plan false)
    | .error outcome => (outcome, t)
  | .rules file => (rulesOutcome t file, t)
  | .version => (versionOutcome, t)
  | .help => (helpOutcome, t)

def runArguments (t : FileTree) (width : Nat) (args : List String) : Outcome × FileTree :=
  match parse args with
  | some c => run t width c
  | none => (usageError, t)

end Command

end JniContracts
