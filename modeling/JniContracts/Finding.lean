import JniContracts.Pattern.Bindings

/-!
Findings, diagnostics, and the result of a scan.
-/

namespace JniContracts

inductive Severity where
  | error
  | warning
  | advisory
  deriving DecidableEq, Repr

namespace Severity

def all : List Severity := [error, warning, advisory]

def text : Severity → String
  | error => "ERROR" | warning => "WARNING" | advisory => "ADVISORY"

def ofText? (s : String) : Option Severity := all.find? fun v => v.text == s

end Severity

structure Finding where
  ruleId : String
  file : String
  line : Int
  column : Int
  function : Option String
  severity : Severity
  message : String
  bindings : Bindings
  deriving DecidableEq, Repr

inductive DiagnosticKind where
  | readError
  | parseError
  | unresolvedControlFlow
  | ruleEvaluationError
  deriving DecidableEq, Repr

namespace DiagnosticKind

def all : List DiagnosticKind := [readError, parseError, unresolvedControlFlow, ruleEvaluationError]

def text : DiagnosticKind → String
  | readError => "read-error" | parseError => "parse-error"
  | unresolvedControlFlow => "unresolved-control-flow"
  | ruleEvaluationError => "rule-evaluation-error"

def ofText? (s : String) : Option DiagnosticKind := all.find? fun k => k.text == s

end DiagnosticKind

structure Diagnostic where
  kind : DiagnosticKind
  file : String
  line : Int
  function : Option String
  ruleId : Option String
  message : String
  deriving DecidableEq, Repr

/-- Sorts by an order of keys; items with equal keys keep their order. -/
def sortBy {α : Type} (order : α → α → Ordering) (l : List α) : List α :=
  l.mergeSort fun a b => (order a b).isLE

namespace Finding

def order (a b : Finding) : Ordering :=
  compare a.file b.file |>.then <| compare a.line b.line |>.then <|
    compare a.ruleId b.ruleId |>.then <| compare a.column b.column |>.then <|
      compare a.message b.message

def sort (l : List Finding) : List Finding := sortBy order l

end Finding

namespace Diagnostic

def order (a b : Diagnostic) : Ordering :=
  compare a.file b.file |>.then <| compare a.line b.line |>.then <|
    compare a.kind.text b.kind.text |>.then <|
      compare (a.ruleId.getD "") (b.ruleId.getD "") |>.then <| compare a.message b.message

def sort (l : List Diagnostic) : List Diagnostic := sortBy order l

end Diagnostic

inductive ScanStatus where
  | pass
  | fail
  deriving DecidableEq, Repr

namespace ScanStatus

def text : ScanStatus → String
  | pass => "pass" | fail => "fail"

end ScanStatus

structure ScanResult where
  findings : List Finding
  diagnostics : List Diagnostic
  filesScanned : Int
  filesSkipped : Int
  /-- Whether files were left out. -/
  incomplete : Bool
  deriving DecidableEq, Repr

namespace ScanResult

/-- A scan fails when a finding is an error. -/
def status (r : ScanResult) : ScanStatus :=
  if r.findings.any (·.severity == .error) then .fail else .pass

def exitCode (r : ScanResult) : Nat :=
  match r.status with
  | .fail => 1
  | .pass => 0

def count (r : ScanResult) (s : Severity) : Nat := r.findings.countP (·.severity == s)

def counts (r : ScanResult) : List (String × Nat) := Severity.all.map fun s => (s.text, r.count s)

end ScanResult

end JniContracts
