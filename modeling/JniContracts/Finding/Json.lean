import JniContracts.Finding
import JniContracts.Json.Canonical

/-!
Findings, diagnostics and scan results as JSON, and the report of a scan.
-/

namespace JniContracts

def programVersion : String := "0.3.0"

namespace Bindings

def toJson (b : Bindings) : Json := .obj (b.entries.map fun (v, t) => (v, .str t))

end Bindings

namespace Finding

def entries (f : Finding) : List (String × Json) := [
  ("rule_id", .str f.ruleId), ("file", .str f.file), ("line", .int f.line),
  ("column", .int f.column),
  ("function", Json.ofOption .str f.function), ("severity", .str f.severity.text),
  ("message", .str f.message), ("bindings", f.bindings.toJson)]

def toJson (f : Finding) : Json := .obj f.entries

end Finding

namespace Diagnostic

def entries (d : Diagnostic) : List (String × Json) := [
  ("kind", .str d.kind.text), ("file", .str d.file), ("line", .int d.line),
  ("function", Json.ofOption .str d.function), ("rule_id", Json.ofOption .str d.ruleId),
  ("message", .str d.message)]

def toJson (d : Diagnostic) : Json := .obj d.entries

end Diagnostic

namespace ScanResult

def entries (r : ScanResult) : List (String × Json) := [
  ("findings", .arr (r.findings.map Finding.toJson)),
  ("diagnostics", .arr (r.diagnostics.map Diagnostic.toJson)),
  ("files_scanned", .int r.filesScanned), ("files_skipped", .int r.filesSkipped),
  ("partial", .bool r.incomplete)]

def toJson (r : ScanResult) : Json := .obj r.entries

def countsJson (r : ScanResult) : Json := .obj (r.counts.map fun (name, n) => (name, Json.ofNat n))

def verdict (r : ScanResult) : List (String × Json) := [
  ("status", .str r.status.text), ("exit_code", Json.ofNat r.exitCode), ("counts", r.countsJson),
  ("version", .str programVersion)]

/-- The report: the members of a result with its verdict, however results are written as objects. -/
def reportBy (dump : ScanResult → List (String × Json)) (r : ScanResult) : Json :=
  .obj (r.verdict.foldl (fun members (key, value) => Json.assign key value members) (dump r))

def report (r : ScanResult) : Json := r.reportBy entries

end ScanResult

end JniContracts
