import JniContracts.Finding

/-!
The report as plain text, one line for each finding and then one for each diagnostic.
-/

namespace JniContracts

def Finding.reportLine (f : Finding) : String :=
  s!"{f.file}:{f.line}: {f.severity.text}: {f.message}"

def Diagnostic.reportLine (d : Diagnostic) : String :=
  s!"{d.file}:{d.line}: DIAGNOSTIC[{d.kind.text}]: {d.message}"

namespace ScanResult

def findingsText (r : ScanResult) : String :=
  String.join (r.findings.map fun f => f.reportLine ++ "\n")

def text (r : ScanResult) : String :=
  r.findingsText ++ String.join (r.diagnostics.map fun d => d.reportLine ++ "\n")

end ScanResult

end JniContracts
