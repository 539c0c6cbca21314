import JniContracts.Finding
import JniContracts.Report.Markup
import JniContracts.Report.Table
import JniContracts.Rule.Spec

/-!
What is shown on the console: the summary of a scan, the list of rules, and errors. The ids of rules
are texts with tags.
-/

namespace JniContracts.Report

/-- Control characters that a console acts upon, and that are not shown: the bell, backspace,
vertical tab, form feed and carriage return. -/
def isDropped (c : Char) : Bool := [7, 8, 11, 12, 13].contains c.toNat

def shown (s : String) : Except Markup.Fault String :=
  (Markup.strip s).map fun s => String.ofList (s.toList.filter fun c => !isDropped c)

/-- The rules that have findings, each with the severity of its last one and their number, in the
order of the first ones. -/
def tally : List Finding → List (String × Severity × Nat)
  | [] => []
  | f :: fs =>
    let rest := tally fs
    match rest.find? fun (id, _) => id == f.ruleId with
    | some (_, severity, n) =>
      (f.ruleId, severity, n + 1) :: rest.filter fun (id, _) => id != f.ruleId
    | none => (f.ruleId, f.severity, 1) :: rest

def tallyOrder (a b : String × Severity × Nat) : Ordering :=
  (compare b.2.2 a.2.2).then (compare a.1 b.1)

def findingsTable (l : List Finding) : Except Markup.Fault Table := do
  let rows ← (sortBy tallyOrder (tally l)).mapM fun (id, severity, n) => do
    pure [← shown id, severity.text, toString n]
  pure ⟨"Findings by rule", [⟨"Rule", .left⟩, ⟨"Severity", .left⟩, ⟨"Count", .right⟩], rows⟩

def verdictLine (r : ScanResult) : String :=
  if r.count .error != 0 then "  ✗  FAIL: ERROR-severity findings present."
  else if r.findings.isEmpty then "  ✓  PASS: no JNI lifecycle violations found."
  else "  !  PASS with warnings"

def summaryLines (r : ScanResult) : List String :=
  [s!"  Files analyzed: {r.filesScanned}" ++
      if r.filesSkipped == 0 then "" else s!"  (skipped: {r.filesSkipped})",
    "  Findings: " ++ ", ".intercalate (r.counts.map fun (name, n) => s!"{name}: {n}")] ++
    (if r.diagnostics.isEmpty then []
      else [s!"  !  {r.diagnostics.length} diagnostic(s): some code could not be analyzed."]) ++
    (if r.incomplete then ["  !  Partial result: the scan was cancelled or ran out of time."]
    else []) ++
    ["", verdictLine r]

def unlines (l : List String) : String := String.join (l.map (· ++ "\n"))

def summary (width : Nat) (r : ScanResult) : Except Markup.Fault String := do
  let table ← if r.findings.isEmpty then pure [] else (findingsTable r.findings).map Table.lines
  pure (unlines (table ++ panel width "Scan Complete" (summaryLines r)))

def rulesTable (rules : List Rule) : Except Markup.Fault Table := do
  let rows ← rules.mapM fun r => do
    pure [← shown r.id, r.kind.text, r.severity.text, if r.enabled then "yes" else "no"]
  pure ⟨"JNI rules",
    [⟨"ID", .left⟩, ⟨"Kind", .left⟩, ⟨"Severity", .left⟩, ⟨"Enabled", .center⟩], rows⟩

def rulesText (rules : List Rule) : Except Markup.Fault String :=
  (rulesTable rules).map fun t => unlines t.lines

/-- Replaces tabs by blanks up to the next multiple of eight cells, where `done` is the part of the
line before, in reverse. -/
def expandTabs (done : List Char) : List Char → List Char
  | [] => done.reverse
  | c :: cs =>
    if c == '\t' then
      let width := Text.cellWidth (String.ofList done.reverse)
      expandTabs (List.replicate (8 - width % 8) ' ' ++ done) cs
    else expandTabs (c :: done) cs

def errorText (message : String) : Except Markup.Fault String := do
  let text ← shown s!"[red]Error: {Markup.escape message}[/red]"
  pure (unlines ((text.splitOn "\n").map fun line => String.ofList (expandTabs [] line.toList)))

end JniContracts.Report
