import JniContracts.Parse.Unit
import JniContracts.Rule.Evaluate

/-!
The analysis of a source text under a list of rules. What cannot be read or evaluated becomes a
diagnostic and leaves out only what it affects.
-/

namespace JniContracts

structure FileReport where
  findings : List Finding
  diagnostics : List Diagnostic

namespace FileReport

def append (a b : FileReport) : FileReport :=
  ⟨a.findings ++ b.findings, a.diagnostics ++ b.diagnostics⟩

def sorted (r : FileReport) : FileReport := ⟨Finding.sort r.findings, Diagnostic.sort r.diagnostics⟩

end FileReport

namespace Analysis

def parseDiagnostic (path : String) (f : Fault) : Diagnostic :=
  ⟨.parseError, path, f.line, none, none, f.message⟩

/-- One rule on one function. A rule that needs paths is left out where there is no graph. -/
def ofRule (scene : Scene) (c : CompiledRule) : FileReport :=
  if c.rule.kind.isPathSensitive && !scene.graph.isOk then ⟨[], []⟩
  else
    match scene.evaluate c with
    | .ok findings => ⟨findings, []⟩
    | .error e => ⟨[], [⟨.ruleEvaluationError, scene.file, scene.function.pos.line,
        some scene.function.name, some c.rule.id, e.message⟩]⟩

def ofScene (scene : Scene) (rules : List CompiledRule) : FileReport :=
  let reports := rules.map (ofRule scene)
  let flow := match scene.graph with
    | .ok _ => []
    | .error e =>
      if rules.any (·.rule.kind.isPathSensitive) then
        [⟨.unresolvedControlFlow, scene.file, e.line, some scene.function.name, none, e.message⟩]
      else []
  ⟨reports.flatMap (·.findings), reports.flatMap (·.diagnostics) ++ flow⟩

def ofUnit (unit : SourceFile) (rules : List Rule) (s : Settings) : Except Stop FileReport := do
  let compiled ← rules.mapM Rule.compile
  let scenes ← unit.functions.mapM (Scene.make unit.path s)
  let reports := scenes.map fun scene => ofScene scene compiled
  pure (FileReport.sorted ⟨reports.flatMap (·.findings),
    unit.faults.map (parseDiagnostic unit.path) ++ reports.flatMap (·.diagnostics)⟩)

end Analysis

def analyze (source path : String) (rules : List Rule) (s : Settings) : Except Stop FileReport :=
  match SourceFile.parse source path s.interfaceTypes with
  | .ok unit => Analysis.ofUnit unit rules s
  | .error (.fault f) => .ok ⟨[], [Analysis.parseDiagnostic path f]⟩
  | .error .tooDeep => .ok ⟨[], [Analysis.parseDiagnostic path ⟨.tooDeep, 0⟩]⟩
  | .error stop => .error stop

end JniContracts
