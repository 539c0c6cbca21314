import JniContracts.Finding
import JniContracts.Json
import JniContracts.Pattern.Query

/-!
Rules and the settings that all rules share.
-/

namespace JniContracts

inductive RuleKind where
  | exceptionCheck
  | nullCheck
  | release
  | loopException
  | loopInvariant
  deriving DecidableEq, Repr

namespace RuleKind

def all : List RuleKind := [exceptionCheck, nullCheck, release, loopException, loopInvariant]

def text : RuleKind → String
  | exceptionCheck => "exception-check" | nullCheck => "null-check" | release => "release"
  | loopException => "loop-exception" | loopInvariant => "loop-invariant"

def ofText? (s : String) : Option RuleKind := all.find? fun k => k.text == s

def isPathSensitive : RuleKind → Bool
  | exceptionCheck | nullCheck | release => true
  | loopException | loopInvariant => false

end RuleKind

/-- What counts as handling a pending exception: any test for one, or a test whose branch clears it
and leaves the function. -/
inductive Handler where
  | handled
  | clearAndExit
  deriving DecidableEq, Repr

namespace Handler

def all : List Handler := [handled, clearAndExit]

def text : Handler → String
  | handled => "handled" | clearAndExit => "clear-and-exit"

def ofText? (s : String) : Option Handler := all.find? fun h => h.text == s

end Handler

structure Rule where
  id : String
  kind : RuleKind
  severity : Severity := .warning
  message : String
  pattern : Option String := none
  patternEither : List String := []
  metavariableIn : List (String × List String) := []
  metavariableNotIn : List (String × List String) := []
  requires : List String := []
  handler : Handler := .handled
  /-- Whether a branch on which the variable is null is exempt. -/
  nullGuard : Bool := true
  /-- Whether a branch on which the status shows a failure is exempt. -/
  statusGuard : Bool := false
  escapeOnReturn : Bool := true
  localOnly : Bool := true
  enabled : Bool := true
  metadata : List (String × Json) := []

namespace Rule

def triggers (r : Rule) : List String :=
  (r.pattern.filter (· != "")).toList ++ r.patternEither

/-- The filters on the trigger's metavariables, in the order of their names. -/
def filters (r : Rule) : List Membership :=
  let sorted := sortBy fun (a b : String × List String) => compare a.1 b.1
  (sorted r.metavariableIn).map (fun (name, values) => ⟨name, values, false⟩) ++
    (sorted r.metavariableNotIn).map (fun (name, values) => ⟨name, values, true⟩)

end Rule

structure CompiledRule where
  rule : Rule
  query : Query
  requires : Patterns

def Rule.compile (r : Rule) : Except Stop CompiledRule := do
  let triggers ← Patterns.compile r.triggers
  let requires ← Patterns.compile r.requires
  pure ⟨r, ⟨triggers, r.filters, [], [], []⟩, requires⟩

structure Settings where
  exceptionChecks : List String
  exceptionClear : List String
  /-- Functions that may be called while an exception is pending. -/
  exceptionSafe : List String
  exitFunctions : List String
  nullLiterals : List String
  statusOk : List String
  interfaceTypes : List String
  deriving DecidableEq, Repr

namespace Settings

def standard : Settings where
  exceptionChecks := ["ExceptionCheck", "ExceptionOccurred"]
  exceptionClear := ["ExceptionClear"]
  exceptionSafe := []
  exitFunctions := ["exit", "_exit", "_Exit", "abort"]
  nullLiterals := ["NULL", "nullptr", "0"]
  statusOk := ["JNI_OK", "0"]
  interfaceTypes := ["JNIEnv", "JavaVM"]

end Settings

end JniContracts
