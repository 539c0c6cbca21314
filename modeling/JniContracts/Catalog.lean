import JniContracts.Catalog.Builtin
import JniContracts.Files.Tree
import JniContracts.Json.Reader
import JniContracts.Rule.Reader

/-!
Catalogs of rules: reading one from text, and choosing rules from it.
-/

namespace JniContracts

open Schema

structure Catalog where
  settings : Settings
  rules : List Rule

namespace Catalog

def builtin : Catalog := ⟨builtinSettings, builtinRules⟩

def ids (c : Catalog) : List String := c.rules.map (·.id)

/-- The rules with the given ids, or all that are enabled, in the order of the catalog. -/
def select (c : Catalog) : Option (List String) → List Rule
  | none => c.rules.filter (·.enabled)
  | some ids => c.rules.filter fun r => ids.contains r.id

inductive Defect where
  | missing
  | unreadable (error : TextError)
  | malformed
  | noRules
  | notRecord
  | invalidSettings (issues : List Issue)
  | invalidRule (issues : List Issue)
  | duplicateId (id : String)
  | badPattern (id : String) (stop : Stop)
  deriving DecidableEq, Repr

namespace Defect

def message (path : String) : Defect → String
  | missing => s!"Rule catalog not found: {path}"
  | unreadable error => error.message path
  | malformed => s!"Rule catalog {path} is not valid YAML"
  | noRules => s!"Rule catalog {path} must be a mapping with a 'rules' list"
  | notRecord | invalidSettings _ | invalidRule _ => s!"Invalid rule in {path}"
  | duplicateId id => s!"Duplicate rule id '{id}' in {path}"
  | badPattern id stop => s!"Rule {id}: bad pattern: {stop.message}"

end Defect

/-- Settings that are absent or empty are the standard ones. -/
def readSettings (v : Json) : Except Defect Settings :=
  if v.isEmptyish then .ok .standard
  else
    match v with
    | .obj entries => (Settings.read entries).toExcept.mapError .invalidSettings
    | _ => .error .notRecord

def readRule : Json → Except Defect Rule
  | .obj entries => (Rule.read entries).toExcept.mapError .invalidRule
  | _ => .error .notRecord

def checkRules : List String → List Rule → Except Defect Unit
  | _, [] => .ok ()
  | seen, r :: rs =>
    if seen.contains r.id then .error (.duplicateId r.id)
    else
      match r.compile with
      | .error stop => .error (.badPattern r.id stop)
      | .ok _ => checkRules (r.id :: seen) rs

def ofJson (v : Json) : Except Defect Catalog :=
  match v.get? "rules" with
  | some (.arr items) => do
    let settings ← readSettings ((v.get? "settings").getD .null)
    let rules ← items.mapM readRule
    pure ⟨settings, rules⟩
  | _ => .error .noRules

def ofText (text : String) : Except Defect Catalog :=
  match Json.document? text with
  | none => .error .malformed
  | some v => ofJson v

/-- A catalog that is accepted, whatever loads it from the text. -/
def acceptedBy (load : String → Except Defect Catalog) (text : String) : Except Defect Catalog := do
  let catalog ← load text
  checkRules [] catalog.rules
  pure catalog

def parse (text : String) : Except Defect Catalog := acceptedBy ofText text

end Catalog

end JniContracts
