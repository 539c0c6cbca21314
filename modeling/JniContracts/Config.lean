import JniContracts.Files.Discover
import JniContracts.Json.Reader
import JniContracts.Schema.Reader

/-!
The configuration of a scan: its fields, where it is looked for, and how it is read.
-/

namespace JniContracts

open Schema Decimal

structure Config where
  enabledRules : Option (List String) := none
  disabledRules : List String := []
  workers : Int := 4
  timeBudget : Option Double := none
  extensions : List String := Discover.standardExtensions
  ignore : List String := []
  rulesFile : Option String := none
  deriving DecidableEq, Repr

namespace Config

def readWorkers (v : Json) : Checked Int :=
  (Reader.int v).andThen fun n => if n < 1 then .complain .belowLeast else .good n

def readBudget (v : Json) : Checked Double :=
  (Reader.float v).andThen fun d => if d.isAtMostZero then .complain .notPositive else .good d

def dotted (s : String) : String :=
  match (Text.lowercase s).toList with
  | '.' :: rest => String.ofList ('.' :: rest)
  | cs => String.ofList ('.' :: cs)

def readExtensions (v : Json) : Checked (List String) :=
  (Reader.list Reader.text v).map fun l => l.map dotted

def keys : List String :=
  ["enabled-rules", "disabled-rules", "workers", "time-budget", "extensions", "ignore",
    "rules-file"]

/-- Keys that are none of the fields' are refused. -/
def read (entries : List (String × Json)) : Checked Config :=
  let texts := Reader.list Reader.text
  let fields := Checked.good Config.mk
    |>.also (Field.withDefault entries "enabled-rules" none (Reader.optional texts))
    |>.also (Field.withDefault entries "disabled-rules" [] texts)
    |>.also (Field.withDefault entries "workers" 4 readWorkers)
    |>.also (Field.withDefault entries "time-budget" none (Reader.optional readBudget))
    |>.also (Field.withDefault entries "extensions" Discover.standardExtensions readExtensions)
    |>.also (Field.withDefault entries "ignore" [] texts)
    |>.also (Field.withDefault entries "rules-file" none (Reader.optional Reader.text))
  (fields.map fun c () => c).also (Field.noOthers entries keys)

/-- The ids of the rules to run; none to run those that the catalog enables. -/
def selection (c : Config) (ids : List String) : Option (List String) :=
  if c.enabledRules.isNone && c.disabledRules.isEmpty then none
  else some ((c.enabledRules.getD ids).filter fun id => !c.disabledRules.contains id)

inductive Defect where
  | unreadable (error : TextError)
  | malformed
  | notTable
  | invalid (issues : List Issue)
  deriving DecidableEq, Repr

namespace Defect

def message (path : Path) : Defect → String
  | unreadable error => s!"Cannot read config {path.text}: {error.message path.text}"
  | malformed => s!"Config {path.text} is not valid YAML"
  | notTable => s!"Config {path.text} must be a mapping"
  | invalid _ => s!"Invalid config {path.text}"

end Defect

def ofJson (v : Json) : Except Defect Config :=
  if v.isEmptyish then .ok {}
  else
    match v with
    | .obj entries => (read entries).toExcept.mapError .invalid
    | _ => .error .notTable

def parse (text : String) : Except Defect Config :=
  match Json.document? text with
  | none => .error .malformed
  | some v => ofJson v

def projectFile : String := ".jniguard.yaml"

def userFile (t : FileTree) : Path := (t.home.child ".jniguard").child "config.yaml"

/-- The file of the project that a target belongs to, or else that of the user. -/
def find? (t : FileTree) (target : Option Path) : Option Path :=
  let ofProject := target.map fun p =>
    (if t.isFolder p then p else p.parent).child projectFile
  (ofProject.toList ++ [userFile t]).find? t.isFile

def load (t : FileTree) (target path : Option Path) : Except (Path × Defect) Config :=
  match path.or (find? t target) with
  | none => .ok {}
  | some p =>
    match t.readWholeText p with
    | .error e => .error (p, .unreadable e)
    | .ok text => (parse text).mapError fun d => (p, d)

end Config

end JniContracts
