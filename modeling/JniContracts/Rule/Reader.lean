import JniContracts.Json.Canonical
import JniContracts.Rule.Spec
import JniContracts.Schema.Reader

/-!
Reading rules and settings from objects.
-/

namespace JniContracts

open Schema

namespace Severity

/-- Two letters outside ASCII have an upper case inside it. -/
def upper (c : Char) : Char :=
  if c == 'ı' then 'I' else if c == 'ſ' then 'S' else c.toUpper

/-- Severities of rules may be written in any case; `INFO` is advisory. -/
def ofAnyCase? (s : String) : Option Severity :=
  match s.map upper with
  | "INFO" => some .advisory
  | t => ofText? t

end Severity

namespace Rule

def readRequires : Reader (List String)
  | .str s => .good [s]
  | v => Reader.list Reader.text v

def checkShape (r : Rule) : Checked Rule :=
  if r.triggers.isEmpty then
    .complain (.refused s!"rule {r.id}: needs 'pattern' or 'pattern-either'")
  else if r.kind == .release && r.requires.isEmpty then
    .complain (.refused s!"rule {r.id}: release rules need 'requires'")
  else .good r

def readFields (entries : List (String × Json)) : Checked Rule :=
  let texts := Reader.list Reader.text
  Checked.good Rule.mk
    |>.also (Field.required entries "id" Reader.text)
    |>.also (Field.required entries "kind" (Reader.choice RuleKind.ofText?))
    |>.also (Field.withDefault entries "severity" .warning (Reader.choice Severity.ofAnyCase?))
    |>.also (Field.required entries "message" Reader.text)
    |>.also (Field.withDefault entries "pattern" none (Reader.optional Reader.text))
    |>.also (Field.withDefault entries "pattern-either" [] texts)
    |>.also (Field.withDefault entries "metavariable-in" [] (Reader.table texts))
    |>.also (Field.withDefault entries "metavariable-not-in" [] (Reader.table texts))
    |>.also (Field.withDefault entries "requires" [] readRequires)
    |>.also (Field.withDefault entries "handler" .handled (Reader.choice Handler.ofText?))
    |>.also (Field.withDefault entries "null-guard" true Reader.bool)
    |>.also (Field.withDefault entries "status-guard" false Reader.bool)
    |>.also (Field.withDefault entries "escape-on-return" true Reader.bool)
    |>.also (Field.withDefault entries "local-only" true Reader.bool)
    |>.also (Field.withDefault entries "enabled" true Reader.bool)
    |>.also (Field.withDefault entries "metadata" [] (Reader.table Checked.good))

def read (entries : List (String × Json)) : Checked Rule := (readFields entries).andThen checkShape

end Rule

namespace Settings

def isText : Json → Bool
  | .str _ => true
  | _ => false

/-- A list of names. An entry that is no text was probably not quoted. -/
def readNames : Reader (List String)
  | .arr items =>
    match items.find? fun v => !isText v with
    | some v => .complain (.refused
        ("entries must be strings, got " ++ Json.Display.oneLine v ++ "; quote it in YAML"))
    | none => Reader.list Reader.text (.arr items)
  | v => Reader.list Reader.text v

def read (entries : List (String × Json)) : Checked Settings :=
  let names key default := Field.withDefault entries key default readNames
  Checked.good Settings.mk
    |>.also (names "exception-checks" standard.exceptionChecks)
    |>.also (names "exception-clear" standard.exceptionClear)
    |>.also (names "exception-safe" standard.exceptionSafe)
    |>.also (names "exit-functions" standard.exitFunctions)
    |>.also (names "null-literals" standard.nullLiterals)
    |>.also (names "status-ok" standard.statusOk)
    |>.also (names "interface-types" standard.interfaceTypes)

end Settings

end JniContracts
