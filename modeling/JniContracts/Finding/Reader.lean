import JniContracts.Finding
import JniContracts.Schema.Reader

/-!
Reading findings, diagnostics and scan results from objects.
-/

namespace JniContracts

open Schema

namespace Finding

def read (entries : List (String × Json)) : Checked Finding :=
  Checked.good Finding.mk
    |>.also (Field.required entries "rule_id" Reader.text)
    |>.also (Field.required entries "file" Reader.text)
    |>.also (Field.required entries "line" Reader.int)
    |>.also (Field.withDefault entries "column" 0 Reader.int)
    |>.also (Field.withDefault entries "function" none (Reader.optional Reader.text))
    |>.also (Field.required entries "severity" (Reader.choice Severity.ofText?))
    |>.also (Field.required entries "message" Reader.text)
    |>.also
      ((Field.withDefault entries "bindings" [] (Reader.table Reader.text)).map Bindings.ofList)

end Finding

namespace Diagnostic

def read (entries : List (String × Json)) : Checked Diagnostic :=
  Checked.good Diagnostic.mk
    |>.also (Field.required entries "kind" (Reader.choice DiagnosticKind.ofText?))
    |>.also (Field.required entries "file" Reader.text)
    |>.also (Field.withDefault entries "line" 0 Reader.int)
    |>.also (Field.withDefault entries "function" none (Reader.optional Reader.text))
    |>.also (Field.withDefault entries "rule_id" none (Reader.optional Reader.text))
    |>.also (Field.required entries "message" Reader.text)

end Diagnostic

namespace ScanResult

def read (entries : List (String × Json)) : Checked ScanResult :=
  Checked.good ScanResult.mk
    |>.also (Field.withDefault entries "findings" [] (Reader.list (Reader.record Finding.read)))
    |>.also
      (Field.withDefault entries "diagnostics" [] (Reader.list (Reader.record Diagnostic.read)))
    |>.also (Field.withDefault entries "files_scanned" 0 Reader.int)
    |>.also (Field.withDefault entries "files_skipped" 0 Reader.int)
    |>.also (Field.withDefault entries "partial" false Reader.bool)

end ScanResult

end JniContracts
