import JniContracts.Command

/-!
The program: it reads what a command can ask for into a tree of files, runs the command on the tree,
and prints and writes what comes out.
-/

namespace JniContracts.Program

open Command

def place (p : Path) : IO IO.FS.DirEntry := do pure ⟨← IO.currentDir, p.text⟩

def reason : IO.Error → String
  | .alreadyExists _ _ text | .inappropriateType _ _ text | .permissionDenied _ _ text
  | .noFileOrDirectory _ _ text | .resourceExhausted _ _ text | .invalidArgument _ _ text => text
  | e => toString e

/-- The names at a place and below, with empty files. Links to folders are not followed, and what is
ignored everywhere is left out. -/
partial def outline (e : IO.FS.DirEntry) : IO FileNode := do
  if (← e.path.isDir) then
    let mut entries := #[]
    for child in (← e.path.readDir) do
      let isLink := (← child.path.symlinkMetadata).type == .symlink
      let isFolderLink := isLink && (← child.path.isDir)
      if !isFolderLink && !Ignore.ignores Ignore.standard ⟨"", [child.fileName]⟩ then
        entries := entries.push (child.fileName, ← outline child)
    pure (.folder entries.toList)
  else pure (.file [])

def graft (t : FileTree) (p : Path) (node : FileNode) : FileTree :=
  { t with root := FileNode.graft node (t.absolute p).parts t.root }

def addOutline (t : FileTree) (p : Path) : IO FileTree := do
  let e ← place p
  if t.holds p then pure t
  else if (← e.path.pathExists) then pure (graft t p (← outline e))
  else pure t

def addFile (t : FileTree) (p : Path) : IO FileTree := do
  let e ← place p
  if (← e.path.isDir) then
    pure (if t.holds p then t else graft t p .empty)
  else if (← e.path.pathExists) then
    pure (graft t p (.file (← IO.FS.readBinFile e.path).toList))
  else pure t

def bareTree : IO FileTree := do
  let folder := (Path.ofString (← IO.currentDir).toString).parts
  let home := (← IO.getEnv "HOME").getD "/"
  pure ⟨FileNode.empty.makeFolder folder, folder, .ofString home⟩

/-- The tree that the plan of a scan depends on: the names at its paths, and the content of ignore
files, of configurations, and of the catalog. -/
def scanTree (o : ScanOptions) : IO FileTree := do
  let paths := o.paths.map Path.ofString
  let bare ← bareTree
  let byDepth :=
    paths.mergeSort fun a b => (bare.absolute a).parts.length ≤ (bare.absolute b).parts.length
  let outlined ← byDepth.foldlM addOutline bare
  let projects := paths.head?.toList.flatMap fun p =>
    [bare.absolute p, (bare.absolute p).parent].map (·.child Config.projectFile)
  let t ← (paths.map (·.child Ignore.fileName) ++ projects ++ [Config.userFile bare] ++
    (given o.configFile).toList.map Path.ofString).foldlM addFile outlined
  match scanConfig t o with
  | .ok config => (scanCatalog o config).toList.foldlM addFile t
  | .error _ => pure t

def runPlan (t : FileTree) (plan : Scan.Plan) : IO ScanResult := do
  let start ← IO.monoMsNow
  let mut collected : Collector := {}
  for file in plan.files do
    if plan.isOver ((← IO.monoMsNow) - start) then collected := collected.skip
    else
      collected ← try
          let t ← addFile t file
          pure (Scan.step t plan false collected file)
        catch e => pure (collected.add (Scan.unread file.text (reason e)))
  pure collected.result

def writeReport (output text : String) : IO (Option String) := do
  try
    IO.FS.createDirAll (Path.ofString output).parent.text
    IO.FS.writeFile output text
    pure none
  catch e => pure (some (reason e))

def scan (width : Nat) (o : ScanOptions) : IO Outcome := do
  let t ← scanTree o
  match planScan t o with
  | .error outcome => pure outcome
  | .ok plan =>
    let result ← runPlan t plan
    match given o.output with
    | none => pure (scanOutcome width o result)
    | some output =>
      match ← writeReport output (reportText result) with
      | none => pure (scanOutcome width o result)
      | some why => pure (writeFailure output why)

def outcome (width : Nat) : Command → IO Outcome
  | .scan o => scan width o
  | .rules file => do
    let t ← (file.toList.map Path.ofString).foldlM addFile (← bareTree)
    pure (rulesOutcome t file)
  | c => do pure (run (← bareTree) width c).1

end JniContracts.Program

open JniContracts in
def main (args : List String) : IO UInt32 := do
  let width := ((← IO.getEnv "COLUMNS").bind String.toNat?).getD 80
  let result ← match Command.parse args with
    | some c => Program.outcome width c
    | none => pure Command.usageError
  IO.print result.stdout
  pure result.exitCode.toUInt32
