import JniContracts.Files.Path
import JniContracts.Text.Quoted
import JniContracts.Text.Utf8

/-!
Trees of files: what stands at a path, what is below a folder, and a tree with a file put in.
-/

namespace JniContracts

inductive FileError where
  | notFound
  | alreadyThere
  | notFolder
  | isFolder
  deriving DecidableEq, Repr

namespace FileError

def number : FileError → Nat
  | notFound => 2 | alreadyThere => 17 | notFolder => 20 | isFolder => 21

def text : FileError → String
  | notFound => "No such file or directory" | alreadyThere => "File exists"
  | notFolder => "Not a directory" | isFolder => "Is a directory"

def full (e : FileError) (path : String) : String :=
  s!"[Errno {e.number}] {e.text}: " ++ Text.Quoted.encode path

end FileError

inductive TextError where
  | file (error : FileError)
  | encoding (fault : Text.Utf8.Fault)
  deriving DecidableEq, Repr

namespace TextError

def message (path : String) : TextError → String
  | file error => error.full path
  | encoding fault => fault.message

end TextError

inductive FileNode where
  | file (content : List UInt8)
  | folder (entries : List (String × FileNode))

namespace FileNode

def empty : FileNode := folder []

def isFolderNode : FileNode → Bool
  | folder _ => true
  | file _ => false

def find? (name : String) : List (String × FileNode) → Option FileNode
  | [] => none
  | (n, node) :: rest => if n == name then some node else find? name rest

def replace (name : String) (node : FileNode) : List (String × FileNode) → List (String × FileNode)
  | [] => [(name, node)]
  | (n, old) :: rest => if n == name then (n, node) :: rest else (n, old) :: replace name node rest

/-- Goes down along names from a node, where `above` are the folders that lead to it, the nearest
first. The root is above itself. -/
def walk (above : List FileNode) (here : FileNode) : List String → Except FileError FileNode
  | [] => .ok here
  | name :: rest =>
    match here with
    | file _ => .error .notFolder
    | folder entries =>
      if name == ".." then
        match above with
        | up :: more => walk more up rest
        | [] => walk [] here rest
      else
        match find? name entries with
        | some node => walk (here :: above) node rest
        | none => .error .notFound

mutual
def files : FileNode → List (List String)
  | file _ => [[]]
  | folder entries => filesAmong entries

def filesAmong : List (String × FileNode) → List (List String)
  | [] => []
  | (name, node) :: rest => (files node).map (name :: ·) ++ filesAmong rest
end

/-- Sets a node where the names lead, in place of what is there. Folders on the way are made. -/
def graft (node : FileNode) : List String → FileNode → FileNode
  | [], _ => node
  | name :: rest, folder entries =>
    folder (replace name (graft node rest ((find? name entries).getD empty)) entries)
  | name :: rest, file _ => folder [(name, graft node rest empty)]

def put (content : List UInt8) : List String → FileNode → Except FileError FileNode
  | [], folder _ => .error .isFolder
  | [], file _ => .ok (file content)
  | [_], file _ => .error .alreadyThere
  | _ :: _ :: _, file _ => .error .notFolder
  | name :: rest, folder entries =>
    match find? name entries with
    | none => .ok (folder (replace name (graft (file content) rest empty) entries))
    | some node => do
      let node ← put content rest node
      pure (folder (replace name node entries))

def makeFolder : List String → FileNode → FileNode
  | [], node => node
  | name :: rest, folder entries =>
    folder (replace name (makeFolder rest ((find? name entries).getD empty)) entries)
  | _ :: _, file content => file content

end FileNode

/-- The files that a command can see, the folder that it runs in, and the folder of its user. -/
structure FileTree where
  root : FileNode
  workingFolder : List String
  home : Path

namespace FileTree

def names (t : FileTree) (p : Path) : List String :=
  if p.anchor == "" then t.workingFolder ++ p.parts else p.parts

def absolute (t : FileTree) (p : Path) : Path := ⟨"/", Path.foldDots [] (t.names p)⟩

def node (t : FileTree) (p : Path) : Except FileError FileNode := t.root.walk [] (t.names p)

def holds (t : FileTree) (p : Path) : Bool := (t.node p).isOk

def isFolder (t : FileTree) (p : Path) : Bool :=
  match t.node p with
  | .ok n => n.isFolderNode
  | .error _ => false

def isFile (t : FileTree) (p : Path) : Bool :=
  match t.node p with
  | .ok n => !n.isFolderNode
  | .error _ => false

def read (t : FileTree) (p : Path) : Except FileError (List UInt8) := do
  match ← t.node p with
  | .file content => .ok content
  | .folder _ => .error .isFolder

/-- The text of a file; what is no text is replaced, and line ends are made alike. -/
def readText (t : FileTree) (p : Path) : Except FileError String := do
  let bytes ← t.read p
  pure (String.ofList (Text.unifyNewlines (Text.Utf8.decode bytes).toList))

def readWholeText (t : FileTree) (p : Path) : Except TextError String := do
  let bytes ← (t.read p).mapError .file
  let text ← (Text.Utf8.decodeWhole bytes).mapError .encoding
  pure (String.ofList (Text.unifyNewlines text.toList))

def filesBelow (t : FileTree) (p : Path) : List Path :=
  match t.node p with
  | .ok n => Path.sorted (n.files.map fun parts => ⟨"", parts⟩)
  | .error _ => []

def write (t : FileTree) (p : Path) (text : String) : Except FileError FileTree := do
  let root ← t.root.put (Text.Utf8.encode text) (Path.foldDots [] (t.names p))
  pure { t with root := root }

end FileTree

end JniContracts
