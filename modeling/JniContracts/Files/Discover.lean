import JniContracts.Files.Tree
import JniContracts.Text.Lowercase

/-!
Which files a scan takes up: those that are named, and those below named folders that have one of
the extensions and are not ignored.
-/

namespace JniContracts

namespace Ignore

def standard : List String := [".git", ".hg", ".svn", ".gradle", ".cxx", ".externalNativeBuild",
  "node_modules", "build", "cmake-build-debug", "cmake-build-release", "CMakeFiles", "*.o", "*.so",
  "*.a", "*.dylib", "*.dll"]

def fileName : String := ".jniguardignore"

def isPattern (line : String) : Bool :=
  match line.toList with
  | [] => false
  | c :: _ => c != '#'

/-- The patterns of a text, one a line; lines that start with a number sign are comments. -/
def ofText (text : String) : List String := ((Text.lines text).map Text.trim).filter isPattern

/-- A pattern that starts with an asterisk is about the end of a path, any other about a name in
it. -/
def matchesPath (pattern : String) (p : Path) : Bool :=
  match pattern.toList with
  | '*' :: rest =>
    let ending := rest.dropWhile (· == '*')
    ending.isSuffixOf p.name.toList || ending.isSuffixOf p.text.toList
  | _ => p.name == pattern || p.components.contains pattern

def ignores (patterns : List String) (p : Path) : Bool := patterns.any fun s => matchesPath s p

end Ignore

namespace Discover

def standardExtensions : List String := [".c", ".h", ".cc", ".cpp", ".cxx", ".hpp", ".hh"]

def sources (extensions : List String) (l : List Path) : List Path :=
  l.filter fun p => extensions.contains (Text.lowercase p.suffix)

inductive Failure where
  | noPath (path : Path)
  | unreadable (path : Path) (error : TextError)
  deriving DecidableEq, Repr

/-- The patterns for a folder: the standard ones, those given, and those in its ignore file. -/
def patternsFor (t : FileTree) (folder : Path) (extra : List String) :
    Except Failure (List String) :=
  let path := folder.child Ignore.fileName
  if t.holds path then
    match t.readWholeText path with
    | .ok text => .ok (Ignore.standard ++ extra ++ Ignore.ofText text)
    | .error e => .error (.unreadable path e)
  else .ok (Ignore.standard ++ extra)

def inFolder (t : FileTree) (extensions ignore : List String) (folder : Path) :
    Except Failure (List Path) := do
  let patterns ← patternsFor t folder ignore
  let kept := (t.filesBelow folder).filter fun p => !Ignore.ignores patterns p
  pure ((sources extensions kept).map folder.append)

def ofPath (t : FileTree) (extensions ignore : List String) (p : Path) :
    Except Failure (List Path) :=
  if !t.holds p then .error (.noPath p)
  else if t.isFolder p then inFolder t extensions ignore p
  else .ok [p]

def files (t : FileTree) (extensions ignore : List String) (paths : List Path) :
    Except Failure (List Path) := do
  let groups ← paths.mapM (ofPath t extensions ignore)
  pure (Path.sorted groups.flatten)

end Discover

end JniContracts
