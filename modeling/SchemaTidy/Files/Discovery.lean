import SchemaTidy.Files.PathText
import SchemaTidy.Files.Pattern
import SchemaTidy.Text.Lower

/-!
# Discovery

Which files a run processes. A directory is walked, but not through links and not into directories
that hold no sources of their own. A file that is named directly is taken whatever its extension.
-/

namespace SchemaTidy

/-- What stands at a place of a directory tree. -/
inductive Entry where
  /-- Anything that is neither a directory nor a link to one. -/
  | file
  /-- A link to a directory. -/
  | directoryLink
  | directory (entries : List (Text × Entry))
deriving Inhabited

inductive DiscoveryError where
  | invalidPattern (pattern : Text)
  | missing (path : Text)
deriving DecidableEq, Repr

def DiscoveryError.message : DiscoveryError → String
  | invalidPattern p => "invalid exclude pattern `" ++ String.ofList p ++ "`"
  | missing path => "Path does not exist: " ++ String.ofList path

/-- Names of directories that are never walked, unless they are named directly. -/
def skippedDirectories : List Text :=
  [".git", ".hg", ".mypy_cache", ".nox", ".tox", ".venv", "__pycache__", "build", "dist",
   "venv"].map String.toList

/-- The conditions on discovered files. -/
structure Discovery where
  /-- Extensions of the files taken from directories, in any case of letters. -/
  extensions : List Text := ["py".toList, "pyi".toList]
  /-- Whether a path is left out. -/
  excludes : Text → Bool := fun _ => false

namespace Discovery

/-- Leaves out the paths that a pattern occurs in. -/
def excluding (d : Discovery) (pattern : Text) : Except DiscoveryError Discovery :=
  match Pattern.parse? pattern with
  | some p => .ok { d with excludes := p.excludes }
  | none => .error (.invalidPattern pattern)

def accepts (d : Discovery) (name : Text) : Bool :=
  match PathText.extension? name with
  | some e => d.extensions.any fun x => Text.lowerCase x == Text.lowerCase e
  | none => false

mutual

/-- The files of an entry below a walked directory. -/
def visit (d : Discovery) (path name : Text) : Entry → List Text
  | .file => if d.excludes path || !d.accepts name then [] else [path]
  | .directoryLink => []
  | .directory entries =>
      if d.excludes path || skippedDirectories.contains name then [] else d.walk path entries

def walk (d : Discovery) (path : Text) : List (Text × Entry) → List Text
  | [] => []
  | (name, e) :: rest => d.visit (PathText.join path name) name e ++ d.walk path rest

end

def given (d : Discovery) (path : Text) : Entry → List Text
  | .directory entries => d.walk path entries
  | _ => if d.excludes path then [] else [path]

/-- The files that some given paths stand for, path by path. -/
def collect (d : Discovery) : List (Text × Option Entry) → Except DiscoveryError (List Text)
  | [] => .ok []
  | (path, none) :: _ => .error (.missing path)
  | (path, some e) :: rest => (d.collect rest).map (d.given path e ++ ·)

/-- The files that some given paths stand for, in order and without duplicates. -/
def discover (d : Discovery) (given : List (Text × Option Entry)) :
    Except DiscoveryError (List Text) :=
  (d.collect given).map PathText.sort

end Discovery

end SchemaTidy
