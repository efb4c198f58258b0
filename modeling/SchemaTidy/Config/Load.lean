import SchemaTidy.Config.File
import SchemaTidy.Files.Storage

/-!
# Finding the configuration

A configuration file that is named is read. Otherwise `mallow.toml` is, or else the project file if
it has a table for this program.
-/

namespace SchemaTidy

/-- Where a configuration came from. -/
inductive ConfigSource where
  | file (path : Text)
  | project (path : Text)
  | defaults
deriving DecidableEq, Repr

def ConfigSource.text : ConfigSource → String
  | file path => String.ofList path
  | project path => String.ofList path ++ " [tool.mallow]"
  | defaults => "built-in defaults"

/-- Why no configuration was loaded. -/
inductive LoadError where
  | unreadable (path : Text) (cause : FileError)
  | invalid (path : Text)
  | noTable (path : Text)
deriving DecidableEq, Repr

namespace LoadError

def message : LoadError → String
  | unreadable path _ => "failed to read " ++ String.ofList path
  | invalid path => "invalid configuration in " ++ String.ofList path
  | noTable path => String.ofList path ++ " has no [tool.mallow] table"

/-- The wording of an error in loading with its cause. -/
def fullMessage (e : LoadError) : String :=
  match e with
  | unreadable _ cause => e.message ++ ": " ++ cause.message
  | _ => e.message

end LoadError

/-- The name of a file that holds nothing but settings. -/
def configFile : Text := "mallow.toml".toList

def projectFile : Text := "pyproject.toml".toList

def parseConfig (path text : Text) : Except LoadError FileConfig :=
  match FileConfig.ofToml? text with
  | some f => .ok f
  | none => .error (.invalid path)

/-- Reads the text of a project file, which need not have a table for this program. -/
def parseProject (path text : Text) : Except LoadError (Option FileConfig) :=
  match FileConfig.ofProject? text with
  | some f => .ok f
  | none => .error (.invalid path)

/-- Reads the text of a configuration file that was named. -/
def parseNamed (path text : Text) : Except LoadError FileConfig :=
  if PathText.fileName? path == some projectFile then
    match parseProject path text with
    | .ok (some f) => .ok f
    | .ok none => .error (.noTable path)
    | .error e => .error e
  else parseConfig path text

section
variable {m : Type → Type} [Monad m]

def loadWith {α : Type} (s : Storage m) (path : Text) (f : Text → Except LoadError α) :
    m (Except LoadError α) := do
  match ← s.read path with
  | .ok text => return f text
  | .error e => return .error (.unreadable path e)

def isFile (s : Storage m) (path : Text) : m Bool := do
  match ← s.lookup path with
  | some .file => return true
  | _ => return false

def loadConfig (s : Storage m) (named : Option Text) :
    m (Except LoadError (FileConfig × ConfigSource)) := do
  match named with
  | some path =>
      return (← loadWith s path (parseNamed path)).map fun f => (f, .file path)
  | none =>
      if ← isFile s configFile then
        return (← loadWith s configFile (parseConfig configFile)).map fun f => (f, .file configFile)
      if ← isFile s projectFile then
        match ← loadWith s projectFile (parseProject projectFile) with
        | .ok (some f) => return .ok (f, .project projectFile)
        | .ok none => return .ok ({}, .defaults)
        | .error e => return .error e
      return .ok ({}, .defaults)

end

end SchemaTidy
