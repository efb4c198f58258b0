import SchemaTidy.Files.Storage
import SchemaTidy.Pipeline

/-!
# Outcomes

What becomes of one file. A failure belongs to its file and never stops a batch.
-/

namespace SchemaTidy

/-- What to do with a file whose text would change. -/
inductive Action where
  /-- Replace the text of the file. -/
  | write
  /-- Show the difference. -/
  | diff
  /-- Only say so. -/
  | check
deriving DecidableEq, Repr

def Action.label : Action → String
  | write => "write"
  | diff => "diff"
  | check => "check"

def Action.ofLabel? (label : String) : Option Action :=
  [write, diff, check].find? (·.label == label)

inductive FileFailure where
  | read (cause : FileError)
  | run (cause : RunError)
  | write (cause : FileError)
deriving DecidableEq, Repr

/-- The wording of an error of a run. A fault in the source is told once as an error of the run and
once more as its cause. -/
def RunError.message : RunError → String
  | parse e => "Syntax error: " ++ e.message ++ ": " ++ e.message
  | config e => e.message

/-- The wording of a failure of the file at a path. -/
def FileFailure.message (path : Text) : FileFailure → String
  | read cause => "failed to read " ++ String.ofList path ++ ": " ++ cause.message
  | run cause => "failed to rewrite " ++ String.ofList path ++ ": " ++ cause.message
  | write cause => "failed to write " ++ String.ofList path ++ ": " ++ cause.message

structure FileResult where
  report : Report
  /-- Whether the text of the file differs from what the run makes of it. -/
  changed : Bool
  written : Bool
  diff : Option Text

/-- A file and what became of it. -/
structure FileOutcome where
  path : Text
  result : Except FileFailure FileResult

namespace FileOutcome

def result? (o : FileOutcome) : Option FileResult := o.result.toOption

def failed (o : FileOutcome) : Bool := o.result?.isNone

def changed (o : FileOutcome) : Bool := o.result?.any (·.changed)

def written (o : FileOutcome) : Bool := o.result?.any (·.written)

def diff? (o : FileOutcome) : Option Text := o.result?.bind (·.diff)

def error? (o : FileOutcome) : Option String :=
  match o.result with
  | .ok _ => none
  | .error e => some (e.message o.path)

end FileOutcome

/-- The outcome of a file of the given content, provided that writing succeeds, and the text to
write. -/
def outcomeOf (config : Config) (action : Action) (path : Text) (content : Except FileError Text) :
    FileOutcome × Option Text :=
  match content with
  | .error e => (⟨path, .error (.read e)⟩, none)
  | .ok source =>
      match run config source with
      | .error e => (⟨path, .error (.run e)⟩, none)
      | .ok r =>
          let written := action == .write && r.changed
          let diff :=
            if action == .diff && r.changed then
              some (unifiedDiff source r.text ("a/".toList ++ path) ("b/".toList ++ path))
            else none
          (⟨path, .ok ⟨r.report, r.changed, written, diff⟩⟩, if written then some r.text else none)

section
variable {m : Type → Type} [Monad m]

def processFile (s : Storage m) (config : Config) (action : Action) (path : Text) :
    m FileOutcome := do
  let (outcome, text?) := outcomeOf config action path (← s.read path)
  match text? with
  | none => return outcome
  | some text =>
      match ← s.write path text with
      | .ok _ => return outcome
      | .error e => return ⟨path, .error (.write e)⟩

def processFiles (s : Storage m) (config : Config) (action : Action) (paths : List Text) :
    m (List FileOutcome) :=
  paths.mapM (processFile s config action)

end

end SchemaTidy
