import SchemaTidy.Batch.Json
import SchemaTidy.Batch.Summary
import SchemaTidy.CommandLine.Parser
import SchemaTidy.Config.Load

/-!
# The program

A run of the command line: load the configuration, discover the files, process them, and report.
Diffs and JSON go to the standard output, everything else to the standard error.
-/

namespace SchemaTidy

def version : String := "0.1.0"

/-- What a run shows, and its exit status. -/
structure Output where
  stdout : Text := []
  stderr : Text := []
  exitCode : Nat := 0

/-- Why a run did not get to its files. -/
inductive SetupError where
  | load (cause : LoadError)
  | config (cause : ConfigError)
  | discovery (cause : DiscoveryError)
deriving DecidableEq, Repr

/-- The wording of an error before the first file. -/
def SetupError.message : SetupError → String
  | load cause => cause.fullMessage
  | config cause => cause.message
  | discovery cause => cause.message

namespace CommandLine

def textLine (s : String) : Text := s.toList ++ ['\n']

/-- The action of the settings: a check, or else a diff, or else writing. -/
def action (o : Options) : Action := if o.check then .check else if o.diff then .diff else .write

def fileLine (action : Action) (o : FileOutcome) : Text :=
  match o.error? with
  | some e => textLine ("error: " ++ e)
  | none =>
      if o.changed then
        textLine ((if action == .write then "reformatted " else "would reformat ") ++
          String.ofList o.path)
      else []

def report (action : Action) (color json : Bool) (s : Summary) : Output where
  stdout :=
    (s.files.filterMap (·.diff?)).flatMap (showDiff color) ++
      if json then Json.print 0 s.toValue ++ ['\n'] else []
  stderr :=
    s.files.flatMap (fileLine action) ++ if json then [] else textLine (s.line action)
  exitCode := s.exitCode action

def usage : String :=
  "Migrate and format marshmallow schema definitions\n\nUsage: mallow [OPTIONS] <PATH>...\n"

section
variable {m : Type → Type} [Monad m]

/-- Loads the configuration of a run and discovers its files. -/
def setUp (s : Storage m) (o : Options) : m (Except SetupError (Config × List Text)) := do
  match ← loadConfig s o.config with
  | .error e => return .error (.load e)
  | .ok (file, _) =>
      match o.overrides.apply file with
      | .error e => return .error (.config e)
      | .ok file =>
          match file.exclude.elim (.ok {}) (Discovery.excluding {}) with
          | .error e => return .error (.discovery e)
          | .ok discovery =>
              let given ← o.paths.mapM fun path => do return (path, ← s.lookup path)
              match discovery.discover given with
              | .error e => return .error (.discovery e)
              | .ok files => return .ok (file.config, files)

def runWith (s : Storage m) (terminal : Bool) (o : Options) : m Output := do
  match ← setUp s o with
  | .error e => return { stderr := textLine ("error: " ++ e.message), exitCode := 2 }
  | .ok (config, files) =>
      let outcomes ← processFiles s config (action o) files
      let color := (o.color.getD .auto).enabled terminal
      return report (action o) color o.reportJson (.ofOutcomes outcomes)

def execute (s : Storage m) (terminal : Bool) : Command → m Output
  | .run o => runWith s terminal o
  | .version => return { stdout := textLine ("mallow " ++ version) }
  | .help => return { stdout := usage.toList }

end

end CommandLine

end SchemaTidy
