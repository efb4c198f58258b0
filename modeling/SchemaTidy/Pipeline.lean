import SchemaTidy.Diff.Unified
import SchemaTidy.Edit.Mark
import SchemaTidy.Migration.Basic
import SchemaTidy.Print.Module
import SchemaTidy.Tree.Parser

/-!
# One file

The way of one source text: parse, find schema classes, apply the rules to their fields, mark the
fields for printing, and print.
-/

namespace SchemaTidy

/-- Why a source text was not processed. -/
inductive RunError where
  | parse (e : ParseError)
  | config (e : ConfigError)
deriving DecidableEq, Repr

structure RunResult where
  text : Text
  report : Report
  /-- Whether the text differs from the source. -/
  changed : Bool

/-- Processes a source text. A source that does not parse is reported before a configuration that is
not valid. -/
def run (config : Config) (source : Text) : Except RunError RunResult :=
  match parse source with
  | .error e => .error (.parse e)
  | .ok m =>
      match Engine.ofConfig config with
      | .error e => .error (.config e)
      | .ok engine =>
          let classes := config.detector.detect m
          let (m, report, _) := engine.run m classes
          let reformat := config.formatFields && config.style.mode == .preserve
          let m := markFields config.detector config.migration.destination reformat m classes
          let text := m.print config.style
          .ok ⟨text, report, text != source⟩

def runDiff (config : Config) (source label : Text) : Except RunError Text :=
  (run config source).map fun r =>
    unifiedDiff source r.text ("a/".toList ++ label) ("b/".toList ++ label)

end SchemaTidy
