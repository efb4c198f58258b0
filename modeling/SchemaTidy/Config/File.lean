import SchemaTidy.Config.Decode
import SchemaTidy.Config.Toml

/-!
# Configuration files

What a configuration file can set, and the settings of a command line that win over it.
-/

namespace SchemaTidy

structure FileConfig where
  config : Config := {}
  /-- Pattern of the paths that discovery leaves out. -/
  exclude : Option Text := none

namespace FileConfig

def ofEntries? (entries : List (Text × Value)) : Option FileConfig := do
  let config ← Config.ofValue? .toml (.table entries)
  let exclude ← Value.read? entries "exclude" none fun v => v.text?.map some
  some { config, exclude }

def ofToml? (text : Text) : Option FileConfig := (Toml.document? text).bind ofEntries?

/-- Reads the table `tool.mallow` of a project file. The outer option is empty when the file cannot
be read, the inner one when it has no such table. -/
def ofProject? (text : Text) : Option (Option FileConfig) := do
  let document ← Toml.document? text
  let tool := (Value.find? document "tool").bind Value.entries?
  match tool.bind (Value.find? · "mallow") with
  | none => some none
  | some v => (v.entries?.bind ofEntries?).map some

end FileConfig

/-- Settings that win over a configuration file. -/
structure Overrides where
  lineLength : Option Nat := none
  indentSize : Option Nat := none
  mode : Option PrintMode := none
  /-- Leave everything but changed fields as it is. -/
  onlyChanged : Bool := false
  migrateMetadata : Bool := false
  /-- Keywords to migrate, all that are not parameters when there are none. -/
  migrate : List Text := []
  destination : Option Text := none
  schemaSuffix : Option Text := none
  /-- Further field constructors. -/
  fields : List Text := []
  sort : Bool := false
  noTrailingCommas : Bool := false
  noStringWrap : Bool := false
  noNormalizeQuotes : Bool := false
  exclude : Option Text := none

namespace Overrides

def style (o : Overrides) (s : Style) : Style :=
  { s with
    lineLength := o.lineLength.getD s.lineLength
    indentSize := o.indentSize.getD s.indentSize
    mode := if o.onlyChanged then .preserve else o.mode.getD s.mode
    sortKeys := o.sort || s.sortKeys
    trailingCommas := !o.noTrailingCommas && s.trailingCommas
    wrapStrings := !o.noStringWrap && s.wrapStrings
    normalizeQuotes := !o.noNormalizeQuotes && s.normalizeQuotes }

/-- The settings of migration under the overrides. Naming keywords turns migration on. -/
def migration (o : Overrides) (r : MigrationRule) : MigrationRule :=
  { r with
    enabled := o.migrateMetadata || !o.migrate.isEmpty || r.enabled
    selection := if o.migrate.isEmpty then r.selection else .ofNames o.migrate
    destination := o.destination.getD r.destination }

/-- The settings of detection under the overrides. -/
def detector (o : Overrides) (d : Detector) : Detector :=
  { d with
    schemaSuffix := o.schemaSuffix.getD d.schemaSuffix
    extraFields := Text.sortedSet (d.extraFields ++ o.fields) }

def config (o : Overrides) (c : Config) : Config where
  style := o.style c.style
  migration := o.migration c.migration
  detector := o.detector c.detector
  formatFields := !o.onlyChanged && c.formatFields

/-- Lays the overrides over a configuration file and checks the result. -/
def apply (o : Overrides) (f : FileConfig) : Except ConfigError FileConfig :=
  let config := o.config f.config
  config.validate.map fun _ => { config, exclude := o.exclude <|> f.exclude }

end Overrides

end SchemaTidy
