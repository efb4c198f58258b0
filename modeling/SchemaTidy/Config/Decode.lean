import SchemaTidy.Config.Basic
import SchemaTidy.Config.Value

/-!
# Configuration as values

Reading a configuration from a dynamic value, and writing it back with every key. Keys are in kebab
case, absent keys keep their defaults, and unknown keys are ignored. The groups of settings are
records, so they can also be written without keys.
-/

namespace SchemaTidy

namespace PrintMode

def ofLabel? (t : Text) : Option PrintMode :=
  if t == "canonical".toList then some .canonical
  else if t == "preserve".toList then some .preserve
  else none

/-- Reads a mode: its name, or a table with this name as the only key and nothing behind it. -/
def ofValue? (f : ValueFormat) : Value → Option PrintMode
  | .text t => ofLabel? t
  | .table [(key, v)] => if f.isUnit v then ofLabel? key else none
  | _ => none

def label : PrintMode → String
  | canonical => "canonical"
  | preserve => "preserve"

end PrintMode

namespace Style

/-- The keys of a style, in the order of a style without keys. -/
def keys : List String :=
  ["line-length", "indent-size", "mode", "normalize-quotes", "prefer-fewer-escapes", "sort-keys",
   "trailing-commas", "wrap-strings"]

def ofValue? (f : ValueFormat) (v : Value) : Option Style := do
  let d : Style := {}
  let es ← v.record? keys
  let lineLength ← Value.read? es "line-length" d.lineLength Value.size?
  let indentSize ← Value.read? es "indent-size" d.indentSize Value.size?
  let mode ← Value.read? es "mode" d.mode (PrintMode.ofValue? f)
  let normalizeQuotes ← Value.read? es "normalize-quotes" d.normalizeQuotes Value.bool?
  let preferFewerEscapes ← Value.read? es "prefer-fewer-escapes" d.preferFewerEscapes Value.bool?
  let sortKeys ← Value.read? es "sort-keys" d.sortKeys Value.bool?
  let trailingCommas ← Value.read? es "trailing-commas" d.trailingCommas Value.bool?
  let wrapStrings ← Value.read? es "wrap-strings" d.wrapStrings Value.bool?
  some { lineLength, indentSize, mode, normalizeQuotes, preferFewerEscapes, sortKeys,
         trailingCommas, wrapStrings }

def toValue (s : Style) : Value :=
  .ofFields
    [("line-length", .int s.lineLength), ("indent-size", .int s.indentSize),
     ("mode", .text s.mode.label.toList), ("normalize-quotes", .bool s.normalizeQuotes),
     ("prefer-fewer-escapes", .bool s.preferFewerEscapes), ("sort-keys", .bool s.sortKeys),
     ("trailing-commas", .bool s.trailingCommas), ("wrap-strings", .bool s.wrapStrings)]

end Style

namespace Selection

/-- Reads a selection: `"non-core"`, one other name, or a list of names. -/
def ofValue? : Value → Option Selection
  | .text t => some (if t == "non-core".toList then .nonCore else .ofNames [t])
  | v => v.texts?.map .ofNames

def toValue : Selection → Value
  | nonCore => .text "non-core".toList
  | named names => .ofTexts names

end Selection

namespace MigrationRule

/-- The keys of the settings of migration, in the order of settings without keys. -/
def keys : List String := ["enabled", "destination", "migrate", "extra-core"]

def ofValue? (v : Value) : Option MigrationRule := do
  let d : MigrationRule := {}
  let es ← v.record? keys
  let enabled ← Value.read? es "enabled" d.enabled Value.bool?
  let destination ← Value.read? es "destination" d.destination Value.text?
  let selection ← Value.read? es "migrate" d.selection Selection.ofValue?
  let extraCore ← Value.read? es "extra-core" d.extraCore fun v => v.texts?.map Text.sortedSet
  some { enabled, destination, selection, extraCore }

def toValue (r : MigrationRule) : Value :=
  .ofFields
    [("enabled", .bool r.enabled), ("destination", .text r.destination),
     ("migrate", r.selection.toValue), ("extra-core", .ofTexts r.extraCore)]

end MigrationRule

namespace Detector

/-- The keys of the settings of detection, in the order of settings without keys. -/
def keys : List String := ["schema-suffix", "extra-fields", "rewrite-nested"]

def ofValue? (v : Value) : Option Detector := do
  let d : Detector := {}
  let es ← v.record? keys
  let schemaSuffix ← Value.read? es "schema-suffix" d.schemaSuffix Value.text?
  let extraFields ← Value.read? es "extra-fields" d.extraFields fun v => v.texts?.map Text.sortedSet
  let visitNested ← Value.read? es "rewrite-nested" d.visitNested Value.bool?
  some { schemaSuffix, extraFields, visitNested }

def toValue (d : Detector) : Value :=
  .ofFields
    [("schema-suffix", .text d.schemaSuffix), ("extra-fields", .ofTexts d.extraFields),
     ("rewrite-nested", .bool d.visitNested)]

end Detector

namespace Config

def ofValue? (f : ValueFormat) (v : Value) : Option Config := do
  let d : Config := {}
  let es ← v.entries?
  let style ← Value.read? es "style" d.style (Style.ofValue? f)
  let migration ← Value.read? es "migration" d.migration MigrationRule.ofValue?
  let detector ← Value.read? es "detector" d.detector Detector.ofValue?
  let formatFields ← Value.read? es "format-fields" d.formatFields Value.bool?
  some { style, migration, detector, formatFields }

def toValue (c : Config) : Value :=
  .ofFields
    [("style", c.style.toValue), ("migration", c.migration.toValue),
     ("detector", c.detector.toValue), ("format-fields", .bool c.formatFields)]

end Config

end SchemaTidy
