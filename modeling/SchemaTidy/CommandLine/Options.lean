import SchemaTidy.Batch.Color
import SchemaTidy.Config.File

/-!
# Options of the command line

The table of options and what each of them sets. Flags and options with one value may be given once;
`--migrate` and `--field` collect values.
-/

namespace SchemaTidy

structure Options where
  paths : List Text := []
  overrides : Overrides := {}
  diff : Bool := false
  check : Bool := false
  color : Option ColorChoice := none
  /-- The configuration file to read. -/
  config : Option Text := none
  /-- Print the summary as JSON. -/
  reportJson : Bool := false
  /-- Log every stage. A run has no log of its own, so the flag changes no result. -/
  verbose : Bool := false

inductive Command where
  | run (options : Options)
  | version
  | help

inductive UsageError where
  | unknownArgument (argument : Text)
  | missingValue (option : Text)
  | unexpectedValue (option : Text)
  | repeated (option : Text)
  | invalidValue (option value : Text)
  | missingPaths
deriving DecidableEq, Repr

def UsageError.message : UsageError → String
  | unknownArgument a => "unexpected argument '" ++ String.ofList a ++ "' found"
  | missingValue o => "a value is required for '" ++ String.ofList o ++ "' but none was supplied"
  | unexpectedValue o => "unexpected value for '" ++ String.ofList o ++ "' found"
  | repeated o => "the argument '" ++ String.ofList o ++ "' cannot be used multiple times"
  | invalidValue o v =>
      "invalid value '" ++ String.ofList v ++ "' for '" ++ String.ofList o ++ "'"
  | missingPaths => "the following required arguments were not provided: <PATH>..."

/-- How an option acts on the settings. -/
inductive OptionKind where
  /-- An option without a value; nothing when it was given before. -/
  | flag (set : Options → Option Options)
  /-- An option with a value; the outer option is empty when the value is invalid, the inner one
  when the option was given before. -/
  | value (set : Text → Option (Options → Option Options))
  /-- An option that asks for something else than a run. -/
  | stop (command : Command)

namespace OptionKind

def switch (get : Options → Bool) (set : Options → Options) : OptionKind :=
  .flag fun o => if get o then none else some (set o)

def single {α : Type} (read? : Text → Option α) (get : Options → Option α)
    (set : α → Options → Options) : OptionKind :=
  .value fun t => (read? t).map fun a o => if (get o).isSome then none else some (set a o)

def collect (add : Text → Options → Options) : OptionKind :=
  .value fun t => some fun o => some (add t o)

def setting {α : Type} (read? : Text → Option α) (get : Overrides → Option α)
    (set : α → Overrides → Overrides) : OptionKind :=
  .single read? (fun o => get o.overrides) fun a o => { o with overrides := set a o.overrides }

def toggle (get : Overrides → Bool) (set : Overrides → Overrides) : OptionKind :=
  .switch (fun o => get o.overrides) fun o => { o with overrides := set o.overrides }

end OptionKind

namespace Options

def size? (t : Text) : Option Nat :=
  let digits := if t.head? == some '+' then t.drop 1 else t
  if digits.isEmpty || !digits.all Char.isDigit then none
  else
    let n := digits.foldl (fun n c => 10 * n + (c.toNat - '0'.toNat)) 0
    if n ≤ 0xFFFFFFFFFFFFFFFF then some n else none

def path? (t : Text) : Option Text := if t.isEmpty then none else some t

def table : List (List String × OptionKind) :=
  [(["--line-length", "--max-line-length"],
     .setting size? (·.lineLength) fun n o => { o with lineLength := some n }),
   (["--indent-size"], .setting size? (·.indentSize) fun n o => { o with indentSize := some n }),
   (["--mode"], .setting PrintMode.ofLabel? (·.mode) fun x o => { o with mode := some x }),
   (["--only-changed"], .toggle (·.onlyChanged) fun o => { o with onlyChanged := true }),
   (["--migrate-metadata", "--fix-kwargs-for-marshmallow-4"],
     .toggle (·.migrateMetadata) fun o => { o with migrateMetadata := true }),
   (["--migrate"],
     .collect fun t o =>
       { o with overrides := { o.overrides with migrate := o.overrides.migrate ++ [t] } }),
   (["--destination"],
     .setting some (·.destination) fun t o => { o with destination := some t }),
   (["--schema-suffix"],
     .setting some (·.schemaSuffix) fun t o => { o with schemaSuffix := some t }),
   (["--field"],
     .collect fun t o =>
       { o with overrides := { o.overrides with fields := o.overrides.fields ++ [t] } }),
   (["--sort"], .toggle (·.sort) fun o => { o with sort := true }),
   (["--no-trailing-commas"],
     .toggle (·.noTrailingCommas) fun o => { o with noTrailingCommas := true }),
   (["--no-string-wrap"], .toggle (·.noStringWrap) fun o => { o with noStringWrap := true }),
   (["--no-normalize-quotes"],
     .toggle (·.noNormalizeQuotes) fun o => { o with noNormalizeQuotes := true }),
   (["--diff"], .switch (·.diff) fun o => { o with diff := true }),
   (["--check"], .switch (·.check) fun o => { o with check := true }),
   (["--color"],
     .single (fun t => ColorChoice.ofLabel? (String.ofList t)) (·.color)
       fun c o => { o with color := some c }),
   (["--exclude"], .setting some (·.exclude) fun t o => { o with exclude := some t }),
   (["--config"], .single path? (·.config) fun t o => { o with config := some t }),
   (["--report-json"], .switch (·.reportJson) fun o => { o with reportJson := true }),
   (["--verbose", "-v"], .switch (·.verbose) fun o => { o with verbose := true }),
   (["--version", "-V"], .stop .version),
   (["--help", "-h"], .stop .help)]

def kind? (name : Text) : Option OptionKind :=
  (table.find? fun row => row.1.any (·.toList == name)).map Prod.snd

end Options

end SchemaTidy
