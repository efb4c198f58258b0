import SchemaTidy.CommandLine.Options

/-!
# Reading the command line

Arguments are read from left to right. Paths and options may alternate, a value follows its option
as the next argument or behind an equals sign, and after `--` every argument is a path.
-/

namespace SchemaTidy.CommandLine

def addPath (o : Options) (argument : Text) : Except UsageError Options :=
  match Options.path? argument with
  | some p => .ok { o with paths := o.paths ++ [p] }
  | none => .error (.invalidValue "<PATH>...".toList argument)

def addPaths (o : Options) : List Text → Except UsageError Options
  | [] => .ok o
  | a :: as =>
      match addPath o a with
      | .ok o => addPaths o as
      | .error e => .error e

def finish (o : Options) : Except UsageError Command :=
  if o.paths.isEmpty then .error .missingPaths else .ok (.run o)

/-- Whether an argument looks like an option. A lone dash does not. -/
def isOption (argument : Text) : Bool := argument.head? == some '-' && 1 < argument.length

/-- The name of a long option and the value behind its equals sign. -/
def splitValue (argument : Text) : Text × Option Text :=
  let name := argument.takeWhile (· != '=')
  (name, if name.length < argument.length then some (argument.drop (name.length + 1)) else none)

def setFlag (name : Text) (set : Options → Option Options) (o : Options) :
    Except UsageError Options :=
  match set o with
  | some o => .ok o
  | none => .error (.repeated name)

def setValue (name value : Text) (set : Text → Option (Options → Option Options)) (o : Options) :
    Except UsageError Options :=
  match set value with
  | none => .error (.invalidValue name value)
  | some f => setFlag name f o

/-- Applies the letters behind a single dash until one of them asks for something else. -/
def setLetters (argument : Text) (o : Options) : Text → Except UsageError (Options × Option Command)
  | [] => .ok (o, none)
  | c :: cs =>
      match Options.kind? ['-', c] with
      | some (.flag set) =>
          match setFlag ['-', c] set o with
          | .ok o => setLetters argument o cs
          | .error e => .error e
      | some (.stop command) => .ok (o, some command)
      | _ => .error (.unknownArgument argument)

/-- The result of reading one argument. -/
inductive Progress where
  /-- The settings so far, and the number of further arguments that were taken as a value. -/
  | more (options : Options) (taken : Nat)
  | done (command : Command)

def longOption (o : Options) (argument : Text) (rest : List Text) : Except UsageError Progress :=
  let (name, value?) := splitValue argument
  match Options.kind? name, value? with
  | none, _ => .error (.unknownArgument argument)
  | some (.stop command), none => .ok (.done command)
  | some (.flag set), none => (setFlag name set o).map (.more · 0)
  | some (.value set), some value => (setValue name value set o).map (.more · 0)
  | some (.value set), none =>
      match rest with
      | value :: _ =>
          if isOption value then .error (.missingValue name)
          else (setValue name value set o).map (.more · 1)
      | [] => .error (.missingValue name)
  | some _, some _ => .error (.unexpectedValue name)

def next (o : Options) (argument : Text) (rest : List Text) : Except UsageError Progress :=
  if argument == ['-', '-'] then ((addPaths o rest).bind finish).map .done
  else if ['-', '-'].isPrefixOf argument then longOption o argument rest
  else if isOption argument then
    (setLetters argument o (argument.drop 1)).map fun
      | (_, some command) => .done command
      | (o, none) => .more o 0
  else (addPath o argument).map (.more · 0)

def parseFrom (o : Options) : List Text → Except UsageError Command
  | [] => finish o
  | argument :: rest =>
      match next o argument rest with
      | .error e => .error e
      | .ok (.done command) => .ok command
      | .ok (.more o taken) => parseFrom o (rest.drop taken)
termination_by arguments => arguments.length
decreasing_by simp only [List.length_cons, List.length_drop]; omega

def parse (arguments : List Text) : Except UsageError Command := parseFrom {} arguments

end SchemaTidy.CommandLine
