import SchemaTidy.Config.Value

/-!
# JSON text

Values written as JSON over several lines, two blanks to a level.
-/

namespace SchemaTidy.Json

/-- The digits of a character below 256 in hexadecimal. -/
def hexPair (n : Nat) : Text := [Nat.digitChar (n / 16), Nat.digitChar (n % 16)]

def escape (c : Char) : Text :=
  match c with
  | '"' => ['\\', '"']
  | '\\' => ['\\', '\\']
  | '\n' => ['\\', 'n']
  | '\r' => ['\\', 'r']
  | '\t' => ['\\', 't']
  | '\x08' => ['\\', 'b']
  | '\x0c' => ['\\', 'f']
  | c => if c.toNat < 0x20 then "\\u00".toList ++ hexPair c.toNat else [c]

def quote (t : Text) : Text := '"' :: t.flatMap escape ++ ['"']

def lineStart (level : Nat) : Text := '\n' :: List.replicate (2 * level) ' '

/-- Items between brackets, each on a line of its own. -/
def bracket (left right : Char) (level : Nat) (items : List Text) : Text :=
  if items.isEmpty then [left, right]
  else
    left :: List.intercalate [','] (items.map (lineStart (level + 1) ++ ·)) ++
      lineStart level ++ [right]

mutual

/-- A value as text that starts at the given level. -/
def print (level : Nat) : Value → Text
  | .null => "null".toList
  | .bool b => (if b then "true" else "false").toList
  | .int n => (toString n).toList
  | .fraction => "0.0".toList
  | .text t => quote t
  | .list vs => bracket '[' ']' level (printAll (level + 1) vs)
  | .table entries => bracket '{' '}' level (printEntries (level + 1) entries)

def printAll (level : Nat) : List Value → List Text
  | [] => []
  | v :: vs => print level v :: printAll level vs

def printEntries (level : Nat) : List (Text × Value) → List Text
  | [] => []
  | (key, v) :: rest => (quote key ++ [':', ' '] ++ print level v) :: printEntries level rest

end

end SchemaTidy.Json
