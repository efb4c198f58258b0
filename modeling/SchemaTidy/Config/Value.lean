import SchemaTidy.Text.Basic

/-!
# Configuration values

The dynamic values that configuration formats share. A record among them is a table, or a list of
values without keys.
-/

namespace SchemaTidy

/-- A value of a configuration format. -/
inductive Value where
  | null
  | bool (b : Bool)
  | int (n : Int)
  /-- A number that is not written as an integer. -/
  | fraction
  | text (t : Text)
  | list (vs : List Value)
  | table (entries : List (Text × Value))
deriving Inhabited

/-- The formats that values are written in. -/
inductive ValueFormat where
  | json
  | toml
deriving DecidableEq, Repr

/-- Whether a value is the one that a format writes for nothing at all. -/
def ValueFormat.isUnit : ValueFormat → Value → Bool
  | json, .null => true
  | toml, .table [] => true
  | _, _ => false

namespace Value

def entries? : Value → Option (List (Text × Value))
  | table entries => some entries
  | _ => none

/-- The entries of a record with the given keys: a table, or a list of the values in the order of the
keys, of which the last ones may be missing. -/
def record? (keys : List String) : Value → Option (List (Text × Value))
  | table entries => some entries
  | list vs => if vs.length ≤ keys.length then some ((keys.map String.toList).zip vs) else none
  | _ => none

def bool? : Value → Option Bool
  | bool b => some b
  | _ => none

def text? : Value → Option Text
  | text t => some t
  | _ => none

def size? : Value → Option Nat
  | int n => if 0 ≤ n ∧ n ≤ 0xFFFFFFFFFFFFFFFF then some n.toNat else none
  | _ => none

def texts? : Value → Option (List Text)
  | list vs => vs.mapM text?
  | _ => none

def find? (entries : List (Text × Value)) (key : String) : Option Value :=
  (entries.find? (·.1 == key.toList)).map Prod.snd

/-- Reads the value of a key, which keeps its default when the key is absent. -/
def read? {α : Type} (entries : List (Text × Value)) (key : String) (default : α)
    (decode : Value → Option α) : Option α :=
  match find? entries key with
  | none => some default
  | some v => decode v

def ofFields (fields : List (String × Value)) : Value :=
  table (fields.map fun (key, v) => (key.toList, v))

def ofTexts (ts : List Text) : Value := list (ts.map text)

end Value

end SchemaTidy
