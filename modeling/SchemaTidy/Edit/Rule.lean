import SchemaTidy.Tree.Path

/-!
# Rules

A rule changes the arguments of one field constructor call at a time. It may reorder, add or remove
elements, and it reports what it did and what it would not touch.
-/

namespace SchemaTidy

/-- Why a rule left something alone or replaced it. -/
inductive WarningKind where
  /-- A `**mapping` among the arguments. -/
  | unpackedKeywords
  /-- A migrated key was already present in the destination. -/
  | duplicateKey
  /-- The destination argument is not a literal mapping. -/
  | foreignDestination
deriving DecidableEq, Repr

def WarningKind.label : WarningKind → String
  | unpackedKeywords => "unpacked-keywords"
  | duplicateKey => "duplicate-key"
  | foreignDestination => "opaque-destination"

/-- A construct that a rule saw but could not treat in full. -/
structure Warning where
  kind : WarningKind
  className : Text
  fieldName : Text
  position : Position
  message : String
deriving DecidableEq, Repr

def Warning.text (w : Warning) : String :=
  toString w.position.line ++ ":" ++ toString w.position.column ++ ": " ++
    String.ofList w.className ++ "." ++ String.ofList w.fieldName ++ ": " ++ w.message

/-- The call that a rule is asked about. -/
structure Site where
  className : Text
  fieldName : Text
  /-- Simple name of the called constructor. -/
  constructor : Text
  position : Position
  path : StatementPath
  /-- Steps from the call of the field down to this one, none at the top. -/
  callPath : CallPath
  /-- Number of enclosing calls that were visited. -/
  depth : Nat

def Site.warn (s : Site) (kind : WarningKind) (message : String) : Warning :=
  ⟨kind, s.className, s.fieldName, s.position, message⟩

structure Outcome where
  changed : Bool := false
  /-- Names of the keywords that moved, in order. -/
  migrated : List Text := []
  destination : Option Text := none
  createdDestination : Bool := false
  warnings : List Warning := []

def Outcome.merge (a b : Outcome) : Outcome where
  changed := a.changed || b.changed
  migrated := a.migrated ++ b.migrated
  destination := b.destination <|> a.destination
  createdDestination := a.createdDestination || b.createdDestination
  warnings := a.warnings ++ b.warnings

/-- A rule for the arguments of field constructor calls. -/
structure Rule where
  name : String
  description : String
  /-- Rules of higher priority run first. -/
  priority : Nat := 100
  /-- The keyword argument that the rule fills in, which nested visits pass over. -/
  destination : Option Text := none
  /-- Whether the rule is applied at a site. -/
  applies : Site → Bool
  /-- The new arguments, or nothing when the rule fails. -/
  apply : Site → Group → Option (Group × Outcome)
  /-- Whether new arguments are acceptable. -/
  accepts : Group → Bool := fun _ => true
  /-- Whether the rule cannot be installed beside a rule of the given name. -/
  excludes : String → Bool := fun _ => false

end SchemaTidy
