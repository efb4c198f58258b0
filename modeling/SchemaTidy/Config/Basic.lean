import SchemaTidy.Text.Numeric
import SchemaTidy.Text.Order
import SchemaTidy.Token.Basic

/-!
# Configuration

Everything that printing, detection and migration read, as immutable values, and the conditions a
run puts on them.
-/

namespace SchemaTidy

/-- How printing treats statements that no rule has changed. -/
inductive PrintMode where
  /-- Lay every statement out anew. -/
  | canonical
  /-- Give untouched statements back as they were. -/
  | preserve
deriving DecidableEq, Repr

/-- Layout of printed text. -/
structure Style where
  /-- Target width of a line, in columns. -/
  lineLength : Nat := 80
  /-- Blanks for each level of indentation. -/
  indentSize : Nat := 4
  mode : PrintMode := .canonical
  /-- Use one spelling for the marks and quotes of string literals. -/
  normalizeQuotes : Bool := true
  /-- Keep single quotes where double quotes would need more backslashes. -/
  preferFewerEscapes : Bool := true
  /-- Sort keyword arguments and mapping keys of schema fields. -/
  sortKeys : Bool := false
  /-- End exploded brackets with a comma, and explode brackets that end with one. -/
  trailingCommas : Bool := true
  /-- Wrap long plain strings at blanks. -/
  wrapStrings : Bool := true
deriving DecidableEq, Repr

def Style.indentUnit (s : Style) : Text := List.replicate s.indentSize ' '

/-- Which keyword arguments move into the destination mapping. -/
inductive Selection where
  /-- Every keyword that is not a parameter of the called constructor. -/
  | nonCore
  /-- Exactly these names, in increasing order. -/
  | named (names : List Text)
deriving DecidableEq, Repr

def Selection.ofNames (names : List Text) : Selection := .named (Text.sortedSet names)

structure MigrationRule where
  enabled : Bool := false
  /-- Name of the mapping argument that receives the keywords. -/
  destination : Text := "metadata".toList
  selection : Selection := .nonCore
  /-- Further names that count as parameters of every constructor, in increasing order. -/
  extraCore : List Text := []
deriving DecidableEq, Repr

structure Detector where
  /-- A base whose simple name ends so marks a schema class. -/
  schemaSuffix : Text := "Schema".toList
  /-- Names of further field constructors, in increasing order. -/
  extraFields : List Text := []
  /-- Whether rules also visit field constructors inside the arguments of another one. -/
  visitNested : Bool := true
deriving DecidableEq, Repr

structure Config where
  style : Style := {}
  migration : MigrationRule := {}
  detector : Detector := {}
  /-- In preserve mode, lay out every schema field and not only the changed ones. -/
  formatFields : Bool := true
deriving DecidableEq, Repr

/-- Field constructors that are known without configuration. -/
def standardConstructors : List Text :=
  ["Field", "Raw", "Nested", "Pluck", "List", "Tuple", "String", "Str", "UUID", "Number",
   "Integer", "Int", "Decimal", "Boolean", "Bool", "Float", "DateTime", "NaiveDateTime",
   "AwareDateTime", "Time", "Date", "TimeDelta", "Mapping", "Dict", "Url", "URL", "Email", "IP",
   "IPv4", "IPv6", "IPInterface", "IPv4Interface", "IPv6Interface", "Enum", "Method", "Function",
   "Constant"].map String.toList

/-- Whether a name is that of a field constructor. -/
def Detector.isFieldConstructor (d : Detector) (name : Text) : Bool :=
  standardConstructors.contains name || d.extraFields.contains name

/-- Whether a base name marks a schema class by itself. -/
def Detector.isSchemaBase (d : Detector) (base : Text) : Bool := d.schemaSuffix.isSuffixOf base

/-- Whether a text is a word that may name a keyword argument. -/
def isIdentifierName : Text → Bool
  | [] => false
  | c :: cs => Text.isWordStart c && cs.all Text.isWord && !isKeyword (c :: cs)

inductive ConfigError where
  | lineLength (n : Nat)
  | indentSize (n : Nat)
  | destination (name : Text)
  | emptySuffix
  | keywordName (name : Text)
  /-- Two rules that cannot be installed together. -/
  | conflict (message : String)
deriving DecidableEq, Repr

def ConfigError.message (e : ConfigError) : String :=
  "Configuration error: " ++
    match e with
    | lineLength n => "line-length must be at least 10, got " ++ toString n
    | indentSize n => "indent-size must be between 1 and 16, got " ++ toString n
    | destination name =>
        "destination `" ++ String.ofList name ++ "` is not a valid keyword argument name"
    | emptySuffix => "schema-suffix must not be empty"
    | keywordName name => "`" ++ String.ofList name ++ "` is not a valid keyword argument name"
    | conflict message => message

namespace Config

/-- The first name of a selection that cannot name a keyword argument. -/
def badName? : Selection → Option Text
  | .nonCore => none
  | .named names => names.find? (!isIdentifierName ·)

/-- Checks what the types of the settings do not already exclude. -/
def validate (c : Config) : Except ConfigError Unit :=
  if c.style.lineLength < 10 then .error (.lineLength c.style.lineLength)
  else if c.style.indentSize = 0 ∨ 16 < c.style.indentSize then
    .error (.indentSize c.style.indentSize)
  else if !isIdentifierName c.migration.destination then
    .error (.destination c.migration.destination)
  else if c.detector.schemaSuffix.isEmpty then .error .emptySuffix
  else
    match badName? c.migration.selection with
    | some name => .error (.keywordName name)
    | none => .ok ()

/-- Turns on migration of the given keywords into `destination`. -/
def migrating (c : Config) (names : List Text) (destination : Text) : Config :=
  { c with
    migration := { c.migration with
      enabled := true
      selection := .ofNames names
      destination } }

end Config

end SchemaTidy
