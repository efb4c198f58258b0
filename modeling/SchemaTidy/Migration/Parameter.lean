import SchemaTidy.Config.Basic

/-!
# Parameters of field constructors

The keyword parameters that field constructors accept themselves, and the selection of the keywords
that are not among them.
-/

namespace SchemaTidy

/-- Parameters that every field constructor accepts. -/
def commonParameters : List Text :=
  ["load_default", "missing", "dump_default", "default", "data_key", "attribute", "validate",
   "required", "allow_none", "load_only", "dump_only", "error_messages",
   "metadata"].map String.toList

/-- Parameters of single constructors: constructors on the left, their parameters on the right. -/
def ownParameterTable : List (List String × List String) :=
  [(["Nested"], ["nested", "only", "exclude", "many", "unknown"]),
   (["Pluck"], ["nested", "field_name", "only", "exclude", "many", "unknown"]),
   (["List"], ["cls_or_instance"]),
   (["Tuple"], ["tuple_fields"]),
   (["Number"], ["as_string"]),
   (["Integer", "Int"], ["strict", "as_string"]),
   (["Float"], ["allow_nan", "as_string"]),
   (["Decimal"], ["places", "rounding", "allow_nan", "as_string"]),
   (["Boolean", "Bool"], ["truthy", "falsy"]),
   (["DateTime", "Time", "Date"], ["format"]),
   (["NaiveDateTime"], ["format", "timezone"]),
   (["AwareDateTime"], ["format", "default_timezone"]),
   (["TimeDelta"], ["precision", "serialization_type"]),
   (["Mapping", "Dict"], ["keys", "values"]),
   (["Url", "URL"], ["relative", "absolute", "schemes", "require_tld"]),
   (["IP", "IPv4", "IPv6", "IPInterface", "IPv4Interface", "IPv6Interface"], ["exploded"]),
   (["Enum"], ["enum", "by_value"]),
   (["Method", "Function"], ["serialize", "deserialize"]),
   (["Constant"], ["constant"])]

/-- Parameters of one constructor beside the common ones. -/
def ownParameters (constructor : Text) : List Text :=
  match ownParameterTable.find? fun row => row.1.any (·.toList == constructor) with
  | some row => row.2.map String.toList
  | none => []

/-- Whether `name` is a parameter of a constructor. -/
def isCoreParameter (constructor name : Text) : Bool :=
  commonParameters.contains name || (ownParameters constructor).contains name

/-- Whether keyword `name` of a call of `constructor` moves into the destination. -/
def MigrationRule.selects (r : MigrationRule) (constructor name : Text) : Bool :=
  name != r.destination &&
    match r.selection with
    | .named names => names.contains name
    | .nonCore => !isCoreParameter constructor name && !r.extraCore.contains name

end SchemaTidy
