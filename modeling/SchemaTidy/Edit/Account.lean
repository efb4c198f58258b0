import SchemaTidy.Config.Value
import SchemaTidy.Edit.Engine

/-!
# Reports as values

The part of a report that is shown to other programs. The arguments that an edit keeps for undoing
are left out.
-/

namespace SchemaTidy

def Value.ofNat (n : Nat) : Value := .int n

def Position.toValue (p : Position) : Value :=
  .ofFields [("line", .ofNat p.line), ("column", .ofNat p.column)]

def Edit.toValue (e : Edit) : Value :=
  .ofFields
    [("class_name", .text e.className), ("field_name", .text e.fieldName),
     ("constructor", .text e.constructor), ("position", e.position.toValue),
     ("migrated", .ofTexts e.migrated), ("destination", (e.destination.map .text).getD .null),
     ("created_destination", .bool e.createdDestination), ("path", .list (e.path.map .ofNat)),
     ("call_path", .list (e.callPath.map fun (i, j) => .list [.ofNat i, .ofNat j]))]

def Warning.toValue (w : Warning) : Value :=
  .ofFields
    [("kind", .text w.kind.label.toList), ("class_name", .text w.className),
     ("field_name", .text w.fieldName), ("position", w.position.toValue),
     ("message", .text w.message.toList)]

def Report.toFields (r : Report) : List (String × Value) :=
  [("schemas", .ofNat r.schemas), ("fields_visited", .ofNat r.fieldsVisited),
   ("edits", .list (r.edits.map Edit.toValue)), ("warnings", .list (r.warnings.map Warning.toValue))]

def Report.toValue (r : Report) : Value := .ofFields r.toFields

end SchemaTidy
