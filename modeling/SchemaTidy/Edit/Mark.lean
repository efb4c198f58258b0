import SchemaTidy.Schema.Detect

/-!
# Marking fields

Marks the fields of schema classes for printing: their arguments and a literal destination may be
sorted, and in preserve mode the statement may be laid out anew.
-/

namespace SchemaTidy

def markItem : Item → Item
  | .group g => .group (if g.kind == .brace then { g with sortable := true } else g)
  | item => item

/-- Lets the arguments of a field call, and a display as the destination, be sorted. -/
def markArguments (destination : Text) (arguments : Group) : Group :=
  let elements :=
    match arguments.keywordIndex? destination with
    | some i => arguments.elements.modify i fun e => { e with items := e.items.modify 2 markItem }
    | none => arguments.elements
  { arguments with elements, sortable := true }

def markStatement (d : Detector) (destination : Text) (reformat : Bool) : Statement → Statement
  | .simple line =>
      match d.fieldOf? line with
      | some call =>
          .simple { line with
            items := setArguments line.items (markArguments destination call.arguments)
            reformat := line.reformat || reformat }
      | none => .simple line
  | statement => statement

def markClass (d : Detector) (destination : Text) (reformat : Bool) (m : Module)
    (c : SchemaClass) : Module :=
  match m.statement? c.path with
  | some (.compound (some signature) header newline block) =>
      let body := block.body.map (markStatement d destination reformat)
      m.setStatement c.path (.compound (some signature) header newline { block with body })
  | _ => m

def markFields (d : Detector) (destination : Text) (reformat : Bool) (m : Module)
    (classes : List SchemaClass) : Module :=
  classes.foldl (markClass d destination reformat) m

end SchemaTidy
