import SchemaTidy.Schema.Field

/-!
# Schema classes

A class is a schema when one of its positional bases has a name that ends in the configured suffix,
or is the name of another schema class of the same file. Classes are searched at any depth except in
function bodies.
-/

namespace SchemaTidy

/-- A class statement and where it stands. -/
structure SchemaClass where
  signature : ClassSignature
  path : StatementPath
  position : Position
deriving DecidableEq, Repr

/-- A field assignment directly in the body of a schema class. -/
structure FieldAssignment where
  name : Text
  constructor : Text
  path : StatementPath
  position : Position
  /-- The callee as it is written. -/
  callee : Text
deriving DecidableEq, Repr

def isFunctionHeader (header : List Item) : Bool :=
  match header.filterMap Item.token? with
  | first :: rest => first.isName "def" || (first.isName "async" && rest.head?.any (·.isName "def"))
  | [] => false

mutual

/-- The class statements in a statement at `path`, in source order and outside function bodies. -/
def Statement.classes (path : StatementPath) : Statement → List SchemaClass
  | .simple _ => []
  | .compound signature header newline block =>
      let position := (Statement.compound signature header newline block).position
      match signature with
      | some s => ⟨s, path, position⟩ :: block.classes path
      | none => if isFunctionHeader header then [] else block.classes path

/-- The class statements in a block of the statement at `path`. -/
def Block.classes (path : StatementPath) : Block → List SchemaClass
  | ⟨_, body, _⟩ => classesFrom path 0 body

/-- The class statements in statements of the body at `path`, the first of which has index `i`. -/
def classesFrom (path : StatementPath) (i : Nat) : List Statement → List SchemaClass
  | [] => []
  | s :: ss => s.classes (path ++ [i]) ++ classesFrom path (i + 1) ss

end

/-- The class statements of a module outside function bodies, in source order. -/
def Module.classes (m : Module) : List SchemaClass := classesFrom [] 0 m.body

namespace Detector

/-- Whether a class is a schema when `names` are names of schemas. -/
def qualifies (d : Detector) (names : List Text) (s : ClassSignature) : Bool :=
  s.bases.any fun base => d.isSchemaBase base || names.contains base

/-- Names of the classes found to be schemas by at most `n` applications of the rule. -/
def schemaNames (d : Detector) (classes : List SchemaClass) : Nat → List Text
  | 0 => []
  | n + 1 =>
      let names := schemaNames d classes n
      (classes.filter fun c => d.qualifies names c.signature).map (·.signature.name)

/-- The schema classes of a module, in source order. Each application of the rule finds a further
class or none at all, so as many as there are classes suffice. -/
def detect (d : Detector) (m : Module) : List SchemaClass :=
  let names := d.schemaNames m.classes m.classes.length
  m.classes.filter fun c => d.qualifies names c.signature

/-- The field assignments in statements, the first of which has index `i` in the body at `path`. -/
def fieldsFrom (d : Detector) (path : StatementPath) (i : Nat) :
    List Statement → List FieldAssignment
  | [] => []
  | s :: ss =>
      let rest := d.fieldsFrom path (i + 1) ss
      match s.line?.bind d.fieldOf? with
      | some call =>
          ⟨call.target.text, call.constructor, path ++ [i], s.position, call.dotted⟩ :: rest
      | none => rest

/-- The field assignments directly in the body of a schema class. -/
def fields (d : Detector) (m : Module) (c : SchemaClass) : List FieldAssignment :=
  match m.statement? c.path with
  | some (.compound (some _) _ _ block) => d.fieldsFrom c.path 0 block.body
  | _ => []

end Detector

end SchemaTidy
