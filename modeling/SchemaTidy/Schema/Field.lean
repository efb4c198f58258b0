import SchemaTidy.Config.Basic
import SchemaTidy.Tree.Path

/-!
# Field calls

A schema field is an assignment `name = dotted.Constructor(arguments)`. Field constructors may also
be called inside the arguments of another call.
-/

namespace SchemaTidy

/-- The parts of `target = dotted.Callee(arguments)`. -/
structure FieldCall where
  target : Token
  /-- Names of the dotted callee, in order. -/
  callee : List Text
  arguments : Group

/-- The names of `a`, `a.b`, `a.b.c` and so on, every part of which is an identifier. -/
def dottedNames? : List Item → Option (List Text)
  | [.token t] => if t.isIdentifier then some [t.text] else none
  | .token t :: .token dot :: rest =>
      if t.isIdentifier && dot.isOp "." then (dottedNames? rest).map (t.text :: ·) else none
  | _ => none

/-- Reads the items of a logical line as a field call. -/
def fieldCall? (items : List Item) : Option FieldCall :=
  match items with
  | .token target :: .token eq :: rest =>
      match rest.getLast? with
      | some (.group arguments) =>
          if target.isIdentifier && eq.isOp "=" && arguments.kind == .call then
            (dottedNames? rest.dropLast).map fun callee => ⟨target, callee, arguments⟩
          else none
      | _ => none
  | _ => none

namespace FieldCall

def constructor (c : FieldCall) : Text := c.callee.getLast?.getD []

def dotted (c : FieldCall) : Text := List.intercalate ['.'] c.callee

end FieldCall

def setArguments (items : List Item) (arguments : Group) : List Item :=
  items.dropLast ++ [.group arguments]

/-- The field call of a simple statement whose constructor is a field constructor. -/
def Detector.fieldOf? (d : Detector) (line : Line) : Option FieldCall :=
  (fieldCall? line.items).filter fun call => d.isFieldConstructor call.constructor

/-- Drops `.name` pairs from items in reverse order. -/
def dropQualifiers : List Item → List Item
  | .token dot :: .token name :: rest =>
      if dot.isOp "." && name.isIdentifier then dropQualifiers rest
      else .token dot :: .token name :: rest
  | items => items

/-- Whether a dotted name can begin after `previous`. -/
def startsExpression (previous : Option Item) : Bool :=
  match previous with
  | none => true
  | some (.token t) => (t.kind == .op && t.text != ".".toList) || t.isReserved
  | some (.group _) => false

/-- The constructor called by `g` when the items before it, in reverse order, end in the dotted name
of a field constructor that starts the element or follows an operator or a keyword. -/
def Detector.constructorBefore? (d : Detector) (before : List Item) (g : Group) : Option Text :=
  match before with
  | .token name :: rest =>
      if g.kind == .call && name.isIdentifier && d.isFieldConstructor name.text &&
          startsExpression (dropQualifiers rest).head? then
        some name.text
      else none
  | _ => none

mutual

/-- Field constructor calls inside the elements of a group, outermost only, with their paths.
Keyword arguments named in `skip` are passed over. -/
def Group.nestedCalls (d : Detector) (skip : List Text) : Group → List (CallPath × Text)
  | ⟨_, elements, _, _, _⟩ => nestedInElements d skip 0 elements

/-- Field constructor calls inside elements, the first of which has index `i`. -/
def nestedInElements (d : Detector) (skip : List Text) (i : Nat) :
    List Element → List (CallPath × Text)
  | [] => []
  | e :: es =>
      (if e.keyword?.any skip.contains then [] else e.nestedCalls d i) ++
        nestedInElements d skip (i + 1) es

/-- Field constructor calls inside the element of index `i`. -/
def Element.nestedCalls (d : Detector) (i : Nat) : Element → List (CallPath × Text)
  | ⟨items, _⟩ => nestedInItems d i 0 [] items

/-- Field constructor calls inside items, the first of which has index `j` in the element of index
`i` and follows the items `before`, which are in reverse order. -/
def nestedInItems (d : Detector) (i j : Nat) (before : List Item) :
    List Item → List (CallPath × Text)
  | [] => []
  | .token t :: rest => nestedInItems d i (j + 1) (.token t :: before) rest
  | .group g :: rest =>
      (match d.constructorBefore? before g with
        | some constructor => [([(i, j)], constructor)]
        | none => (g.nestedCalls d []).map fun (path, constructor) => ((i, j) :: path, constructor))
        ++ nestedInItems d i (j + 1) (.group g :: before) rest

end

end SchemaTidy
