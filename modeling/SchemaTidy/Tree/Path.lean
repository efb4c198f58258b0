import SchemaTidy.Tree.Basic

/-!
# Paths in a tree

A statement is addressed by the indices that lead to it through nested blocks, and a group inside
another by pairs of an element index and an item index.
-/

namespace SchemaTidy

/-- Indices through nested block bodies, from the module down. -/
abbrev StatementPath := List Nat

/-- Pairs of element and item indices, from a group down. -/
abbrev CallPath := List (Nat × Nat)

/-- The statement at a path below some statements. -/
def statementAt? (body : List Statement) : StatementPath → Option Statement
  | [] => none
  | [i] => body[i]?
  | i :: j :: rest =>
      match body[i]? with
      | some s =>
          match s.block? with
          | some block => statementAt? block.body (j :: rest)
          | none => none
      | none => none

def Statement.withBlock (b : Block) : Statement → Statement
  | .simple line => .simple line
  | .compound signature header newline _ => .compound signature header newline b

/-- Changes the body that holds the statement at a path. `edit` gets the body and the index of the
statement in it. -/
def editBodyAt (edit : List Statement → Nat → List Statement) (body : List Statement) :
    StatementPath → List Statement
  | [] => body
  | [i] => edit body i
  | i :: j :: rest =>
      match body[i]? with
      | some s =>
          match s.block? with
          | some block =>
              body.set i (s.withBlock { block with body := editBodyAt edit block.body (j :: rest) })
          | none => body
      | none => body

namespace Module

def statement? (m : Module) (path : StatementPath) : Option Statement := statementAt? m.body path

def setStatement (m : Module) (path : StatementPath) (s : Statement) : Module :=
  { m with body := editBodyAt (fun body i => body.set i s) m.body path }

def eraseStatement (m : Module) (path : StatementPath) : Module :=
  { m with body := editBodyAt (fun body i => body.eraseIdx i) m.body path }

end Module

namespace Group

def child? (g : Group) (step : Nat × Nat) : Option Group :=
  g.elements[step.1]?.bind fun e => e.items[step.2]?.bind Item.group?

def setChild (g : Group) (step : Nat × Nat) (inner : Group) : Group :=
  { g with
    elements := g.elements.modify step.1 fun e => { e with items := e.items.set step.2 (.group inner) } }

def at? (g : Group) : CallPath → Option Group
  | [] => some g
  | step :: rest => (g.child? step).bind fun inner => inner.at? rest

def setAt (g : Group) (path : CallPath) (new : Group) : Group :=
  match path with
  | [] => new
  | step :: rest =>
      match g.child? step with
      | some inner => g.setChild step (inner.setAt rest new)
      | none => g

end Group

end SchemaTidy
