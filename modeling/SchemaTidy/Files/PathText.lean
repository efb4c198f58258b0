import SchemaTidy.Text.Order

/-!
# Paths

Paths are kept as they are printed. They are compared step by step, so that repeated slashes and
inner dots make no difference.
-/

namespace SchemaTidy

inductive PathStep where
  | root
  | current
  | parent
  | name (t : Text)
deriving DecidableEq, Repr

/-- The order of steps: the root, the current directory, the parent, and then names. -/
def PathStep.le : PathStep → PathStep → Bool
  | root, _ => true
  | current, b => b != root
  | parent, b => b != root && b != current
  | name a, name b => Text.le a b
  | name _, _ => false

namespace PathText

def pieces : Text → List Text
  | [] => [[]]
  | c :: cs =>
      if c == '/' then [] :: pieces cs
      else
        match pieces cs with
        | [] => [[c]]
        | p :: ps => (c :: p) :: ps

/-- The step of a piece, none for an empty one and for a dot. -/
def step? (piece : Text) : Option PathStep :=
  if piece.isEmpty || piece == ['.'] then none
  else if piece == ['.', '.'] then some .parent
  else some (.name piece)

/-- The steps of a path. A dot counts only in front. -/
def steps (path : Text) : List PathStep :=
  let ps := pieces path
  let inner := ps.filterMap step?
  if path.head? == some '/' then .root :: inner
  else if ps.head? == some ['.'] then .current :: inner
  else inner

def stepsLe : List PathStep → List PathStep → Bool
  | [], _ => true
  | _ :: _, [] => false
  | a :: as, b :: bs => if a == b then stepsLe as bs else a.le b

/-- Adds a path to an increasing list, unless one with the same steps is there already. -/
def insert (path : Text) : List Text → List Text
  | [] => [path]
  | p :: ps =>
      if steps path == steps p then p :: ps
      else if stepsLe (steps path) (steps p) then path :: p :: ps
      else p :: insert path ps

/-- The paths of a list in increasing order. Of paths with the same steps the first is kept. -/
def sort (paths : List Text) : List Text := paths.foldl (fun sorted p => insert p sorted) []

def join (directory name : Text) : Text :=
  if directory.isEmpty || directory.getLast? == some '/' then directory ++ name
  else directory ++ '/' :: name

def fileName? (path : Text) : Option Text :=
  match (steps path).getLast? with
  | some (.name t) => some t
  | _ => none

/-- What follows the last dot of a name, provided that something precedes it. -/
def extension? (name : Text) : Option Text :=
  let tail := (name.reverse.takeWhile (· != '.')).reverse
  if tail.length + 1 < name.length then some tail else none

end PathText

end SchemaTidy
