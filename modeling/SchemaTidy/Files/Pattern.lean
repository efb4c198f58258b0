import SchemaTidy.Text.Basic

/-!
# Exclusion patterns

A pattern is a list of alternatives, each a sequence of characters and anchors. It is searched for
anywhere in a path.
-/

namespace SchemaTidy

inductive PatternAtom where
  | literal (c : Char)
  /-- Any character but a line feed. -/
  | any
  /-- The start of the text. -/
  | start
  /-- The end of the text. -/
  | finish
deriving DecidableEq, Repr

abbrev Pattern := List (List PatternAtom)

namespace Pattern

def isEscapable (c : Char) : Bool :=
  c.toNat < 128 && !c.isAlphanum && c != '<' && c != '>'

/-- Characters with a meaning that patterns do not offer. -/
def isReserved (c : Char) : Bool := ['(', ')', '[', '{', '*', '+', '?'].contains c

/-- Puts an atom in front of the first alternative. -/
def push (a : PatternAtom) : Pattern → Pattern
  | [] => [[a]]
  | as :: rest => (a :: as) :: rest

def parse? : Text → Option Pattern
  | [] => some [[]]
  | '\\' :: c :: cs => if isEscapable c then (parse? cs).map (push (.literal c)) else none
  | c :: cs =>
      match c with
      | '|' => (parse? cs).map ([] :: ·)
      | '^' => (parse? cs).map (push .start)
      | '$' => (parse? cs).map (push .finish)
      | '.' => (parse? cs).map (push .any)
      | '\\' => none
      | c => if isReserved c then none else (parse? cs).map (push (.literal c))

/-- Whether a text starts with a match of the atoms. `atStart` tells whether nothing precedes it. -/
def matchesHere : List PatternAtom → Bool → Text → Bool
  | [], _, _ => true
  | .start :: as, atStart, cs => atStart && matchesHere as atStart cs
  | .finish :: as, atStart, cs => cs.isEmpty && matchesHere as atStart cs
  | .any :: as, _, c :: cs => c != '\n' && matchesHere as false cs
  | .literal a :: as, _, c :: cs => a == c && matchesHere as false cs
  | .any :: _, _, [] => false
  | .literal _ :: _, _, [] => false

/-- Whether an alternative matches at some place of a text. -/
def matchesFrom (p : Pattern) (atStart : Bool) : Text → Bool
  | [] => p.any (matchesHere · atStart [])
  | c :: cs => p.any (matchesHere · atStart (c :: cs)) || matchesFrom p false cs

/-- Whether a pattern occurs in a path. A backslash in the path counts as a slash. -/
def excludes (p : Pattern) (path : Text) : Bool :=
  p.matchesFrom true (path.map fun c => if c == '\\' then '/' else c)

end Pattern

end SchemaTidy
