import SchemaTidy.Diff.Compact

/-!
# Unified diffs

The difference of two texts as hunks of changed lines with three lines of context.
-/

namespace SchemaTidy

/-- A stretch of lines that is kept, or replaced by another one; either side may be empty. -/
structure Change where
  isEqual : Bool
  old : Nat
  oldLength : Nat
  new : Nat
  newLength : Nat
deriving DecidableEq, Repr

def contextLines : Nat := 3

namespace Change

def equal (old new length : Nat) : Change := ⟨true, old, length, new, length⟩

def ofStep (s : Step) : Change :=
  ⟨s.kind = .equal, s.old, s.oldLength, s.new, s.newLength⟩

/-- A change joined with the step after it. Kept stretches join, a deletion joins with what it stands
beside, and the new side of a deletion is where the insertion beside it is. -/
def join? (c : Change) (s : Step) : Option Change :=
  match s.kind with
  | .equal =>
      if c.isEqual then some (equal c.old c.new (c.oldLength + s.length)) else none
  | .delete =>
      if c.isEqual then none
      else if c.oldLength = 0 then some { c with old := s.old, oldLength := s.length }
      else some { c with oldLength := c.oldLength + s.length }
  | .insert =>
      if c.isEqual then none
      else if c.newLength = 0 then some { c with new := s.new, newLength := s.length }
      else some { c with newLength := c.newLength + s.length }

/-- The changes of a script, behind the unfinished change `c`. -/
def ofStepsFrom (c : Change) : List Step → List Change
  | [] => [c]
  | s :: ss =>
      match c.join? s with
      | some c' => ofStepsFrom c' ss
      | none => c :: ofStepsFrom (ofStep s) ss

/-- The changes of a script: kept stretches and replacements in turn. -/
def ofSteps : List Step → List Change
  | [] => []
  | s :: ss => ofStepsFrom (ofStep s) ss

def trimStart (c : Change) : Change :=
  if c.isEqual then
    let n := c.oldLength - contextLines
    equal (c.old + n) (c.new + n) (c.oldLength - n)
  else c

def trimEnd (c : Change) : Change :=
  if c.isEqual then equal c.old c.new (min c.oldLength contextLines) else c

end Change

/-- Changes with the kept stretches at both ends cut to the context. -/
def trimContext : List Change → List Change
  | [] => []
  | c :: cs =>
      let changes := c.trimStart :: cs
      changes.modify (changes.length - 1) Change.trimEnd

/-- Groups changes into hunks; a kept stretch longer than twice the context ends a hunk. `hunk` holds
the changes of the unfinished one. -/
def hunksFrom (hunk : List Change) : List Change → List (List Change)
  | [] => if hunk.all (·.isEqual) && hunk.length ≤ 1 then [] else [hunk]
  | c :: cs =>
      if c.isEqual && 2 * contextLines < c.oldLength then
        (hunk ++ [c.trimEnd]) :: hunksFrom [c.trimStart] cs
      else hunksFrom (hunk ++ [c]) cs

def hunks (changes : List Change) : List (List Change) := hunksFrom [] (trimContext changes)

/-- A range of lines in the head of a hunk. An empty range is placed at the line before it. -/
def rangeText (start stop : Nat) : Text :=
  let length := stop - start
  if length = 1 then (toString (start + 1)).toList
  else
    (toString (if length = 0 then start else start + 1) ++ "," ++ toString length).toList

/-- A line of a hunk behind its mark. A line without a terminator is called out. -/
def markedLine (mark : Char) (line : Text) : Text :=
  mark :: line ++
    if line.getLast?.any Text.isLineBreak then [] else "\n\\ No newline at end of file\n".toList

def Change.text (old new : List Text) (c : Change) : Text :=
  if c.isEqual then (stretch old c.old c.oldLength).flatMap (markedLine ' ')
  else
    (stretch old c.old c.oldLength).flatMap (markedLine '-') ++
      (stretch new c.new c.newLength).flatMap (markedLine '+')

def hunkText (old new : List Text) (hunk : List Change) : Text :=
  match hunk.head?, hunk.getLast? with
  | some first, some last =>
      "@@ -".toList ++ rangeText first.old (last.old + last.oldLength) ++ " +".toList ++
        rangeText first.new (last.new + last.newLength) ++ " @@\n".toList ++
        hunk.flatMap (Change.text old new)
  | _, _ => []

/-- The unified diff of two texts, empty when they are equal. -/
def unifiedDiff (old new fromLabel toLabel : Text) : Text :=
  if old = new then []
  else
    let oldLines := Text.lines old
    let newLines := Text.lines new
    let steps := compact oldLines newLines (script oldLines newLines)
    match hunks (Change.ofSteps steps) with
    | [] => []
    | hs =>
        "--- ".toList ++ fromLabel ++ "\n+++ ".toList ++ toLabel ++ ['\n'] ++
          hs.flatMap (hunkText oldLines newLines)

end SchemaTidy
