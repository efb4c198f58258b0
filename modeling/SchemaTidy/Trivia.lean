import SchemaTidy.Text.Blank

/-!
# Trivia

Comments and blank lines in the text before a token.
-/

namespace SchemaTidy.Trivia

inductive TriviaLine where
  | blank
  | comment (text : Text)
deriving DecidableEq, Repr

/-- A comment from its number sign to its last character that is not white space. -/
def comment? (fragment : Text) : Option Text :=
  if fragment.contains '#' then
    some (Text.trimEnd Text.isBlank (fragment.dropWhile (· != '#')))
  else none

/-- Cuts off the part on the line of the previous token when that part holds a comment. -/
def splitSameLine (trivia : Text) : Text × Text :=
  let first := trivia.takeWhile (!Text.isLineBreak ·)
  if first.contains '#' then (first, trivia.dropWhile (!Text.isLineBreak ·)) else ([], trivia)

/-- The comment on the line of the previous token. -/
def sameLineComment? (trivia : Text) : Option Text := comment? (splitSameLine trivia).1

/-- What one line of trivia holds. The last line may lack a terminator: it is the indentation of
the token unless it holds a comment. -/
def line? (line : Text) : Option TriviaLine :=
  let content := Text.trim Text.isBlank line
  match comment? content with
  | some text => some (.comment text)
  | none => if line.getLast? == some '\n' && content.isEmpty then some .blank else none

/-- Full lines of trivia that starts at the beginning of a line; lines end at `\n`. -/
def lines (trivia : Text) : List TriviaLine :=
  (Text.splitAfter (· == '\n') trivia).filterMap line?

def ownLineComments (trivia : Text) : List Text :=
  (lines (splitSameLine trivia).2).filterMap fun
    | .comment text => some text
    | .blank => none

def comments (trivia : Text) : List Text := (sameLineComment? trivia).toList ++ ownLineComments trivia

end SchemaTidy.Trivia
