import SchemaTidy.Token.Lexer

/-!
# Comments that trail a block

The lexer gives all trivia before a token to that token, so a comment at the end of an indented
suite would belong to the next outer statement. `attachTrailers` moves such comment lines onto the
marker that closes the suite.
-/

namespace SchemaTidy

/-- Whether a line is terminated and holds blanks only. -/
def isBlankLine (line : Text) : Bool :=
  line.getLast? == some '\n' &&
    ((Text.trimEnd Text.isLineBreak line).dropWhile Text.isIndent).isEmpty

/-- Whether a line is terminated and holds a comment indented by at least `column`. -/
def isCommentLine (column : Nat) (line : Text) : Bool :=
  line.getLast? == some '\n' &&
    ((Text.trimEnd Text.isLineBreak line).dropWhile Text.isIndent).head? == some '#' &&
    column ≤ Text.indentWidth line

/-- The leading blank lines and comment lines indented by at least `column`, up to the last such
comment line. -/
def trailer (column : Nat) (trivia : Text) : Text :=
  let lines := (Text.splitAfter (· == '\n') trivia).takeWhile fun line =>
    isBlankLine line || isCommentLine column line
  (lines.reverse.dropWhile isBlankLine).reverse.flatten

/-- Hands the start of `trivia` to closing markers, each with the column of its block, innermost
first. Returns the markers and what is left. -/
def fillDedents : List (Nat × Token) → Text → List Token × Text
  | [], trivia => ([], trivia)
  | (column, t) :: run, trivia =>
      let moved := trailer column trivia
      let (ts, left) := fillDedents run (trivia.drop moved.length)
      ((if moved.isEmpty then t else { t with trivia := moved }) :: ts, left)

/-- Moves trailing comments onto closing markers. `columns` are those of the open blocks and `run`
holds the closing markers read since the last other token. -/
def attachTrailersFrom (columns : List Nat) (run : List (Nat × Token)) : List Token → List Token
  | [] => run.map Prod.snd
  | t :: ts =>
      if t.kind == .dedent then
        attachTrailersFrom columns.tail (run ++ [(columns.headD 0, t)]) ts
      else
        let (filled, left) := fillDedents run t.trivia
        let columns := if t.kind == .indent then (t.position.column - 1) :: columns else columns
        filled ++ { t with trivia := left } :: attachTrailersFrom columns [] ts

/-- Moves the comment lines that trail a block at the depth of the block onto its closing marker. -/
def attachTrailers (tokens : List Token) : List Token := attachTrailersFrom [] [] tokens

end SchemaTidy
