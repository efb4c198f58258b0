import SchemaTidy.Print.Layout
import SchemaTidy.Tree.Source

/-!
# Printing a module

In canonical mode every statement is laid out anew: indentation becomes a fixed number of blanks for
each level, and comments and blank lines stay at their statements. In preserve mode the source comes
back as it was, except for simple statements marked for reformatting, which keep their indentation,
the trivia before them and the comment behind them.
-/

namespace SchemaTidy

/-- The physical lines of a logical line. Comments between its items go above it, and the comment
before its newline behind it. -/
def printLine (style : Style) (indent : Text) (items : List Item) (newline : Token) : List Text :=
  let lines :=
    (innerComments items).map (indent ++ ·) ++
      layout style indent [] false (lineChunks style items)
  appendToLast (commentTail (Trivia.sameLineComment? newline.trivia).toList) lines

def Style.indentAt (style : Style) (depth : Nat) : Text :=
  List.replicate (depth * style.indentSize) ' '

/-- The physical lines of trivia at a depth; a blank line is none. -/
def triviaRows (style : Style) (depth : Nat) (trivia : Text) : List (Option Text) :=
  (Trivia.lines trivia).map fun
    | .blank => none
    | .comment text => some (style.indentAt depth ++ text)

/-- The physical lines of the first logical line of a statement and the trivia before it. -/
def headerRows (style : Style) (depth : Nat) (items : List Item) (newline : Token) :
    List (Option Text) :=
  let leading := match items with
    | i :: _ => triviaRows style depth i.firstToken.trivia
    | [] => []
  leading ++ (printLine style (style.indentAt depth) items newline).map some

mutual

/-- The physical lines of a statement in canonical mode. -/
def Statement.rows (style : Style) (depth : Nat) : Statement → List (Option Text)
  | .simple line => headerRows style depth line.items line.newline
  | .compound _ header newline block =>
      headerRows style depth header newline ++ block.rows style (depth + 1)

/-- The physical lines of a block in canonical mode. -/
def Block.rows (style : Style) (depth : Nat) : Block → List (Option Text)
  | ⟨_, body, dedent⟩ => rowsOf style depth body ++ triviaRows style depth dedent.trivia

/-- The physical lines of statements in canonical mode. -/
def rowsOf (style : Style) (depth : Nat) : List Statement → List (Option Text)
  | [] => []
  | s :: ss => s.rows style depth ++ rowsOf style depth ss

end

def joinLines (lineBreak : Text) (lines : List Text) : Text := lines.flatMap (· ++ lineBreak)

/-- Prints a module in canonical mode. Blank lines neither open nor close the text. -/
def Module.printCanonical (style : Style) (m : Module) : Text :=
  let rows := rowsOf style 0 m.body ++ triviaRows style 0 m.endMarker.trivia
  let lines := (rows.dropWhile Option.isNone).map (·.getD [])
  joinLines m.lineBreak (lines.reverse.dropWhile List.isEmpty).reverse

/-- Prints a logical line anew at its own indentation. The trivia above it stays. -/
def Line.reprint (style : Style) (lineBreak : Text) (l : Line) : Text :=
  let trivia := match l.items with
    | i :: _ => i.firstToken.trivia
    | [] => []
  let own := (trivia.reverse.takeWhile (· != '\n')).reverse
  let indent := own.filter fun c => c == ' ' || c == '\t'
  trivia.take (trivia.length - own.length) ++
    List.intercalate lineBreak (printLine style indent l.items l.newline) ++ l.newline.text

mutual

def Statement.printPreserved (style : Style) (lineBreak : Text) : Statement → Text
  | .simple line => if line.reformat then line.reprint style lineBreak else spell line.tokens
  | .compound _ header newline block =>
      spell (tokensOfItems header) ++ newline.source ++ block.printPreserved style lineBreak

def Block.printPreserved (style : Style) (lineBreak : Text) : Block → Text
  | ⟨indent, body, dedent⟩ =>
      indent.source ++ printPreservedBody style lineBreak body ++ dedent.source

def printPreservedBody (style : Style) (lineBreak : Text) : List Statement → Text
  | [] => []
  | s :: ss => s.printPreserved style lineBreak ++ printPreservedBody style lineBreak ss

end

def Module.print (style : Style) (m : Module) : Text :=
  match style.mode with
  | .canonical => m.printCanonical style
  | .preserve => printPreservedBody style m.lineBreak m.body ++ m.endMarker.source

end SchemaTidy
