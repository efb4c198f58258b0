import SchemaTidy.Token.Position

/-!
# Tokens

A token owns its exact text and the trivia before it: blanks, comments, blank lines and line
continuations. The sources of the tokens of a file, one after another, are the file.
-/

namespace SchemaTidy

inductive TokenKind where
  | name
  | number
  | string
  | op
  | newline
  | indent
  | dedent
  | endMarker
deriving DecidableEq, Repr

/-- A token with everything that stands between the previous token and itself. -/
structure Token where
  kind : TokenKind
  text : Text
  trivia : Text
  position : Position
deriving DecidableEq, Repr

def keywords : List Text :=
  ["False", "None", "True", "and", "as", "assert", "async", "await", "break", "class", "continue",
   "def", "del", "elif", "else", "except", "finally", "for", "from", "global", "if", "import",
   "in", "is", "lambda", "nonlocal", "not", "or", "pass", "raise", "return", "try", "while",
   "with", "yield"].map String.toList

def isKeyword (word : Text) : Bool := keywords.contains word

namespace Token

/-- A token that does not come from source text. -/
def synthetic (kind : TokenKind) (text : Text) : Token := ⟨kind, text, [], .nowhere⟩

def ofOp (text : String) : Token := synthetic .op text.toList

def ofName (text : Text) : Token := synthetic .name text

def withTrivia (t : Token) (trivia : Text) : Token := { t with trivia }

def source (t : Token) : Text := t.trivia ++ t.text

def isOp (t : Token) (text : String) : Bool := t.kind == .op && t.text == text.toList

def isName (t : Token) (text : String) : Bool := t.kind == .name && t.text == text.toList

/-- Whether a token is a name that is not a keyword. -/
def isIdentifier (t : Token) : Bool := t.kind == .name && !isKeyword t.text

def isReserved (t : Token) : Bool := t.kind == .name && isKeyword t.text

def hasComment (t : Token) : Bool := t.trivia.contains '#'

def isOpening (t : Token) : Bool := t.isOp "(" || t.isOp "[" || t.isOp "\x7b"

def isClosing (t : Token) : Bool := t.isOp ")" || t.isOp "]" || t.isOp "\x7d"

end Token

end SchemaTidy
