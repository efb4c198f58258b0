import SchemaTidy.Token.Position

/-!
# Malformed source

The ways in which a source text can fail to have tokens or a tree, and where.
-/

namespace SchemaTidy

/-- What is wrong with a source text. -/
inductive Fault where
  | unindent
  | continuationAtEnd
  | continuationTail
  | unterminatedString
  | unterminatedTripleString
  | invalidCharacter (c : Char)
  | unmatched (closing : Char)
  | mismatched (closing opening : Char)
  | neverClosed (opening : Text)
  | invalid
  | unexpectedIndent
  | missingBlock
deriving DecidableEq, Repr

/-- A fault and the place where it was noticed. -/
structure ParseError where
  fault : Fault
  position : Position
deriving DecidableEq, Repr

def Fault.message : Fault → String
  | unindent => "unindent does not match any outer indentation level"
  | continuationAtEnd => "unexpected EOF after line continuation"
  | continuationTail => "unexpected character after line continuation character"
  | unterminatedString => "unterminated string literal"
  | unterminatedTripleString => "unterminated triple-quoted string literal"
  | invalidCharacter c => "invalid character '" ++ String.singleton c ++ "'"
  | unmatched c => "unmatched '" ++ String.singleton c ++ "'"
  | mismatched c o =>
      "closing parenthesis '" ++ String.singleton c ++ "' does not match opening parenthesis '" ++
        String.singleton o ++ "'"
  | neverClosed o => "'" ++ String.ofList o ++ "' was never closed"
  | invalid => "invalid syntax"
  | unexpectedIndent => "unexpected indent"
  | missingBlock => "expected an indented block"

def ParseError.message (e : ParseError) : String :=
  e.fault.message ++ " at line " ++ toString e.position.line ++ ", column " ++
    toString e.position.column

end SchemaTidy
