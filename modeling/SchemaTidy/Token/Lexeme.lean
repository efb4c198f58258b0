import SchemaTidy.Text.Numeric
import SchemaTidy.Token.Basic
import SchemaTidy.Token.Error

/-!
# Lexemes

How far each kind of lexeme reaches. Every scanner returns the number of characters it takes, so the
text it takes and the text it leaves are a cut of its input.
-/

namespace SchemaTidy.Lexeme

/-- Operators of more than one character, longest first. -/
def longOperators : List Text :=
  ["**=", "//=", ">>=", "<<=", "...", "**", "//", ">>", "<<", "<=", ">=", "==", "!=", "->", "+=",
   "-=", "*=", "/=", "%=", "&=", "|=", "^=", "@=", ":="].map String.toList

def shortOperators : Text := "+-*/%@&|^~<>()[]\x7b\x7d,:.;=".toList

/-- Words that may stand directly before the opening quote of a literal, in lower case. -/
def literalMarks : List Text := ["r", "u", "f", "b", "br", "rb", "fr", "rf"].map String.toList

def operatorLength? (cs : Text) : Option Nat :=
  match longOperators.find? (·.isPrefixOf cs) with
  | some op => some op.length
  | none =>
      match cs with
      | c :: _ => if shortOperators.contains c then some 1 else none
      | [] => none

/-- Length of the digits, letters, points and exponent signs that continue a number. -/
def numberTail (hex : Bool) : Text → Nat
  | c :: sign :: cs =>
      if Text.isWord c || c == '.' then
        if !hex && (c == 'e' || c == 'E') && (sign == '+' || sign == '-') then
          numberTail hex cs + 2
        else numberTail hex (sign :: cs) + 1
      else 0
  | [c] => if Text.isWord c || c == '.' then 1 else 0
  | [] => 0

def numberLength (cs : Text) : Nat :=
  numberTail ("0x".toList.isPrefixOf cs || "0X".toList.isPrefixOf cs) cs

/-- What an unfinished string literal waits for. -/
inductive Frame where
  /-- The closing quote of a literal that starts at `start`. -/
  | body (quote : Char) (triple formatted : Bool) (start : Position)
  /-- The closing brace of a replacement field in the literal that starts at `start`. Brackets are
  counted until the format specification begins. -/
  | field (triple : Bool) (depth : Nat) (inSpec : Bool) (start : Position)

def isTriple (quote : Char) (cs : Text) : Bool := [quote, quote, quote].isPrefixOf cs

def quoteLength (quote : Char) (cs : Text) : Nat := if isTriple quote cs then 3 else 1

/-- The move over one lexical unit of a literal: how many characters it takes after the first one,
and the frames that remain. -/
def literalStep (here : Position) (c : Char) (cs : Text) :
    List Frame → Except ParseError (Nat × List Frame)
  | [] => .ok (0, [])
  | .body quote triple formatted start :: outer =>
      let top := Frame.body quote triple formatted start
      if c == '\\' then
        match cs with
        | [] => .ok (0, top :: outer)
        | d :: _ =>
            if Text.isLineBreak d then .ok (Text.lineBreakLength cs, top :: outer)
            else .ok (1, top :: outer)
      else if Text.isLineBreak c then
        if triple then .ok (Text.lineBreakLength (c :: cs) - 1, top :: outer)
        else .error ⟨.unterminatedString, start⟩
      else if c == quote then
        if triple then
          if isTriple quote (c :: cs) then .ok (2, outer) else .ok (0, top :: outer)
        else .ok (0, outer)
      else if c == '{' && formatted then
        match cs with
        | '{' :: _ => .ok (1, top :: outer)
        | _ => .ok (0, .field triple 0 false start :: top :: outer)
      else .ok (0, top :: outer)
  | .field triple depth inSpec start :: outer =>
      let top := Frame.field triple depth inSpec start
      if Text.isLineBreak c then
        if triple then .ok (Text.lineBreakLength (c :: cs) - 1, top :: outer)
        else .error ⟨.unterminatedString, start⟩
      else if c == '}' && depth == 0 then .ok (0, outer)
      else if c == '{' && inSpec then .ok (0, .field triple 0 false start :: top :: outer)
      else if c == ':' && depth == 0 && !inSpec then
        .ok (0, .field triple depth true start :: outer)
      else if inSpec then .ok (0, top :: outer)
      else if c == '"' || c == '\'' then
        .ok (quoteLength c (c :: cs) - 1, .body c (isTriple c (c :: cs)) false here :: top :: outer)
      else if Text.isAlphabetic c then
        let n := Text.lengthWhile Text.isWord cs
        let word := c :: cs.take n
        match cs.drop n with
        | q :: rest =>
            if (q == '"' || q == '\'') && literalMarks.contains (Text.lower word) then
              .ok (n + quoteLength q (q :: rest),
                .body q (isTriple q (q :: rest)) ((Text.lower word).contains 'f')
                  (here.after word) :: top :: outer)
            else .ok (n, top :: outer)
        | [] => .ok (n, top :: outer)
      else if c == '(' || c == '[' || c == '{' then
        .ok (0, .field triple (depth + 1) inSpec start :: outer)
      else if c == ')' || c == ']' || c == '}' then
        .ok (0, .field triple (depth - 1) inSpec start :: outer)
      else .ok (0, top :: outer)

/-- The fault of a literal that the end of the text leaves unfinished. -/
def Frame.unfinished : Frame → ParseError
  | .body _ triple _ start =>
      ⟨if triple then .unterminatedTripleString else .unterminatedString, start⟩
  | .field _ _ _ start => ⟨.unterminatedString, start⟩

/-- Number of characters until all frames are closed. -/
def literalTail (here : Position) (frames : List Frame) (cs : Text) : Except ParseError Nat :=
  match frames, cs with
  | [], _ => .ok 0
  | top :: _, [] => .error top.unfinished
  | top :: outer, c :: rest =>
      match literalStep here c rest (top :: outer) with
      | .error e => .error e
      | .ok (n, frames') =>
          match literalTail (here.after (c :: rest.take n)) frames' (rest.drop n) with
          | .error e => .error e
          | .ok m => .ok (m + n + 1)
termination_by cs.length
decreasing_by simp only [List.length_cons, List.length_drop]; omega

/-- Length of the string literal whose quotes start at `quoted`. The literal itself starts at
`start`, where an unfinished literal is reported. -/
def literalLength (formatted : Bool) (start here : Position) (quote : Char) (quoted : Text) :
    Except ParseError Nat :=
  let n := quoteLength quote quoted
  (literalTail (here.after (quoted.take n)) [.body quote (isTriple quote quoted) formatted start]
    (quoted.drop n)).map (· + n)

/-- What a piece of source text is. -/
inductive Piece where
  /-- Part of the trivia before the next token. -/
  | trivia
  | token (kind : TokenKind)
deriving DecidableEq, Repr

/-- The piece that starts with `c` and its number of further characters. Line breaks end a logical
line unless a bracket is open. -/
def scan (inBrackets : Bool) (here : Position) (c : Char) (cs : Text) :
    Except ParseError (Piece × Nat) :=
  if Text.isIndent c then .ok (.trivia, 0)
  else if c == '\\' then
    match cs with
    | [] => .error ⟨.continuationAtEnd, here⟩
    | d :: _ =>
        if Text.isLineBreak d then .ok (.trivia, Text.lineBreakLength cs)
        else .error ⟨.continuationTail, here⟩
  else if c == '#' then .ok (.trivia, Text.lengthWhile (!Text.isLineBreak ·) cs)
  else if Text.isLineBreak c then
    .ok (if inBrackets then .trivia else .token .newline, Text.lineBreakLength (c :: cs) - 1)
  else if Text.isWordStart c then
    let n := Text.lengthWhile Text.isWord cs
    let word := c :: cs.take n
    match cs.drop n with
    | q :: rest =>
        if (q == '"' || q == '\'') && literalMarks.contains (Text.lower word) then
          (literalLength ((Text.lower word).contains 'f') here (here.after word) q (q :: rest)).map
            fun m => (.token .string, n + m)
        else .ok (.token .name, n)
    | [] => .ok (.token .name, n)
  else if c == '"' || c == '\'' then
    (literalLength false here here c (c :: cs)).map fun m => (.token .string, m - 1)
  else if c.isDigit || (c == '.' && cs.head?.any Char.isDigit) then
    .ok (.token .number, numberLength (c :: cs) - 1)
  else
    match operatorLength? (c :: cs) with
    | some n => .ok (.token .op, n - 1)
    | none => .error ⟨.invalidCharacter c, here⟩

end SchemaTidy.Lexeme
