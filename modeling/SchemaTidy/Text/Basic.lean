/-!
# Text

Source text is a list of characters. Every layer above cuts text into pieces whose concatenation
is the text again, so the operations here return both parts of a cut.
-/

namespace SchemaTidy

/-- Source text, one entry for each Unicode scalar value. -/
abbrev Text := List Char

namespace Text

def isLineBreak (c : Char) : Bool := c == '\n' || c == '\r'

/-- Characters that indent a line: blank, tab and form feed. -/
def isIndent (c : Char) : Bool := c == ' ' || c == '\t' || c == '\x0c'

/-- Physical lines with their terminators, which are `\n`, `\r\n` or a lone `\r`. -/
def lines : Text → List Text
  | [] => []
  | '\r' :: '\n' :: cs => ['\r', '\n'] :: lines cs
  | c :: cs =>
      if isLineBreak c then [c] :: lines cs
      else
        match lines cs with
        | [] => [[c]]
        | l :: ls => (c :: l) :: ls

/-- Pieces of a text, each ending after the next character that satisfies `stop`. -/
def splitAfter (stop : Char → Bool) : Text → List Text
  | [] => []
  | c :: cs =>
      if stop c then [c] :: splitAfter stop cs
      else
        match splitAfter stop cs with
        | [] => [[c]]
        | l :: ls => (c :: l) :: ls

/-- Length of the line terminator a text starts with, zero when there is none. -/
def lineBreakLength : Text → Nat
  | '\r' :: '\n' :: _ => 2
  | c :: _ => if isLineBreak c then 1 else 0
  | [] => 0

/-- Number of leading characters that satisfy `p`. -/
def lengthWhile (p : Char → Bool) (t : Text) : Nat := (t.takeWhile p).length

/-- The text without its trailing characters that satisfy `p`. -/
def trimEnd (p : Char → Bool) (t : Text) : Text := (t.reverse.dropWhile p).reverse

/-- The text without the characters at either end that satisfy `p`. -/
def trim (p : Char → Bool) (t : Text) : Text := trimEnd p (t.dropWhile p)

/-- The text that remains after `lead`, when the text starts with it. -/
def after? (lead : Text) (t : Text) : Option Text :=
  if lead.isPrefixOf t then some (t.drop lead.length) else none

/-- Width of the indentation of a line: a blank counts one column, a tab goes to the next multiple
of eight and a form feed back to the first column. -/
def indentWidth (line : Text) : Nat :=
  (line.takeWhile isIndent).foldl
    (fun width c => if c == ' ' then width + 1 else if c == '\t' then (width / 8 + 1) * 8 else 0) 0

def lower (t : Text) : Text := t.map Char.toLower

theorem flatten_splitAfter (stop : Char → Bool) (t : Text) : (splitAfter stop t).flatten = t := by
  induction t with
  | nil => rfl
  | cons c cs ih =>
      rw [splitAfter]
      split
      · simp [ih]
      · cases h : splitAfter stop cs with
        | nil => rw [h] at ih; simp [← ih]
        | cons l ls => rw [h] at ih; simp [← ih]

theorem flatten_lines (t : Text) : (lines t).flatten = t := by
  fun_induction lines t with
  | case1 => rfl
  | case2 cs ih => simp [ih]
  | case3 c cs _ hc ih => simp [ih]
  | case4 c cs _ hc h ih => rw [h] at ih; simp [← ih]
  | case5 c cs _ hc l ls h ih => rw [h] at ih; simp [← ih]

end Text

end SchemaTidy
