import SchemaTidy.Text.Basic

/-!
# Positions

Lines and columns count from one, and columns count characters. A position moves over a text; each
of `\n`, `\r\n` and a lone `\r` ends one line.
-/

namespace SchemaTidy

/-- Line and column of a character. The position `0:0` belongs to tokens made by the program. -/
structure Position where
  line : Nat
  column : Nat
deriving DecidableEq, Repr

namespace Position

def start : Position := ⟨1, 1⟩

def nowhere : Position := ⟨0, 0⟩

def after (p : Position) : Text → Position
  | [] => p
  | '\r' :: '\n' :: cs => after ⟨p.line + 1, 1⟩ cs
  | c :: cs =>
      if Text.isLineBreak c then after ⟨p.line + 1, 1⟩ cs else after ⟨p.line, p.column + 1⟩ cs

end Position

end SchemaTidy
