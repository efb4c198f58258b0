import SchemaTidy.Text.Bytes
import SchemaTidy.Tree.Basic

/-!
# Values of string literals

The value of a plain string literal that can be read without decoding escapes.
-/

namespace SchemaTidy

def isQuote (c : Char) : Bool := c == '"' || c == '\''

/-- Whether a text starts with three equal quotes. -/
def startsTriple : Text → Bool
  | a :: b :: c :: _ => isQuote a && a == b && b == c
  | _ => false

/-- The value of a string literal; there is none for bytes, formatted strings, texts too short to be
closed and bodies with a backslash. The closing quotes are taken to be as many bytes at the end as the
opening ones are, whatever these bytes spell. -/
def literalValue? (text : Text) : Option Text :=
  let flags := (text.takeWhile (!isQuote ·)).map Char.toLower
  let quoted := text.dropWhile (!isQuote ·)
  let n := if startsTriple quoted then 3 else 1
  if quoted.isEmpty || flags.contains 'b' || flags.contains 'f' then none
  else if Text.byteLength quoted < 2 * n then none
  else
    match Text.takeBytes? (Text.byteLength quoted - 2 * n) (quoted.drop n) with
    | some body => if body.contains '\\' then none else some body
    | none => none

/-- The value of the key of a mapping entry whose key is one string literal. -/
def Element.stringKey? (e : Element) : Option Text :=
  match e.items with
  | .token key :: .token colon :: _ :: _ =>
      if key.kind == .string && colon.isOp ":" then literalValue? key.text else none
  | _ => none

end SchemaTidy
