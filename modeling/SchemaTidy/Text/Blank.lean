import SchemaTidy.Text.Basic

/-!
# White space

The Unicode property White_Space, and trimming by it.
-/

namespace SchemaTidy.Text

/-- Whether a character has the property White_Space. -/
def isBlank (c : Char) : Bool :=
  let n := c.toNat
  (9 ≤ n && n ≤ 13) || n == 0x20 || n == 0x85 || n == 0xA0 || n == 0x1680 ||
    (0x2000 ≤ n && n ≤ 0x200A) || n == 0x2028 || n == 0x2029 || n == 0x202F || n == 0x205F ||
    n == 0x3000

theorem isBlank_of_isIndent {c : Char} (h : isIndent c) : isBlank c := by
  have : c = ' ' ∨ c = '\t' ∨ c = '\x0c' := by simpa [isIndent, or_assoc] using h
  rcases this with rfl | rfl | rfl <;> decide

end SchemaTidy.Text
