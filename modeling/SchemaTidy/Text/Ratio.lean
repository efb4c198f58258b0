/-!
# Ratios

Ratios of two counts as binary fractions of 53 significant bits, written with six decimals. Ties go
to the even neighbour at every rounding.
-/

namespace SchemaTidy.Ratio

/-- A quotient rounded to the nearest integer, ties to the even one. -/
def roundDiv (a b : Nat) : Nat :=
  let q := a / b
  let r := a % b
  if b < 2 * r || (2 * r == b && q % 2 == 1) then q + 1 else q

def round53 (n : Nat) : Nat :=
  if n < 1 <<< 53 then n
  else
    let shift := n.log2 - 52
    roundDiv n (1 <<< shift) <<< shift

/-- The ratio of two positive numbers as `m / 2 ^ e`, where `m` has 53 bits before its trailing
zeros. -/
def binary (part whole : Nat) : Nat × Nat :=
  let e := 53 + whole.log2 - part.log2
  let zeros := part.log2 - whole.log2 - 53
  let zeros := if whole <<< (zeros + 53) ≤ part <<< e then zeros + 1 else zeros
  (roundDiv (part <<< e) (whole <<< zeros) <<< zeros, e)

/-- The ratio of two counts in millionths; a ratio to nothing is zero. -/
def millionths (part whole : Nat) : Nat :=
  if part = 0 ∨ whole = 0 then 0
  else
    let (m, e) := binary (round53 part) (round53 whole)
    roundDiv (m * 1000000) (1 <<< e)

def text (part whole : Nat) : String :=
  let n := millionths part whole
  let digits := toString (n % 1000000)
  toString (n / 1000000) ++ "." ++ String.ofList (List.replicate (6 - digits.length) '0') ++ digits

end SchemaTidy.Ratio
