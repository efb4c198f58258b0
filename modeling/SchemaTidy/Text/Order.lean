import SchemaTidy.Text.Basic

/-!
# Order of texts

Texts are ordered by code point, which for valid text is also the order of their UTF-8 bytes. Sets
of names are kept as strictly increasing lists.
-/

namespace SchemaTidy.Text

def le : Text → Text → Bool
  | [], _ => true
  | _ :: _, [] => false
  | a :: as, b :: bs => a < b || (a == b && le as bs)

def insertSorted (t : Text) : List Text → List Text
  | [] => [t]
  | u :: us => if t == u then u :: us else if le t u then t :: u :: us else u :: insertSorted t us

/-- The texts of a list, in increasing order and without duplicates. -/
def sortedSet (ts : List Text) : List Text := ts.foldl (fun set t => insertSorted t set) []

end SchemaTidy.Text
