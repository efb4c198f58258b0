import SchemaTidy.Proofs.Migration.Call
import SchemaTidy.Proofs.Edit.Fixpoint
import SchemaTidy.Proofs.Tree.Names

/-!
# What a migrated call holds

The arguments that stay keep their tokens, and the destination mapping is what one gets when the moved
keywords are added to it one after the other, each in place of what stood under its key.
-/

namespace SchemaTidy

def spellings (items : List Item) : List (TokenKind × Text) :=
  (tokensOfItems items).map Token.spelling

/-- A mapping entry: the key under which it stands, and kinds and texts of its tokens. -/
structure EntryView where
  key : Option Text
  tokens : List (TokenKind × Text)
deriving DecidableEq

namespace EntryView

/-- An entry behind others, in place of those with its key. -/
def replace (entries : List EntryView) (entry : EntryView) : List EntryView :=
  entries.filter (·.key != entry.key) ++ [entry]

end EntryView

namespace Destination

def view (d : Destination) (e : Element) : EntryView := ⟨d.keyOf? e, spellings e.items⟩

/-- The tokens that a destination puts in front of a value. -/
def keyTokens (d : Destination) (name : Text) : List (TokenKind × Text) :=
  match d with
  | .dictCall => [(.name, name), (.op, "=".toList)]
  | _ => [(.string, '"' :: name ++ ['"']), (.op, ":".toList)]

def viewOf (d : Destination) (argument : Element) : EntryView :=
  ⟨argument.keyword?, d.keyTokens (argument.keyword?.getD []) ++ spellings argument.value⟩

end Destination

/-! ## Spelling -/

/-- What comes of a mapping when arguments move into it. -/
structure Destination.Merges (d : Destination) (arguments : List Element) (mapping merged : Group) :
    Prop where
  opening : merged.opening = mapping.opening
  closing : merged.closing.spelling = mapping.closing.spelling
  kind : merged.kind = mapping.kind
  entries : merged.elements.map d.view =
    (arguments.map d.viewOf).foldl EntryView.replace (mapping.elements.map d.view)
  trailing : merged.hasTrailingComma = mapping.hasTrailingComma

namespace MigrationRule

end MigrationRule

/-! ## Main statement -/

end SchemaTidy
