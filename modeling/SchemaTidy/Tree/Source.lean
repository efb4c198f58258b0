import SchemaTidy.Tree.Basic

/-!
# Tokens and source of a tree

The leaves of a tree in order, and the text they spell. A tree that was not edited after parsing
spells the file it was parsed from.
-/

namespace SchemaTidy

mutual

def Item.tokens : Item → List Token
  | .token t => [t]
  | .group g => g.tokens

/-- The tokens of an element and its comma, in order. -/
def Element.tokens : Element → List Token
  | ⟨items, comma⟩ => tokensOfItems items ++ comma.toList

def Group.tokens : Group → List Token
  | ⟨opening, elements, closing, _, _⟩ => opening :: (tokensOfElements elements ++ [closing])

def tokensOfItems : List Item → List Token
  | [] => []
  | i :: is => i.tokens ++ tokensOfItems is

def tokensOfElements : List Element → List Token
  | [] => []
  | e :: es => e.tokens ++ tokensOfElements es

end

def Line.tokens (l : Line) : List Token := tokensOfItems l.items ++ [l.newline]

mutual

def Statement.tokens : Statement → List Token
  | .simple line => line.tokens
  | .compound _ header newline block => tokensOfItems header ++ newline :: block.tokens

def Block.tokens : Block → List Token
  | ⟨indent, body, dedent⟩ => indent :: (tokensOfBody body ++ [dedent])

def tokensOfBody : List Statement → List Token
  | [] => []
  | s :: ss => s.tokens ++ tokensOfBody ss

end

def Module.tokens (m : Module) : List Token := tokensOfBody m.body ++ [m.endMarker]

/-- The text that some tokens spell, trivia included. -/
def spell (tokens : List Token) : Text := tokens.flatMap Token.source

def Group.source (g : Group) : Text := spell g.tokens

def Statement.source (s : Statement) : Text := spell s.tokens

def Module.source (m : Module) : Text := spell m.tokens

@[simp] theorem spell_nil : spell [] = [] := rfl

@[simp] theorem spell_cons (t : Token) (ts : List Token) :
    spell (t :: ts) = t.source ++ spell ts := by
  simp [spell]

@[simp] theorem spell_append (ts us : List Token) : spell (ts ++ us) = spell ts ++ spell us := by
  simp [spell]

@[simp] theorem tokensOfItems_append (is js : List Item) :
    tokensOfItems (is ++ js) = tokensOfItems is ++ tokensOfItems js := by
  induction is with
  | nil => rfl
  | cons i is ih => simp [tokensOfItems, ih]

@[simp] theorem tokensOfElements_append (es fs : List Element) :
    tokensOfElements (es ++ fs) = tokensOfElements es ++ tokensOfElements fs := by
  induction es with
  | nil => rfl
  | cons e es ih => simp [tokensOfElements, ih]

@[simp] theorem tokensOfBody_append (ss ts : List Statement) :
    tokensOfBody (ss ++ ts) = tokensOfBody ss ++ tokensOfBody ts := by
  induction ss with
  | nil => rfl
  | cons s ss ih => simp [tokensOfBody, ih]

end SchemaTidy
