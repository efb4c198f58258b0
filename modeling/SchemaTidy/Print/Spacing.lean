import SchemaTidy.Tree.Basic

/-!
# Blanks between tokens

Decides, from left to right, whether a blank stands before a token or bracket of one sequence: a
logical line or one element of a group.
-/

namespace SchemaTidy

/-- What a piece of a sequence starts with. -/
inductive Atom where
  | token (kind : TokenKind) (text : Text)
  | opening (kind : GroupKind)

/-- What a piece of a sequence ends with. -/
inductive Ending where
  | token (kind : TokenKind) (text : Text)
  | closing
deriving DecidableEq

/-- What has been seen of a sequence. -/
structure Spacer where
  /-- The kind of the enclosing group, none for a logical line. -/
  group : Option GroupKind
  /-- Whether the sequence is a keyword argument. -/
  keywordElement : Bool
  index : Nat := 0
  previous : Option Ending := none
  /-- The previous token was a unary operator or the equals sign of a keyword argument. -/
  hugNext : Bool := false
  /-- The previous colon belonged to a slice. -/
  afterSlice : Bool := false
  /-- Inside the dots of a relative import. -/
  relativeImport : Bool := false
  openLambdas : Nat := 0

namespace Atom

def isOp (a : Atom) (text : String) : Bool :=
  match a with
  | token .op t => t == text.toList
  | _ => false

def isName (a : Atom) (text : String) : Bool :=
  match a with
  | token .name t => t == text.toList
  | _ => false

def ending : Atom → Ending
  | token kind text => .token kind text
  | opening _ => .closing

end Atom

namespace Spacer

/-- Whether an equals sign here belongs to a keyword argument or the default of a lambda. -/
def hugsEquals (s : Spacer) : Bool :=
  0 < s.openLambdas || (s.keywordElement && s.index == 1 && s.group == some .call)

def expectsOperand (s : Spacer) : Bool :=
  match s.previous with
  | none => true
  | some .closing => false
  | some (.token .op text) => text != "...".toList
  | some (.token .name text) =>
      isKeyword text && text != "True".toList && text != "False".toList && text != "None".toList
  | some (.token _ _) => false

/-- Whether a blank stands between `previous` and an atom. -/
def separates (s : Spacer) (previous : Ending) (a : Atom) : Bool :=
  if s.hugNext || s.afterSlice then false
  else if s.relativeImport || previous == .token .op ['.'] then a.isName "import"
  else
    match a with
    | .opening .call | .opening .subscript => false
    | .opening _ => true
    | .token .op text =>
        if text == [','] || text == [';'] || text == [':'] then false
        else if text == ['.'] then previous == .token .name "from".toList
        else if text == ['='] then !s.hugsEquals
        else true
    | .token _ _ => true

def advance (s : Spacer) (a : Atom) : Spacer :=
  let isUnary := a.isOp "-" || a.isOp "+" || a.isOp "~" || a.isOp "*" || a.isOp "**"
  let endsLambda := a.isOp ":" && 0 < s.openLambdas
  { s with
    index := s.index + 1
    previous := some a.ending
    hugNext :=
      (a.isOp "=" && s.hugsEquals) || (isUnary && s.expectsOperand) ||
        (a.isOp "@" && s.previous.isNone)
    afterSlice := a.isOp ":" && !endsLambda && s.group == some .subscript
    relativeImport :=
      (a.isOp "." || a.isOp "...") &&
        (s.relativeImport || s.previous == some (.token .name "from".toList))
    openLambdas :=
      if endsLambda then s.openLambdas - 1
      else if a.isName "lambda" then s.openLambdas + 1
      else s.openLambdas }

/-- Whether a blank stands before an atom, and the state after it. -/
def next (s : Spacer) (a : Atom) : Bool × Spacer :=
  (s.previous.any (s.separates · a), s.advance a)

end Spacer

end SchemaTidy
