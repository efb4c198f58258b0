import SchemaTidy.Token.Basic

/-!
# Syntax trees

A lossless tree over tokens. Leaves are tokens and inner nodes only group them: brackets with their
comma-separated elements, logical lines, indented blocks and the module. Hints for printing live on
the nodes (`Group.sortable`, `Line.reformat`).
-/

namespace SchemaTidy

/-- Which bracket a group uses and what the bracket means. -/
inductive GroupKind where
  /-- Arguments of a call, bases of a class or parameters of a function. -/
  | call
  /-- A parenthesised expression or a tuple. -/
  | paren
  | subscript
  /-- A list display. -/
  | list
  /-- A dictionary or set display. -/
  | brace
deriving DecidableEq, Repr

mutual

inductive Item where
  | token (t : Token)
  | group (g : Group)

/-- One comma-separated slot of a group. -/
structure Element where
  items : List Item
  comma : Option Token

structure Group where
  opening : Token
  elements : List Element
  closing : Token
  kind : GroupKind
  /-- Whether printing may sort the keyword arguments or mapping entries. -/
  sortable : Bool

end

structure Line where
  items : List Item
  newline : Token
  /-- Lay the line out anew even when printing otherwise preserves the source. -/
  reformat : Bool

/-- Name of a class and the simple names of its positional bases, in order. -/
structure ClassSignature where
  name : Text
  bases : List Text
deriving DecidableEq, Repr

mutual

/-- A logical line, or a header line with an indented block. -/
inductive Statement where
  | simple (line : Line)
  /-- A header that ends in a colon and its block; the header of a class has a signature. -/
  | compound (signature : Option ClassSignature) (header : List Item) (newline : Token)
      (block : Block)

/-- An indented suite. -/
structure Block where
  indent : Token
  body : List Statement
  /-- Carries the comments that trail the suite at its own indentation. -/
  dedent : Token

end

structure Module where
  body : List Statement
  /-- Carries the comments and blank lines at the end of the file. -/
  endMarker : Token

/-- How an element passes its value to a call. -/
inductive ArgumentKind where
  | positional
  | keyword (name : Text)
  /-- An iterable after one asterisk. -/
  | starred
  /-- A mapping after two asterisks. -/
  | unpacked
deriving DecidableEq, Repr

namespace Item

def firstToken : Item → Token
  | token t => t
  | group g => g.opening

def mapFirst (f : Token → Token) : Item → Item
  | token t => token (f t)
  | group g => group { g with opening := f g.opening }

def token? : Item → Option Token
  | token t => some t
  | group _ => none

def group? : Item → Option Group
  | token _ => none
  | group g => some g

def isOp (i : Item) (text : String) : Bool := i.token?.any (·.isOp text)

def isName (i : Item) (text : String) : Bool := i.token?.any (·.isName text)

end Item

namespace Element

def ofItems (items : List Item) : Element := ⟨items, none⟩

def ofKeyword (name : Text) (value : List Item) : Element :=
  ofItems (.token (.ofName name) :: .token (.ofOp "=") :: value)

def mapFirst (f : Token → Token) (e : Element) : Element :=
  match e.items with
  | [] => e
  | i :: is => { e with items := i.mapFirst f :: is }

/-- The trivia before the first token of an element. -/
def leadingTrivia (e : Element) : Text :=
  match e.items with
  | i :: _ => i.firstToken.trivia
  | [] => []

def keyword? (e : Element) : Option Text :=
  match e.items with
  | .token name :: .token eq :: _ :: _ =>
      if name.isIdentifier && eq.isOp "=" then some name.text else none
  | _ => none

def argumentKind (e : Element) : ArgumentKind :=
  match e.keyword? with
  | some name => .keyword name
  | none =>
      match e.items with
      | i :: _ => if i.isOp "**" then .unpacked else if i.isOp "*" then .starred else .positional
      | [] => .positional

/-- Index of the colon that divides key and value of a mapping entry. -/
def colon? (e : Element) : Option Nat :=
  match e.items.findIdx? (·.isOp ":") with
  | some n => if 0 < n ∧ n + 1 < e.items.length then some n else none
  | none => none

/-- Number of items before the value of a keyword argument or mapping entry. -/
def valueStart (e : Element) : Nat :=
  if e.keyword?.isSome then 2
  else
    match e.colon? with
    | some n => n + 1
    | none => 0

/-- The items of the value of a keyword argument or mapping entry, or all items. -/
def value (e : Element) : List Item := e.items.drop e.valueStart

/-- Whether the element reads `key: value` or `**mapping`. -/
def isEntry (e : Element) : Bool := e.colon?.isSome || e.argumentKind == .unpacked

end Element

mutual

/-- Whether a comment stands before any token of an item. -/
def Item.hasComments : Item → Bool
  | .token t => t.hasComment
  | .group g => g.hasComments

/-- Whether a comment stands before any token of an element or its comma. -/
def Element.hasComments : Element → Bool
  | ⟨items, comma⟩ => itemsHaveComments items || comma.any Token.hasComment

/-- Whether a comment stands before any token of a group. -/
def Group.hasComments : Group → Bool
  | ⟨opening, elements, closing, _, _⟩ =>
      opening.hasComment || closing.hasComment || elementsHaveComments elements

/-- Whether a comment stands before any token of some items. -/
def itemsHaveComments : List Item → Bool
  | [] => false
  | i :: is => i.hasComments || itemsHaveComments is

/-- Whether a comment stands before any token of some elements. -/
def elementsHaveComments : List Element → Bool
  | [] => false
  | e :: es => e.hasComments || elementsHaveComments es

end

namespace GroupKind

def opening : GroupKind → String
  | call | paren => "("
  | subscript | list => "["
  | brace => "\x7b"

def closing : GroupKind → String
  | call | paren => ")"
  | subscript | list => "]"
  | brace => "\x7d"

end GroupKind

namespace Group

def ofElements (kind : GroupKind) (elements : List Element) : Group :=
  ⟨.ofOp kind.opening, elements, .ofOp kind.closing, kind, false⟩

def hasTrailingComma (g : Group) : Bool := g.elements.getLast?.any (·.comma.isSome)

/-- Whether the group is a single element with a `for` after its first item. -/
def isComprehension (g : Group) : Bool :=
  match g.elements with
  | [e] => (e.items.drop 1).any (·.isName "for")
  | _ => false

/-- Index of the first keyword argument called `name`. -/
def keywordIndex? (g : Group) (name : Text) : Option Nat :=
  g.elements.findIdx? (·.keyword? == some name)

end Group

/-- The trivia that follows an element: before the next element, or before the closing bracket. -/
def triviaAfter (closing : Text) : List Element → Text
  | e :: _ => e.leadingTrivia
  | [] => closing

/-- Gives every element but the last a comma, and the last one exactly when `trailing` is set. -/
def punctuate (trailing : Bool) : List Element → List Element
  | [] => []
  | [e] => [{ e with comma := if trailing then some (e.comma.getD (.ofOp ",")) else none }]
  | e :: es => { e with comma := some (e.comma.getD (.ofOp ",")) } :: punctuate trailing es

/-- The group with commas derived anew after its elements were added, moved or removed. -/
def Group.punctuated (g : Group) (trailing : Bool) : Group :=
  { g with elements := punctuate trailing g.elements }

def Block.column (b : Block) : Nat := b.indent.position.column - 1

namespace Statement

def items : Statement → List Item
  | simple line => line.items
  | compound _ header _ _ => header

def newline : Statement → Token
  | simple line => line.newline
  | compound _ _ newline _ => newline

def block? : Statement → Option Block
  | simple _ => none
  | compound _ _ _ block => some block

def line? : Statement → Option Line
  | simple line => some line
  | compound .. => none

def signature? : Statement → Option ClassSignature
  | simple _ => none
  | compound signature _ _ _ => signature

/-- Where the statement starts; an emptied line is nowhere. -/
def position (s : Statement) : Position :=
  match s.items with
  | i :: _ => i.firstToken.position
  | [] => .nowhere

end Statement

mutual

/-- The first line terminator that has a text, in the first lines of a statement and its block. -/
def Statement.lineBreak? : Statement → Option Text
  | .simple line => if line.newline.text.isEmpty then none else some line.newline.text
  | .compound _ _ newline block =>
      if newline.text.isEmpty then block.lineBreak? else some newline.text

/-- The first line terminator that has a text in a block. -/
def Block.lineBreak? : Block → Option Text
  | ⟨_, body, _⟩ => lineBreakOf? body

/-- The first line terminator that has a text in some statements. -/
def lineBreakOf? : List Statement → Option Text
  | [] => none
  | s :: ss => s.lineBreak? <|> lineBreakOf? ss

end

/-- Line terminator the file uses, `\n` when it has none. -/
def Module.lineBreak (m : Module) : Text := (lineBreakOf? m.body).getD ['\n']

end SchemaTidy
