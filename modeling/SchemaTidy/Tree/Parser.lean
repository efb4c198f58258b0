import SchemaTidy.Tree.Source
import SchemaTidy.Tree.Trailer

/-!
# Trees of a source text

`parse` builds the tree of a source text in one pass over its tokens. The grammar is shallow:
logical lines, bracket groups split at commas, and indented blocks. Everything else stays a token.
-/

namespace SchemaTidy

def danglingOperators : List Text :=
  ["+", "-", "/", "//", "%", "@", "**", "|", "&", "^", "<<", ">>", "<", ">", "<=", ">=", "==",
   "!=", "=", "+=", "-=", "*=", "/=", "//=", "%=", "@=", "&=", "|=", "^=", ">>=", "<<=", "**=",
   "->", ".", "~", ":="].map String.toList

/-- Whether a bracket after `previous` belongs to it, as in a call or a subscript. -/
def followsCallable (previous : Option Item) : Bool :=
  match previous with
  | some (.group _) => true
  | some (.token t) => t.isIdentifier || t.kind == .string
  | none => false

/-- The kind of the group that `opening` opens after `previous`. -/
def groupKind (opening : Token) (previous : Option Item) : GroupKind :=
  if opening.text == "(".toList then if followsCallable previous then .call else .paren
  else if opening.text == "[".toList then if followsCallable previous then .subscript else .list
  else .brace

/-- A group whose closing bracket has not been read. -/
structure OpenGroup where
  opening : Token
  kind : GroupKind
  elements : List Element
  /-- Items since the last comma. -/
  current : List Item
  /-- Lambdas whose colon has not been read; commas between are part of their parameters. -/
  lambdas : Nat
  /-- Whether a comprehension has begun; commas after that are part of it. -/
  comprehension : Bool

namespace OpenGroup

def ofToken (opening : Token) (previous : Option Item) : OpenGroup :=
  ⟨opening, groupKind opening previous, [], [], 0, false⟩

def pushGroup (g : OpenGroup) (inner : Group) : OpenGroup :=
  { g with current := g.current ++ [.group inner] }

/-- Adds a token that is neither a bracket nor a separating comma. -/
def pushToken (g : OpenGroup) (t : Token) : OpenGroup :=
  let g' := { g with current := g.current ++ [.token t] }
  if t.isName "lambda" then { g' with lambdas := g.lambdas + 1 }
  else if t.isOp ":" && 0 < g.lambdas then { g' with lambdas := g.lambdas - 1 }
  else if t.isName "for" && !g.current.isEmpty then { g' with comprehension := true }
  else g'

/-- Whether a token is a comma that ends an element. -/
def separates (g : OpenGroup) (t : Token) : Bool :=
  t.isOp "," && g.lambdas == 0 && !g.comprehension

def pushComma (g : OpenGroup) (t : Token) : OpenGroup :=
  { g with elements := g.elements ++ [⟨g.current, some t⟩], current := [] }

def close (g : OpenGroup) (t : Token) : Group :=
  let elements := if g.current.isEmpty then g.elements else g.elements ++ [⟨g.current, none⟩]
  ⟨g.opening, elements, t, g.kind, false⟩

end OpenGroup

/-- A block whose end has not been read, with the statements before it in the enclosing body. -/
structure OpenBlock where
  before : List Statement
  header : List Item
  newline : Token
  indent : Token

/-- What has been read of a module. -/
structure ParseState where
  /-- Blocks that enclose the current body, innermost first. -/
  blocks : List OpenBlock
  /-- Finished statements of the current body. -/
  body : List Statement
  /-- A finished logical line; the next token tells whether a block follows. -/
  pending : Option (List Item × Token)
  /-- Items of the unfinished logical line. -/
  line : List Item
  /-- Open brackets, innermost first. -/
  groups : List OpenGroup

/-- Name of a base class without its module and type arguments. -/
def baseName? (items : List Item) : Option Text :=
  let isSubscript (i : Item) := i.group?.any (·.kind == .subscript)
  match items.reverse.dropWhile isSubscript with
  | .token t :: _ => if t.isIdentifier then some t.text else none
  | _ => none

def baseNames (bases : Group) : List Text :=
  bases.elements.filterMap fun e =>
    if e.argumentKind == .positional then baseName? e.items else none

/-- The signature a class header declares. Type parameters may stand before the bases. -/
def signatureOf? (header : List Item) : Option ClassSignature :=
  let declare (name : Token) (bases : List Text) : Option ClassSignature :=
    if name.isIdentifier then some ⟨name.text, bases⟩ else none
  match header with
  | [_, .token name, .token colon] => if colon.isOp ":" then declare name [] else none
  | [_, .token name, .group bases, .token colon] =>
      if colon.isOp ":" && bases.kind == .call then declare name (baseNames bases) else none
  | [_, .token name, .group params, .group bases, .token colon] =>
      if colon.isOp ":" && params.kind == .subscript && bases.kind == .call then
        declare name (baseNames bases)
      else none
  | _ => none

/-- The words `match` and `case` are not callable in a header: a bracket after them is a display. -/
def relabelHeader : List Item → List Item
  | .token word :: .group g :: rest =>
      if word.isName "match" || word.isName "case" then
        let kind := match g.kind with
          | .call => .paren
          | .subscript => .list
          | kind => kind
        .token word :: .group { g with kind } :: rest
      else .token word :: .group g :: rest
  | header => header

def compoundOf (header : List Item) (newline : Token) (block : Block) :
    Except ParseError Statement :=
  match header with
  | .token first :: _ =>
      if first.isName "class" then
        match signatureOf? header with
        | some signature => .ok (.compound (some signature) header newline block)
        | none => .error ⟨.invalid, first.position⟩
      else .ok (.compound none (relabelHeader header) newline block)
  | _ => .ok (.compound none header newline block)

namespace ParseState

def empty : ParseState := ⟨[], [], none, [], []⟩

def pushItem (s : ParseState) (i : Item) : ParseState := { s with line := s.line ++ [i] }

def feedGroup (s : ParseState) (g : OpenGroup) (outer : List OpenGroup) (t : Token) :
    Except ParseError ParseState :=
  if t.isClosing then
    match outer with
    | [] => .ok ({ s with groups := [] }.pushItem (.group (g.close t)))
    | h :: outer => .ok { s with groups := h.pushGroup (g.close t) :: outer }
  else if t.kind == .endMarker then .error ⟨.neverClosed g.opening.text, g.opening.position⟩
  else if g.separates t then
    if g.current.isEmpty then .error ⟨.invalid, t.position⟩
    else .ok { s with groups := g.pushComma t :: outer }
  else if t.isOpening then
    .ok { s with groups := .ofToken t g.current.getLast? :: g :: outer }
  else .ok { s with groups := g.pushToken t :: outer }

/-- Decides about the pending line once the token after it is known. Says whether that token has
been used up. -/
def settle (s : ParseState) (t : Token) : Except ParseError (ParseState × Bool) :=
  match s.pending with
  | none => .ok (s, false)
  | some (items, newline) =>
      let opensBlock := items.getLast?.any (·.isOp ":")
      if t.kind == .indent then
        if opensBlock then
          .ok ({ s with
            blocks := ⟨s.body, items, newline, t⟩ :: s.blocks
            body := []
            pending := none }, true)
        else .error ⟨.unexpectedIndent, t.position⟩
      else if opensBlock then .error ⟨.missingBlock, t.position⟩
      else
        .ok ({ s with body := s.body ++ [.simple ⟨items, newline, false⟩], pending := none }, false)

def endLine (s : ParseState) (t : Token) : Except ParseError ParseState :=
  match s.line.getLast? with
  | none => .error ⟨.invalid, t.position⟩
  | some (.token last) =>
      if last.kind == .op && danglingOperators.contains last.text then
        .error ⟨.invalid, last.position⟩
      else .ok { s with pending := some (s.line, t), line := [] }
  | some (.group _) => .ok { s with pending := some (s.line, t), line := [] }

def endBlock (s : ParseState) (t : Token) : Except ParseError ParseState :=
  match s.blocks with
  | [] => .error ⟨.invalid, t.position⟩
  | b :: outer =>
      match compoundOf b.header b.newline ⟨b.indent, s.body, t⟩ with
      | .error e => .error e
      | .ok statement => .ok { s with blocks := outer, body := b.before ++ [statement] }

def feedLine (s : ParseState) (t : Token) : Except ParseError (ParseState ⊕ Module) :=
  match t.kind with
  | .newline => (s.endLine t).map .inl
  | .indent =>
      if s.line.isEmpty then .error ⟨.unexpectedIndent, t.position⟩ else (s.endLine t).map .inl
  | .dedent => if s.line.isEmpty then (s.endBlock t).map .inl else (s.endLine t).map .inl
  | .endMarker =>
      if s.line.isEmpty then
        if s.blocks.isEmpty then .ok (.inr ⟨s.body, t⟩) else .error ⟨.invalid, t.position⟩
      else (s.endLine t).map .inl
  | _ =>
      if t.isOpening then .ok (.inl { s with groups := [.ofToken t s.line.getLast?] })
      else .ok (.inl (s.pushItem (.token t)))

/-- Reads one token. The end marker after a complete body gives the module. -/
def feed (s : ParseState) (t : Token) : Except ParseError (ParseState ⊕ Module) :=
  match s.groups with
  | g :: outer => (s.feedGroup g outer t).map .inl
  | [] =>
      match s.settle t with
      | .error e => .error e
      | .ok (s, true) => .ok (.inl s)
      | .ok (s, false) => s.feedLine t

/-- Reads all tokens. A list without an end marker has no module. -/
def feedAll (s : ParseState) : List Token → Except ParseError Module
  | [] => .error ⟨.invalid, .nowhere⟩
  | t :: ts =>
      match s.feed t with
      | .error e => .error e
      | .ok (.inl s') => feedAll s' ts
      | .ok (.inr m) => .ok m

end ParseState

def parse (source : Text) : Except ParseError Module :=
  match tokenize source with
  | .error e => .error e
  | .ok tokens => ParseState.empty.feedAll (attachTrailers tokens)

end SchemaTidy
