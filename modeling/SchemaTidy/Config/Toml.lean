import SchemaTidy.Config.Value

/-!
# TOML documents

Reads the part of TOML that configuration files use: comments, bare, quoted and dotted keys, table
headers, basic and literal strings, integers, Booleans and arrays over several lines.
-/

namespace SchemaTidy.Toml

inductive Lexeme where
  | newline
  | equals
  | dot
  | comma
  | opening
  | closing
  | bare (text : Text)
  | quoted (text : Text)
deriving DecidableEq, Repr

def isKeyChar (c : Char) : Bool := c.isAlphanum || c == '_' || c == '-'

def isBare (c : Char) : Bool := isKeyChar c || c == '+'

/-- The number of parts that a key cannot have any more, and of arrays that cannot be nested. -/
def depthLimit : Nat := 80

def hexDigit? (c : Char) : Option Nat :=
  if c.isDigit then some (c.toNat - '0'.toNat)
  else if 'a' ≤ c && c ≤ 'f' then some (c.toNat - 'a'.toNat + 10)
  else if 'A' ≤ c && c ≤ 'F' then some (c.toNat - 'A'.toNat + 10)
  else none

def hexChar? (digits : Text) : Option Char := do
  let n ← digits.foldlM (fun n c => (hexDigit? c).map (16 * n + ·)) 0
  if n.isValidChar then some (Char.ofNat n) else none

/-- The character that a backslash and `c` stand for. -/
def simpleEscape? (c : Char) : Option Char :=
  match c with
  | 'b' => some '\x08'
  | 't' => some '\t'
  | 'n' => some '\n'
  | 'f' => some '\x0c'
  | 'r' => some '\r'
  | '"' => some '"'
  | '\\' => some '\\'
  | _ => none

/-- Whether a character cannot stand in a string or comment. -/
def isControl (c : Char) : Bool := (c.toNat < 0x20 && c != '\t') || c.toNat == 0x7F

/-- The value of a basic string behind its opening quote, and its length with the closing quote. -/
def basicString? : Text → Option (Text × Nat)
  | [] => none
  | '"' :: _ => some ([], 1)
  | '\\' :: 'u' :: a :: b :: c :: d :: cs => do
      let x ← hexChar? [a, b, c, d]
      let (t, n) ← basicString? cs
      some (x :: t, n + 6)
  | '\\' :: 'U' :: a :: b :: c :: d :: e :: f :: g :: h :: cs => do
      let x ← hexChar? [a, b, c, d, e, f, g, h]
      let (t, n) ← basicString? cs
      some (x :: t, n + 10)
  | '\\' :: c :: cs => do
      let x ← simpleEscape? c
      let (t, n) ← basicString? cs
      some (x :: t, n + 2)
  | c :: cs =>
      if isControl c || c == '\\' then none
      else (basicString? cs).map fun (t, n) => (c :: t, n + 1)

/-- The value of a literal string behind its opening quote, and its length with the closing quote. -/
def literalString? (cs : Text) : Option (Text × Nat) :=
  let body := cs.takeWhile (· != '\'')
  if body.any isControl || body.length == cs.length then none else some (body, body.length + 1)

/-- One lexeme or blank that starts with `c`, and its number of further characters. -/
def lexeme? (c : Char) (cs : Text) : Option (Option Lexeme × Nat) :=
  match c with
  | ' ' | '\t' => some (none, 0)
  | '#' => some (none, Text.lengthWhile (!isControl ·) cs)
  | '\n' => some (some .newline, 0)
  | '\r' => if cs.head? == some '\n' then some (some .newline, 1) else none
  | '=' => some (some .equals, 0)
  | '.' => some (some .dot, 0)
  | ',' => some (some .comma, 0)
  | '[' => some (some .opening, 0)
  | ']' => some (some .closing, 0)
  | '"' => (basicString? cs).map fun (t, n) => (some (.quoted t), n)
  | '\'' => (literalString? cs).map fun (t, n) => (some (.quoted t), n)
  | _ =>
      if isBare c then
        let n := Text.lengthWhile isBare cs
        some (some (.bare (c :: cs.take n)), n)
      else none

def lexemes? : Text → Option (List Lexeme)
  | [] => some []
  | c :: cs =>
      match lexeme? c cs with
      | none => none
      | some (l, n) => (lexemes? (cs.drop n)).map (l.toList ++ ·)
termination_by t => t.length
decreasing_by simp only [List.length_cons, List.length_drop]; omega

/-- The parts of a dotted key and the lexemes behind it. -/
def keyParts? : List Lexeme → Option (List Text × List Lexeme)
  | .bare t :: .dot :: rest =>
      if t.all isKeyChar then (keyParts? rest).map fun (path, rest) => (t :: path, rest) else none
  | .quoted t :: .dot :: rest => (keyParts? rest).map fun (path, rest) => (t :: path, rest)
  | .bare t :: rest => if t.all isKeyChar then some ([t], rest) else none
  | .quoted t :: rest => some ([t], rest)
  | _ => none

def key? (ls : List Lexeme) : Option (List Text × List Lexeme) :=
  (keyParts? ls).filter fun (path, _) => path.length < depthLimit

/-- Whether single underscores stand between digits only. -/
def wellGrouped : Text → Bool
  | ['_'] => false
  | '_' :: '_' :: _ => false
  | _ :: cs => wellGrouped cs
  | [] => true

def integer? (t : Text) : Option Int :=
  let (negative, digits) := match t with
    | '-' :: ds => (true, ds)
    | '+' :: ds => (false, ds)
    | ds => (false, ds)
  let plain := digits.filter (· != '_')
  if plain.isEmpty || !plain.all Char.isDigit || digits.head? == some '_' || !wellGrouped digits ||
      (1 < plain.length && plain.head? == some '0') then none
  else
    let n := plain.foldl (fun n c => 10 * n + (c.toNat - '0'.toNat)) 0
    let value : Int := if negative then -n else n
    if -0x8000000000000000 ≤ value ∧ value < 0x8000000000000000 then some value else none

def word? (t : Text) : Option Value :=
  if t == "true".toList then some (.bool true)
  else if t == "false".toList then some (.bool false)
  else (integer? t).map .int

/-- Reads the rest of nested arrays. `stack` holds the entries of the open arrays, innermost first,
and `ready` tells whether an entry may follow. -/
def array? : List (List Value) → Bool → List Lexeme → Option (Value × List Lexeme)
  | [], _, _ => none
  | _, _, [] => none
  | entries :: outer, ready, l :: rest =>
      match l with
      | .newline => array? (entries :: outer) ready rest
      | .comma => if ready then none else array? (entries :: outer) true rest
      | .opening =>
          if ready && outer.length + 2 < depthLimit then array? ([] :: entries :: outer) true rest
          else none
      | .closing =>
          match outer with
          | [] => some (.list entries, rest)
          | above :: others => array? ((above ++ [.list entries]) :: others) false rest
      | .bare t =>
          if ready then
            match word? t with
            | some v => array? ((entries ++ [v]) :: outer) false rest
            | none => none
          else none
      | .quoted t => if ready then array? ((entries ++ [.text t]) :: outer) false rest else none
      | _ => none

def value? : List Lexeme → Option (Value × List Lexeme)
  | .quoted t :: rest => some (.text t, rest)
  | .bare t :: .dot :: .bare u :: rest =>
      if (integer? t).isSome && u.all fun c => c.isDigit || c == '_' then some (.fraction, rest)
      else none
  | .bare t :: rest => (word? t).map (·, rest)
  | .opening :: rest => array? [[]] true rest
  | _ => none

inductive Statement where
  | header (path : List Text)
  | assign (path : List Text) (value : Value)

/-- One statement, which ends at a line break or the end of the document. -/
def statement? (ls : List Lexeme) : Option (Statement × List Lexeme) :=
  let ended (s : Statement) (rest : List Lexeme) : Option (Statement × List Lexeme) :=
    match rest with
    | [] => some (s, [])
    | .newline :: rest => some (s, rest)
    | _ => none
  match ls with
  | .opening :: rest =>
      match key? rest with
      | some (path, .closing :: rest) => ended (.header path) rest
      | _ => none
  | ls =>
      match key? ls with
      | some (path, .equals :: rest) =>
          match value? rest with
          | some (v, rest) => ended (.assign path v) rest
          | none => none
      | _ => none

/-- All statements of a document. `fuel` bounds their number. -/
def statements? : Nat → List Lexeme → Option (List Statement)
  | _, [] => some []
  | 0, _ => none
  | fuel + 1, .newline :: rest => statements? fuel rest
  | fuel + 1, ls =>
      match statement? ls with
      | some (s, rest) => (statements? fuel rest).map (s :: ·)
      | none => none

/-- How a table came to be, which decides what may extend it. -/
inductive Origin where
  /-- By its own header. -/
  | header
  /-- By the header of a table inside it. -/
  | implied
  /-- By a dotted key. -/
  | dotted
deriving DecidableEq, Repr

/-- A value or table of a document under construction. -/
inductive Node where
  | leaf (v : Value)
  | table (origin : Origin) (entries : List (Text × Node))

abbrev Entries := List (Text × Node)

def find? (es : Entries) (key : Text) : Option Node := (es.find? (·.1 == key)).map Prod.snd

def set (es : Entries) (key : Text) (n : Node) : Entries :=
  if es.any (·.1 == key) then es.map fun e => if e.1 == key then (key, n) else e
  else es ++ [(key, n)]

/-- Opens the table of a header. Only a table that headers inside it have implied may exist already. -/
def openTable? (es : Entries) : List Text → Option Entries
  | [] => none
  | [key] =>
      match find? es key with
      | none => some (set es key (.table .header []))
      | some (.table .implied inner) => some (set es key (.table .header inner))
      | some _ => none
  | key :: path =>
      match find? es key with
      | none => (openTable? [] path).map fun inner => set es key (.table .implied inner)
      | some (.table origin inner) =>
          (openTable? inner path).map fun inner => set es key (.table origin inner)
      | some (.leaf _) => none

/-- Assigns a value to a dotted key, which must be new. The way to its last part leads through tables
without a header of their own, and a table on the way gets the value only if dotted keys have made it;
`own` tells whether the table at hand does. -/
def assign? (own : Bool) (es : Entries) (v : Value) : List Text → Option Entries
  | [] => none
  | [key] => if own && (find? es key).isNone then some (set es key (.leaf v)) else none
  | key :: path =>
      match find? es key with
      | none => (assign? true [] v path).map fun inner => set es key (.table .dotted inner)
      | some (.table .header _) => none
      | some (.table origin inner) =>
          (assign? (origin == .dotted) inner v path).map fun inner => set es key (.table origin inner)
      | some (.leaf _) => none

/-- Assigns a value to a key of the table at a path. -/
def assignAt? (es : Entries) (table key : List Text) (v : Value) : Option Entries :=
  match table with
  | [] => assign? true es v key
  | name :: rest =>
      match find? es name with
      | some (.table origin inner) =>
          (assignAt? inner rest key v).map fun inner => set es name (.table origin inner)
      | _ => none

/-- Runs the statements of a document, of which the last header has opened `current`. -/
def build? (es : Entries) (current : List Text) : List Statement → Option Entries
  | [] => some es
  | .header path :: rest =>
      match openTable? es path with
      | some es => build? es path rest
      | none => none
  | .assign key v :: rest =>
      match assignAt? es current key v with
      | some es => build? es current rest
      | none => none

mutual

def Node.toValue : Node → Value
  | .leaf v => v
  | .table _ entries => .table (entriesToValues entries)

def entriesToValues : List (Text × Node) → List (Text × Value)
  | [] => []
  | (key, n) :: rest => (key, n.toValue) :: entriesToValues rest

end

/-- Reads a document as a table. A byte order mark may precede it. -/
def document? (text : Text) : Option (List (Text × Value)) := do
  let ls ← lexemes? (if text.head? == some '\uFEFF' then text.drop 1 else text)
  let ss ← statements? (ls.length + 1) ls
  let es ← build? [] [] ss
  some (entriesToValues es)

end SchemaTidy.Toml
