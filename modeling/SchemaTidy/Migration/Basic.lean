import SchemaTidy.Edit.Engine
import SchemaTidy.Literal
import SchemaTidy.Migration.Parameter
import SchemaTidy.Tree.Source
import SchemaTidy.Trivia

/-!
# Keyword migration

Moves selected keyword arguments of a field constructor call into one mapping argument. A dictionary
display is merged into and a `dict(...)` call is extended; any other destination is left alone and
reported. A key that is already present is replaced by the keyword, which goes behind the surviving
entries. Comments travel with the keyword they belong to.
-/

namespace SchemaTidy

/-- Where migrated keywords go. -/
inductive Destination where
  /-- A new argument, as none exists. -/
  | create
  /-- A dictionary display. -/
  | display
  /-- A call of `dict`. -/
  | dictCall
  /-- Any other value, such as a variable. -/
  | foreign
deriving DecidableEq, Repr

/-- Whether a value can be merged into as a dictionary display. -/
def Group.isDictDisplay (g : Group) : Bool :=
  g.kind == .brace && !g.isComprehension && g.elements.all Element.isEntry

/-- Whether all arguments of a call are keywords or unpacked mappings. -/
def Group.isKeywordCall (g : Group) : Bool :=
  g.kind == .call && g.elements.all fun e =>
    match e.argumentKind with
    | .keyword _ | .unpacked => true
    | _ => false

def classify (arguments : Group) (destination : Text) : Destination :=
  match arguments.elements.find? (·.keyword? == some destination) with
  | none => .create
  | some e =>
      match e.value with
      | [.group g] => if g.isDictDisplay then .display else .foreign
      | [.token callee, .group g] =>
          if callee.isName "dict" && g.isKeywordCall then .dictCall else .foreign
      | _ => .foreign

/-- A keyword argument lifted out of a call. -/
structure MovedKeyword where
  name : Text
  value : List Item
  /-- Comments for the lines above the entry. -/
  comments : List Text
  /-- The comment that ended the line of the keyword. -/
  trailing : Option Text

/-- The arguments of a call, split into those that stay and those that move. -/
structure Partition where
  kept : List Element
  moved : List MovedKeyword
  /-- Comment that belongs behind the last argument that stays. -/
  owed : Text

/-- The comments inside a keyword argument that its value does not carry. -/
def keywordComments (rest : Text) (e : Element) : List Text :=
  let ofEquals := match e.items with
    | _ :: .token eq :: _ => Trivia.comments eq.trivia
    | _ => []
  let ofComma := match e.comma with
    | some comma => Trivia.comments comma.trivia
    | none => []
  Trivia.ownLineComments rest ++ ofEquals ++ ofComma

/-- Splits arguments. A comment that ends the line of an argument stands in the trivia of the token
after it, so it moves with the argument, and the comment before a moved argument is carried to the
token that now follows the previous one that stays. `taken` tells that the comment before the first
element has gone with the element before it. -/
def partitionFrom (moves : Element → Bool) (closing : Text) (carry : Option Text) (taken : Bool) :
    List Element → Partition
  | [] => ⟨[], [], carry.getD (if taken then [] else (Trivia.splitSameLine closing).1)⟩
  | e :: es =>
      let (own, rest) := Trivia.splitSameLine e.leadingTrivia
      let same := if taken then [] else own
      if moves e then
        let p := partitionFrom moves closing (some (carry.getD same)) true es
        let keyword : MovedKeyword :=
          { name := e.keyword?.getD []
            value := e.items.drop 2
            comments := keywordComments rest e
            trailing := Trivia.sameLineComment? (Trivia.splitSameLine (triviaAfter closing es)).1 }
        { p with moved := keyword :: p.moved }
      else
        let p := partitionFrom moves closing none false es
        let e' := e.mapFirst fun t => { t with trivia := carry.getD same ++ rest }
        { p with kept := e' :: p.kept }

/-- Trivia that puts comments on lines of their own, behind the comment that ends the line before. -/
def commentLines (sameLine : Text) (comments : List Text) : Text :=
  let lines := sameLine ++ comments.flatMap ('\n' :: ·)
  if lines.isEmpty then [] else lines ++ ['\n']

/-- Trivia behind a comment that ends a line; it starts a new line if it does not already. -/
def afterComment (sameLine rest : Text) : Text :=
  if sameLine.isEmpty || rest.head?.any Text.isLineBreak then sameLine ++ rest
  else sameLine ++ '\n' :: rest

/-- The key under which a mapping entry stands, as its destination spells keys. -/
def Destination.keyOf? (d : Destination) (entry : Element) : Option Text :=
  match d with
  | .dictCall => entry.keyword?
  | _ => entry.stringKey?

def Destination.entry (d : Destination) (keyword : MovedKeyword) (trivia : Text) : Element :=
  let value := match keyword.value with
    | [] => []
    | i :: is => i.mapFirst (fun t => if t.hasComment then t else { t with trivia := [' '] }) :: is
  let key := match d with
    | .dictCall =>
        [.token ((Token.ofName keyword.name).withTrivia trivia), .token (.ofOp "=")]
    | _ =>
        [.token ((Token.synthetic .string ('"' :: keyword.name ++ ['"'])).withTrivia trivia),
         .token (.ofOp ":")]
  .ofItems (key ++ value)

/-- A mapping into which keywords are being moved. -/
structure Merge where
  entries : List Element
  /-- Comment that belongs behind the last entry. -/
  owed : Text
  warnings : List Warning

def Merge.push (d : Destination) (destination : Text) (site : Site) (m : Merge)
    (keyword : MovedKeyword) : Merge :=
  let surviving := m.entries.filter (d.keyOf? · != some keyword.name)
  let warnings :=
    if surviving.length == m.entries.length then []
    else
      [site.warn .duplicateKey ("`" ++ String.ofList keyword.name ++ "` was already in `" ++
        String.ofList destination ++ "`, the keyword argument wins")]
  { entries := surviving ++ [d.entry keyword (commentLines m.owed keyword.comments)]
    owed := match keyword.trailing with
      | some comment => ' ' :: ' ' :: comment
      | none => []
    warnings := m.warnings ++ warnings }

def mergeInto (d : Destination) (destination : Text) (site : Site) (moved : List MovedKeyword)
    (mapping : Group) : Group × List Warning :=
  let (same, rest) := Trivia.splitSameLine mapping.closing.trivia
  let m := moved.foldl (Merge.push d destination site) ⟨mapping.elements, same, []⟩
  let closing := { mapping.closing with trivia := afterComment m.owed rest }
  let merged := { mapping with elements := m.entries, closing, sortable := true }
  (merged.punctuated mapping.hasTrailingComma, m.warnings)

/-- The destination argument with its mapping replaced. -/
def Destination.setMapping (d : Destination) (e : Element) (mapping : Group) : Element :=
  { e with items := e.items.set (if d = .dictCall then 3 else 2) (.group mapping) }

def Destination.mapping? (d : Destination) (e : Element) : Option Group :=
  e.items[if d = .dictCall then 3 else 2]?.bind Item.group?

namespace MigrationRule

def movesElement (r : MigrationRule) (site : Site) (e : Element) : Bool :=
  e.keyword?.any (r.selects site.constructor)

/-- The warnings about unpacked mappings among the arguments. -/
def unpackedWarnings (site : Site) (arguments : Group) : List Warning :=
  (arguments.elements.filter (·.argumentKind == .unpacked)).map fun e =>
    site.warn .unpackedKeywords ("`" ++
      String.ofList (Text.trim Text.isBlank (spell (tokensOfItems e.items))) ++
      "` may hold keywords that cannot be migrated")

/-- Moves the selected arguments into the destination `d`, which is not foreign. -/
def move (r : MigrationRule) (d : Destination) (site : Site) (arguments : Group) :
    Option (Group × Outcome) := do
  let closing := arguments.closing.trivia
  let rest := (Trivia.splitSameLine closing).2
  let p := partitionFrom (r.movesElement site) closing none false arguments.elements
  let (kept, trivia) :=
    if d = .create then
      let e := Element.ofKeyword r.destination [.group (.ofElements .brace [])]
      (p.kept ++ [e.mapFirst fun t => { t with trivia := afterComment p.owed [] }], rest)
    else (p.kept, afterComment p.owed rest)
  let i ← kept.findIdx? (·.keyword? == some r.destination)
  let mapping ← kept[i]?.bind d.mapping?
  let (merged, duplicates) := mergeInto d r.destination site p.moved mapping
  let after : Group :=
    { arguments with
      elements := kept.modify i fun e => d.setMapping e merged
      closing := { arguments.closing with trivia }
      sortable := true }
  some (after.punctuated arguments.hasTrailingComma,
    { changed := true
      migrated := p.moved.map (·.name)
      destination := some r.destination
      createdDestination := d = .create
      warnings := unpackedWarnings site arguments ++ duplicates })

/-- Moves the selected arguments of a call, if there are any and the destination is literal. -/
def migrate (r : MigrationRule) (site : Site) (arguments : Group) : Option (Group × Outcome) :=
  let warnings := unpackedWarnings site arguments
  if arguments.elements.any (r.movesElement site) then
    match classify arguments r.destination with
    | .foreign =>
        some (arguments,
          { warnings := warnings ++ [site.warn .foreignDestination ("`" ++
              String.ofList r.destination ++ "` is not a dict literal, keywords left in place")] })
    | d => r.move d site arguments
  else some (arguments, { warnings })

/-- The name under which keyword migration is installed. -/
def ruleName : String := "metadata-migration"

/-- Keyword migration as a rule. A result without a destination argument is not acceptable. -/
def toRule (r : MigrationRule) : Rule where
  name := ruleName
  description := "Moves selected keyword arguments of field constructors into one mapping argument"
  destination := some r.destination
  applies := fun _ => r.enabled
  apply := r.migrate
  accepts := fun arguments => (arguments.keywordIndex? r.destination).isSome
  excludes := (· == ruleName)

end MigrationRule

/-- The engine with the rules that a valid configuration enables. -/
def Engine.ofConfig (c : Config) : Except ConfigError Engine :=
  match c.validate with
  | .error e => .error e
  | .ok () =>
      let engine := Engine.empty c.detector
      if c.migration.enabled then
        match engine.addRule c.migration.toRule with
        | .ok e => .ok e
        | .error message => .error (.conflict message)
      else .ok engine

end SchemaTidy
