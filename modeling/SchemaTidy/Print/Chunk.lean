import SchemaTidy.Print.Spacing
import SchemaTidy.Print.StringRun
import SchemaTidy.Text.Order
import SchemaTidy.Trivia

/-!
# Chunks

A logical line as a list of chunks: plain text, runs of string literals, and brackets with their
slots. Everything about the source that printing depends on is in the chunks.
-/

namespace SchemaTidy

mutual

/-- A piece of a line. `spaced` tells whether a blank stands before it. -/
inductive Chunk where
  | text (text : Text) (spaced : Bool)
  | strings (run : StringRun) (spaced : Bool)
  | bracket (b : Bracket)

/-- One comma-separated slot of a bracket and the comments around it. -/
structure Slot where
  chunks : List Chunk
  /-- Comments on lines above the slot. -/
  leading : List Text
  /-- Comments behind the comma of the slot. -/
  trailing : List Text
  /-- Slots with a key may be reordered among their neighbours. -/
  sortKey : Option Text

structure Bracket where
  spaced : Bool
  opening : Text
  closing : Text
  slots : List Slot
  /-- Comment on the line of the opening bracket. -/
  openingComment : List Text
  /-- Comments on lines before the closing bracket. -/
  dangling : List Text
  commaWhenExploded : Bool
  commaWhenFlat : Bool
  /-- Parentheses that appear only when the bracket is exploded. -/
  isVirtual : Bool
  /-- Whether the bracket cannot stay on one line. -/
  forced : Bool

end

namespace Chunk

def isSpaced : Chunk → Bool
  | text _ spaced => spaced
  | strings _ spaced => spaced
  | bracket b => b.spaced

def isForced : Chunk → Bool
  | bracket b => b.forced
  | _ => false

/-- Whether a chunk is a run of literals with a line break. -/
def isMultiline : Chunk → Bool
  | strings run _ => run.flat.contains '\n'
  | _ => false

end Chunk

mutual

def Chunk.flat : Chunk → Text
  | .text text _ => text
  | .strings run _ => run.flat
  | .bracket b => b.flat

def Bracket.flat : Bracket → Text
  | ⟨_, opening, closing, slots, _, _, _, commaWhenFlat, isVirtual, _⟩ =>
      if isVirtual then flatSlots slots
      else opening ++ flatSlots slots ++ (if commaWhenFlat then [','] else []) ++ closing

def Slot.flat : Slot → Text
  | ⟨chunks, _, _, _⟩ => flatChunks chunks

def flatSlots : List Slot → Text
  | [] => []
  | [s] => s.flat
  | s :: t :: rest => s.flat ++ [',', ' '] ++ flatSlots (t :: rest)

def flatChunks : List Chunk → Text
  | [] => []
  | c :: cs => c.flat ++ flatTail cs

def flatTail : List Chunk → Text
  | [] => []
  | c :: cs => (if c.isSpaced then [' '] else []) ++ c.flat ++ flatTail cs

end

namespace Bracket

/-- Whether comments stand around the slots of a bracket. -/
def hasComments (b : Bracket) : Bool :=
  !b.openingComment.isEmpty || !b.dangling.isEmpty ||
    b.slots.any fun s => !s.leading.isEmpty || !s.trailing.isEmpty

/-- Parentheses around a run of literals that appear only when they are needed. -/
def virtual (run : StringRun) (spaced : Bool) : Bracket where
  spaced := spaced
  opening := ['(']
  closing := [')']
  slots := [⟨[.strings run false], [], [], none⟩]
  openingComment := []
  dangling := []
  commaWhenExploded := false
  commaWhenFlat := false
  isVirtual := true
  forced := false

def loneRun? (b : Bracket) : Option StringRun :=
  match b.slots with
  | [⟨[.strings run _], _, _, _⟩] => some run
  | _ => none

end Bracket

/-- Sorts each maximal run of keyed entries by key. Entries without a key stay where they are, and
entries of equal keys keep their order. `run` holds the keyed entries read last. -/
def sortRunsFrom {α : Type} (key : α → Option Text) (run : List α) : List α → List α
  | [] => run.mergeSort fun a b => Text.le ((key a).getD []) ((key b).getD [])
  | x :: xs =>
      if (key x).isSome then sortRunsFrom key (run ++ [x]) xs
      else
        run.mergeSort (fun a b => Text.le ((key a).getD []) ((key b).getD [])) ++
          x :: sortRunsFrom key [] xs

/-- Sorts each maximal run of keyed entries by key. -/
def sortRuns {α : Type} (key : α → Option Text) (xs : List α) : List α := sortRunsFrom key [] xs

/-- The key by which an element of a group may be sorted. -/
def sortKey? (kind : GroupKind) (e : Element) : Option Text :=
  match kind with
  | .call => e.keyword?
  | .brace => e.stringKey?
  | _ => none

/-- Gives the run of literals that ends a sequence behind one of `introducers` parentheses in which
it can be split. -/
def wrapLastRun (introducers : List Text) : List Chunk → List Chunk
  | [.text t spaced, .strings run spaced'] =>
      if introducers.contains t then [.text t spaced, .bracket (.virtual run spaced')]
      else [.text t spaced, .strings run spaced']
  | c :: cs => c :: wrapLastRun introducers cs
  | [] => []

/-- Operators and words behind which a run of literals may get parentheses in a logical line. -/
def valueIntroducers : List Text :=
  ["=", "+=", "-=", "*=", "/=", "//=", "%=", "@=", "&=", "|=", "^=", ">>=", "<<=", "**=",
   "return"].map String.toList

def innerComments (items : List Item) : List Text :=
  items.tail.flatMap fun i => Trivia.comments i.firstToken.trivia

/-- The chunk of the literals `texts`, and the state behind it; there is none for no literals. -/
def runChunk (style : Style) (spacer : Spacer) : List Text → List Chunk × Spacer
  | [] => ([], spacer)
  | text :: texts =>
      let (spaced, spacer) := spacer.next (.token .string text)
      ([.strings (.ofTexts style (text :: texts)) spaced], spacer)

/-- Whether a group of one element is a tuple or index in which a trailing comma has a meaning. -/
def Group.isTupleLike (g : Group) : Bool :=
  g.elements.length == 1 && (g.kind == .paren || g.kind == .subscript)

def Group.commaWhenExploded (style : Style) (g : Group) : Bool :=
  if g.isTupleLike || g.isComprehension then g.hasTrailingComma
  else if style.trailingCommas then !g.elements.isEmpty
  else g.hasTrailingComma

/-- The bracket of a group, given its slots in source order. -/
def Group.bracketOf (style : Style) (spaced : Bool) (g : Group) (slots : List Slot) : Bracket :=
  let b : Bracket :=
    { spaced
      opening := g.opening.text
      closing := g.closing.text
      slots := if style.sortKeys && g.sortable then sortRuns Slot.sortKey slots else slots
      openingComment := (Trivia.sameLineComment? (triviaAfter g.closing.trivia g.elements)).toList
      dangling := Trivia.ownLineComments g.closing.trivia
      commaWhenExploded := g.commaWhenExploded style
      commaWhenFlat := g.isTupleLike && g.hasTrailingComma
      isVirtual := false
      forced := false }
  let magicComma := style.trailingCommas && g.hasTrailingComma && !g.isTupleLike
  let multiline := 2 ≤ b.slots.length && b.slots.any (·.chunks.any Chunk.isMultiline)
  { b with
    forced := magicComma || b.hasComments || multiline || b.slots.any (·.chunks.any Chunk.isForced) }

/-- The slot of an element, given its chunks and the trivia behind the element. -/
def Element.slotOf (kind : GroupKind) (following : Text) (e : Element) (chunks : List Chunk) : Slot :=
  { chunks :=
      if kind == .brace then wrapLastRun [[':']] chunks
      else if kind == .call && e.keyword?.isSome && chunks.length == 3 then
        wrapLastRun [['=']] chunks
      else chunks
    leading := Trivia.ownLineComments e.leadingTrivia ++ innerComments e.items
    trailing :=
      (match e.comma with
        | some comma => Trivia.comments comma.trivia
        | none => []) ++
        (Trivia.sameLineComment? following).toList
    sortKey := sortKey? kind e }

mutual

/-- The chunks of some items. `run` holds the literals directly before them. -/
def chunksOf (style : Style) (spacer : Spacer) (run : List Text) : List Item → List Chunk
  | [] => (runChunk style spacer run).1
  | .token t :: rest =>
      if t.kind == .string then chunksOf style spacer (run ++ [t.text]) rest
      else
        let (done, spacer) := runChunk style spacer run
        let (spaced, spacer) := spacer.next (.token t.kind t.text)
        done ++ .text t.text spaced :: chunksOf style spacer [] rest
  | .group g :: rest =>
      let (done, spacer) := runChunk style spacer run
      let (spaced, spacer) := spacer.next (.opening g.kind)
      done ++ .bracket (g.bracket style spaced) :: chunksOf style spacer [] rest

def Group.bracket (style : Style) (spaced : Bool) : Group → Bracket
  | ⟨opening, elements, closing, kind, sortable⟩ =>
      Group.bracketOf style spaced ⟨opening, elements, closing, kind, sortable⟩
        (slotsOf style kind closing.trivia elements)

/-- The slots of elements before a closing bracket with the trivia `closing`. -/
def slotsOf (style : Style) (kind : GroupKind) (closing : Text) : List Element → List Slot
  | [] => []
  | e :: es => e.slot style kind (triviaAfter closing es) :: slotsOf style kind closing es

def Element.slot (style : Style) (kind : GroupKind) (following : Text) : Element → Slot
  | ⟨items, comma⟩ =>
      let e : Element := ⟨items, comma⟩
      let spacer : Spacer := { group := some kind, keywordElement := e.keyword?.isSome }
      e.slotOf kind following (chunksOf style spacer [] items)

end

def lineChunks (style : Style) (items : List Item) : List Chunk :=
  wrapLastRun valueIntroducers
    (chunksOf style { group := none, keywordElement := false } [] items)

end SchemaTidy
