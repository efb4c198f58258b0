import SchemaTidy.Print.Chunk

/-!
# Layout

Lays the chunks of a logical line out into physical lines. A line that fits stays flat. Otherwise one
bracket is exploded: the line up to the opening bracket stays, each slot gets lines of its own one
level deeper, and what follows the closing bracket is laid out again. All choices depend on the
chunks, the indentation and the style only.
-/

namespace SchemaTidy

/-- Whether the first and the last physical line of a text fit the width. -/
def Style.fits (style : Style) (line : Text) : Bool :=
  Text.width (line.takeWhile (· != '\n')) ≤ style.lineLength &&
    Text.width (line.reverse.takeWhile (· != '\n')).reverse ≤ style.lineLength

/-- Columns left between an indentation and the end of a line. -/
def Style.available (style : Style) (indent ending : Text) : Nat :=
  style.lineLength - (Text.width indent + Text.width ending)

/-- The line up to the opening bracket `b`, which follows the chunks `before`. -/
def headLine (indent : Text) (before : List Chunk) (b : Bracket) : Text :=
  indent ++ flatChunks before ++ (if !before.isEmpty && b.spaced then [' '] else []) ++ b.opening

/-- The line from the closing bracket `b` through the chunks `after`. -/
def tailLine (indent ending : Text) (b : Bracket) (after : List Chunk) : Text :=
  indent ++ b.closing ++ flatTail after ++ ending

def Style.canExplode (style : Style) (indent : Text) (b : Bracket) : Bool :=
  if b.isVirtual then
    match b.loneRun? with
    | none => false
    | some run =>
        let inner := indent ++ style.indentUnit
        1 < (run.lines (style.available inner [])).length || style.fits (inner ++ run.flat)
  else !b.slots.isEmpty || b.hasComments

/-- Whether the chunk of index `i` is a bracket that can be exploded. -/
def Style.isCandidate (style : Style) (indent : Text) (chunks : List Chunk) (i : Nat) : Bool :=
  match chunks[i]? with
  | some (.bracket b) => style.canExplode indent b
  | _ => false

/-- Whether the lines before and behind the exploded chunk of index `i` fit. -/
def Style.fitsAround (style : Style) (indent ending : Text) (chunks : List Chunk) (i : Nat) : Bool :=
  match chunks[i]? with
  | some (.bracket b) =>
      style.fits (headLine indent (chunks.take i) b) &&
        style.fits (tailLine indent ending b (chunks.drop (i + 1)))
  | _ => false

/-- The bracket to explode in a line that is too wide: the last one around which the lines fit, or
else the last one. -/
def Style.explodePoint? (style : Style) (indent ending : Text) (chunks : List Chunk) : Option Nat :=
  let candidates := (List.range chunks.length).filter (style.isCandidate indent chunks)
  candidates.reverse.find? (style.fitsAround indent ending chunks) <|> candidates.getLast?

inductive Arrangement where
  | flat
  /-- One literal for each line. -/
  | literals (lines : List Text)
  /-- Explode the chunk of this index. -/
  | explode (i : Nat)

/-- The literals of a sequence that is a single run and does not fit one line. -/
def Style.literalLines? (style : Style) (indent ending : Text) : List Chunk → Option (List Text)
  | [.strings run _] =>
      let lines := run.lines (style.available indent ending)
      if 1 < lines.length then some lines else none
  | _ => none

/-- Chooses the arrangement of a sequence. Inside brackets a single run of literals may go on in the
next line. -/
def Style.arrange (style : Style) (indent ending : Text) (inBrackets : Bool) (chunks : List Chunk) :
    Arrangement :=
  match chunks.findIdx? Chunk.isForced with
  | some i => .explode i
  | none =>
      if style.fits (indent ++ flatChunks chunks ++ ending) then .flat
      else
        match if inBrackets then style.literalLines? indent ending chunks else none with
        | some lines => .literals lines
        | none =>
            match style.explodePoint? indent ending chunks with
            | some i => .explode i
            | none => .flat

def appendToLast (ending : Text) : List Text → List Text
  | [] => []
  | [line] => [line ++ ending]
  | line :: lines => line :: appendToLast ending lines

def commentTail (comments : List Text) : Text := comments.flatMap fun c => ' ' :: ' ' :: c

mutual

/-- A measure of chunks in which a bracket outweighs its slots and a text. -/
def Chunk.weight : Chunk → Nat
  | .text _ _ => 1
  | .strings _ _ => 1
  | .bracket b => b.weight

def Bracket.weight : Bracket → Nat
  | ⟨_, _, _, slots, _, _, _, _, _, _⟩ => weightSlots slots + 2

def Slot.weight : Slot → Nat
  | ⟨chunks, _, _, _⟩ => weightChunks chunks

def weightSlots : List Slot → Nat
  | [] => 0
  | s :: ss => s.weight + weightSlots ss

def weightChunks : List Chunk → Nat
  | [] => 0
  | c :: cs => c.weight + weightChunks cs

end

theorem weight_bracket (b : Bracket) : b.weight = weightSlots b.slots + 2 := by
  cases b; rfl

theorem weight_slot (s : Slot) : s.weight = weightChunks s.chunks := by
  cases s; rfl

theorem weight_getElem?_drop {chunks : List Chunk} {i : Nat} {c : Chunk} (h : chunks[i]? = some c) :
    c.weight + weightChunks (chunks.drop (i + 1)) ≤ weightChunks chunks := by
  induction chunks generalizing i with
  | nil => simp at h
  | cons d ds ih =>
      cases i with
      | zero =>
          simp only [List.getElem?_cons_zero, Option.some.injEq] at h
          simp [weightChunks, h]
      | succ i =>
          have := ih (i := i) (by simpa using h)
          simp only [List.drop_succ_cons, weightChunks]
          omega

mutual

/-- The physical lines of a sequence of chunks at an indentation. `ending` ends the last line. -/
def layout (style : Style) (indent ending : Text) (inBrackets : Bool) (chunks : List Chunk) :
    List Text :=
  match style.arrange indent ending inBrackets chunks with
  | .flat => [indent ++ flatChunks chunks ++ ending]
  | .literals lines => appendToLast ending (lines.map (indent ++ ·))
  | .explode i =>
      match _ : chunks[i]? with
      | some (.bracket b) =>
          let inner := indent ++ style.indentUnit
          (headLine indent (chunks.take i) b ++ commentTail b.openingComment) ::
            (layoutSlots style inner b.commaWhenExploded b.slots ++
              b.dangling.map (inner ++ ·) ++
              layout style indent ending inBrackets (.text b.closing false :: chunks.drop (i + 1)))
      | _ => [indent ++ flatChunks chunks ++ ending]
termination_by (weightChunks chunks, 0)
decreasing_by
  · have := weight_getElem?_drop ‹chunks[i]? = _›
    simp only [Chunk.weight, weight_bracket] at this
    apply Prod.Lex.left
    omega
  · have := weight_getElem?_drop ‹chunks[i]? = _›
    simp only [Chunk.weight, weight_bracket] at this
    apply Prod.Lex.left
    simp only [weightChunks, Chunk.weight]
    omega

/-- The physical lines of slots, each with the comments around it. The last slot gets a comma if
`comma` is set. -/
def layoutSlots (style : Style) (inner : Text) (comma : Bool) : List Slot → List Text
  | [] => []
  | s :: ss =>
      let ending := if comma || !ss.isEmpty then [','] else []
      s.leading.map (inner ++ ·) ++
        appendToLast (commentTail s.trailing) (layout style inner ending true s.chunks) ++
        layoutSlots style inner comma ss
termination_by slots => (weightSlots slots, slots.length + 1)
decreasing_by
  · simp only [weightSlots, weight_slot]
    by_cases h : weightSlots ss = 0
    · simp only [h, Nat.add_zero]
      exact Prod.Lex.right _ (by omega)
    · exact Prod.Lex.left _ _ (by omega)
  · simp only [weightSlots]
    by_cases h : s.weight = 0
    · simp only [h, Nat.zero_add]
      exact Prod.Lex.right _ (by simp)
    · exact Prod.Lex.left _ _ (by omega)

end

end SchemaTidy
