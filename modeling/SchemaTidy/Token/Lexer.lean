import SchemaTidy.Token.Lexeme

/-!
# Tokens of a source text

`tokenize` cuts a source text into tokens. Blanks, comments, blank lines and line continuations
become the trivia of the token that follows; indentation becomes block markers without text.
-/

namespace SchemaTidy

/-- Whether a physical line holds nothing but blanks and a comment. -/
def isTriviaLine (line : Text) : Bool :=
  match line.dropWhile Text.isIndent with
  | [] => true
  | c :: _ => c == '#' || Text.isLineBreak c

/-- Length of the first physical line, its terminator included. -/
def firstLineLength (cs : Text) : Nat :=
  let n := Text.lengthWhile (!Text.isLineBreak ·) cs
  n + Text.lineBreakLength (cs.drop n)

theorem firstLineLength_pos {cs : Text} (h : cs ≠ []) : 0 < firstLineLength cs := by
  cases cs with
  | nil => exact absurd rfl h
  | cons c cs =>
      by_cases hc : Text.isLineBreak c
      · have hn : Text.lengthWhile (!Text.isLineBreak ·) (c :: cs) = 0 := by
          simp [Text.lengthWhile, List.takeWhile, hc]
        simp only [firstLineLength, hn, List.drop_zero]
        unfold Text.lineBreakLength
        split <;> simp_all
      · have hn : 0 < Text.lengthWhile (!Text.isLineBreak ·) (c :: cs) := by
          simp [Text.lengthWhile, List.takeWhile, hc]
        simp only [firstLineLength]
        omega

/-- Length of the blank and comment lines before the first line that holds a token. -/
def triviaLinesLength (cs : Text) : Nat :=
  if _ : cs = [] then 0
  else
    let n := firstLineLength cs
    if isTriviaLine (cs.take n) then n + triviaLinesLength (cs.drop n) else 0
termination_by cs.length
decreasing_by
  rename_i h _
  have := firstLineLength_pos h
  have : 0 < cs.length := List.length_pos_iff.mpr h
  simp only [List.length_drop]
  omega

/-- How far a source text has been cut into tokens. -/
structure Cursor where
  rest : Text
  here : Position
  /-- Text taken since the last token. -/
  trivia : Text
  /-- Widths of the open blocks, innermost first. -/
  indents : List Nat
  /-- Open brackets and their places, innermost first. -/
  brackets : List (Char × Position)
  /-- Whether the next character starts a logical line. -/
  lineStart : Bool
  /-- Kind of the last token. -/
  last : Option TokenKind

namespace Cursor

def ofSource (source : Text) : Cursor := ⟨source, .start, [], [], [], true, none⟩

def skip (c : Cursor) (n : Nat) : Cursor :=
  { c with
    rest := c.rest.drop n
    here := c.here.after (c.rest.take n)
    trivia := c.trivia ++ c.rest.take n }

def take (c : Cursor) (kind : TokenKind) (n : Nat) : Token × Cursor :=
  (⟨kind, c.rest.take n, c.trivia, c.here⟩,
    { c with
      rest := c.rest.drop n
      here := c.here.after (c.rest.take n)
      trivia := []
      lineStart := kind == .newline
      last := some kind })

/-- A block marker, which has no text and leaves the trivia to the next token. -/
def marker (kind : TokenKind) (position : Position) : Token := ⟨kind, [], [], position⟩

/-- Opens or closes blocks for a line of the given indentation. The column of an opening marker is
one more than the width of its block. -/
def indentTo (c : Cursor) (width : Nat) : Except ParseError (List Token × Cursor) :=
  let current := c.indents.headD 0
  if current < width then
    .ok ([marker .indent ⟨c.here.line, width + 1⟩],
      { c with indents := width :: c.indents, last := some .indent })
  else if width < current then
    let closed := c.indents.takeWhile (width < ·)
    let indents := c.indents.dropWhile (width < ·)
    if indents.headD 0 == width then
      .ok (closed.map fun _ => marker .dedent c.here, { c with indents, last := some .dedent })
    else .error ⟨.unindent, c.here⟩
  else .ok ([], c)

/-- At the start of a logical line, passes over blank and comment lines and the indentation, and
opens or closes blocks for the line that follows. -/
def enterLine (c : Cursor) : Except ParseError (List Token × Cursor) :=
  if c.lineStart then
    let c := c.skip (triviaLinesLength c.rest)
    let width := Text.indentWidth c.rest
    let c := c.skip (Text.lengthWhile Text.isIndent c.rest)
    if c.rest.isEmpty then .ok ([], c) else { c with lineStart := false }.indentTo width
  else .ok ([], c)

def matching (opening : Char) : Char :=
  if opening == '(' then ')' else if opening == '[' then ']' else '}'

/-- Keeps account of the brackets when the operator `c` is taken. -/
def account (c : Char) (at_ : Position) (brackets : List (Char × Position)) :
    Except ParseError (List (Char × Position)) :=
  if c == '(' || c == '[' || c == '{' then .ok ((c, at_) :: brackets)
  else if c == ')' || c == ']' || c == '}' then
    match brackets with
    | [] => .error ⟨.unmatched c, at_⟩
    | (o, _) :: outer =>
        if matching o == c then .ok outer else .error ⟨.mismatched c o, at_⟩
  else .ok brackets

/-- Takes one piece, which starts with the character `ch`. -/
def advance (c : Cursor) (ch : Char) (cs : Text) : Except ParseError (Option Token × Cursor) :=
  match Lexeme.scan (!c.brackets.isEmpty) c.here ch cs with
  | .error e => .error e
  | .ok (.trivia, n) => .ok (none, c.skip (n + 1))
  | .ok (.token kind, n) =>
      match if kind == .op then account ch c.here c.brackets else .ok c.brackets with
      | .error e => .error e
      | .ok brackets =>
          let (t, c') := c.take kind (n + 1)
          .ok (some t, { c' with brackets })

/-- Ends the last logical line if it is unfinished, closes all blocks and marks the end. -/
def finish (c : Cursor) : Except ParseError (List Token) :=
  match c.brackets with
  | (opening, position) :: _ => .error ⟨.neverClosed [opening], position⟩
  | [] =>
      let unfinished := c.last.any fun kind => kind != .newline && kind != .dedent
      let (ended, c) :=
        if unfinished then
          let (t, c') := c.take .newline 0
          ([t], c')
        else ([], c)
      .ok (ended ++ c.indents.map (fun _ => marker .dedent c.here) ++ [(c.take .endMarker 0).1])

@[simp] theorem rest_skip (c : Cursor) (n : Nat) : (c.skip n).rest = c.rest.drop n := rfl

@[simp] theorem rest_take (c : Cursor) (kind : TokenKind) (n : Nat) :
    (c.take kind n).2.rest = c.rest.drop n := rfl

theorem rest_indentTo {c c' : Cursor} {width : Nat} {ts : List Token}
    (h : c.indentTo width = .ok (ts, c')) : c'.rest = c.rest := by
  simp only [indentTo] at h
  split at h
  · cases h; rfl
  · split at h
    · split at h
      · cases h; rfl
      · cases h
    · cases h; rfl

theorem length_rest_enterLine {c c' : Cursor} {ts : List Token} (h : c.enterLine = .ok (ts, c')) :
    c'.rest.length ≤ c.rest.length := by
  unfold enterLine at h
  split at h
  · simp only at h
    split at h
    · cases h; simp
    · rw [rest_indentTo h]; simp
  · cases h; exact Nat.le_refl _

theorem rest_advance {c c' : Cursor} {ch : Char} {cs : Text} {t : Option Token}
    (h : c.advance ch cs = .ok (t, c')) : ∃ n, c'.rest = c.rest.drop (n + 1) := by
  unfold advance at h
  split at h
  · cases h
  · cases h; exact ⟨_, rfl⟩
  · split at h
    · cases h
    · cases h; exact ⟨_, rfl⟩

/-- The tokens from here to the end of the source. -/
def tokens (c : Cursor) : Except ParseError (List Token) :=
  match _ : c.enterLine with
  | .error e => .error e
  | .ok (markers, c₁) =>
      match _ : c₁.rest with
      | [] => c₁.finish.map (markers ++ ·)
      | ch :: cs =>
          match _ : c₁.advance ch cs with
          | .error e => .error e
          | .ok (t, c₂) => c₂.tokens.map (markers ++ t.toList ++ ·)
termination_by c.rest.length
decreasing_by
  rename_i hl hr ha
  have h₁ := length_rest_enterLine hl
  obtain ⟨n, h₂⟩ := rest_advance ha
  rw [hr] at h₁
  simp only [h₂, hr, List.drop_succ_cons, List.length_drop, List.length_cons] at h₁ ⊢
  omega

end Cursor

/-- The tokens of a source text, from its first character to the end marker. -/
def tokenize (source : Text) : Except ParseError (List Token) := (Cursor.ofSource source).tokens

end SchemaTidy
