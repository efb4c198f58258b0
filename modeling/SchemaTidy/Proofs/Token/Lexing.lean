import SchemaTidy.Proofs.Token.Comments
import SchemaTidy.Proofs.Token.Cut

/-!
# Reading a text token by token

`Lexes` says which tokens the lexer gives from a state on, up to trivia and places, and which comments
it reads in this order, among others. Its rules read a text from the front: a token, a blank, a comment,
a line break inside or outside of brackets, a blank or comment line, the indentation of a logical line,
the end.
-/

namespace SchemaTidy

/-- A kind of token and the text of a word of the program. -/
abbrev Shape := TokenKind × Text

/-- Whether tokens of a kind are words of the program and not part of its layout. -/
def TokenKind.isWord : TokenKind → Bool
  | .name | .number | .string | .op => true
  | _ => false

/-- What a token is apart from its trivia, its place and the spelling of a line end. -/
def Token.shape (t : Token) : Shape := (t.kind, if t.kind.isWord then t.text else [])

/-- The open brackets after a word of the program. -/
def bracketsAfter (kind : TokenKind) (w : Text) (brackets : List Char) : Option (List Char) :=
  match kind, w with
  | .op, c :: _ =>
      if c == '(' || c == '[' || c == '{' then some (c :: brackets)
      else if c == ')' || c == ']' || c == '}' then
        match brackets with
        | [] => none
        | o :: outer => if Cursor.matching o == c then some outer else none
      else some brackets
  | _, _ => some brackets

theorem bracketsAfter_opening {c : Char} (hc : c = '(' ∨ c = '[' ∨ c = '{') (brackets : List Char) :
    bracketsAfter .op [c] brackets = some (c :: brackets) := by
  rcases hc with rfl | rfl | rfl <;> rfl

theorem bracketsAfter_closing {c : Char} (hc : c = '(' ∨ c = '[' ∨ c = '{') (brackets : List Char) :
    bracketsAfter .op [Cursor.matching c] (c :: brackets) = some brackets := by
  rcases hc with rfl | rfl | rfl <;> rfl

theorem mem_loneOperators {c : Char} (hc : c = '(' ∨ c = '[' ∨ c = '{') :
    c ∈ Lexeme.loneOperators ∧ Cursor.matching c ∈ Lexeme.loneOperators := by
  rcases hc with rfl | rfl | rfl <;> decide

def IsBreak (lb : Text) : Prop := lb = ['\n'] ∨ lb = ['\r', '\n'] ∨ lb = ['\r']

/-- The state of the lexer, apart from trivia and places. -/
structure LexState where
  rest : Text
  indents : List Nat
  brackets : List Char
  lineStart : Bool
  last : Option TokenKind

/-- Whether a text does not go on on the same line. -/
def AtBreak (x : Text) : Prop := ∀ c, x.head? = some c → Text.isLineBreak c = true

namespace Cursor

def state (c : Cursor) : LexState :=
  ⟨c.rest, c.indents, c.brackets.map Prod.fst, c.lineStart, c.last⟩

/-- A comment that is open ends here. -/
def EndsComment (c : Cursor) : Prop := Trivia.Closed c.trivia ∨ AtBreak c.rest

end Cursor

/-- The lexer gives tokens of these shapes from a state on, and the comments `rs` are among those that
it reads. -/
def Lexes (s : LexState) (us : List Shape) (rs : List Text) : Prop :=
  ∀ c : Cursor, c.state = s → c.EndsComment → ∃ ts, c.tokens = .ok ts ∧ ts.map Token.shape = us ∧
    (Trivia.physicalComments c.trivia ++ rs).Sublist (commentsOf ts)

theorem Lexes.mono {s : LexState} {us : List Shape} {rs rs' : List Text} (h : Lexes s us rs)
    (hsub : rs'.Sublist rs) : Lexes s us rs' := by
  intro c hc hends
  obtain ⟨ts, hts, hshape, hcomments⟩ := h c hc hends
  exact ⟨ts, hts, hshape, (hsub.append_left _).trans hcomments⟩

theorem account_eq_ok {c : Char} {at_ : Position} {brackets : List (Char × Position)}
    {outer : List Char} {w : Text}
    (h : bracketsAfter .op (c :: w) (brackets.map Prod.fst) = some outer) :
    ∃ brackets', Cursor.account c at_ brackets = .ok brackets' ∧ brackets'.map Prod.fst = outer := by
  unfold bracketsAfter at h
  unfold Cursor.account
  simp only at h
  split at h
  · rename_i hopening
    cases h
    exact ⟨(c, at_) :: brackets, by simp [hopening], rfl⟩
  split at h
  · rename_i hopening hclosing
    simp only [hopening, Bool.false_eq_true, if_false, hclosing, if_true]
    match brackets, h with
    | (o, p) :: outer', h =>
        simp only [List.map_cons] at h
        split at h
        · rename_i hmatch
          cases h
          exact ⟨outer', by simp [hmatch], rfl⟩
        · cases h
  · rename_i hopening hclosing
    cases h
    exact ⟨brackets, by simp [hopening, hclosing], rfl⟩

theorem Cursor.tokens_of_not_lineStart {c : Cursor} {ch : Char} {cs : Text}
    (hstart : c.lineStart = false) (hrest : c.rest = ch :: cs) :
    c.tokens = match c.advance ch cs with
      | .error e => .error e
      | .ok (t, c') => c'.tokens.map (t.toList ++ ·) := by
  have henter : c.enterLine = .ok ([], c) := by
    unfold enterLine
    rw [if_neg (by simp [hstart])]
  rw [tokens_eq, henter]
  cases hadvance : c.advance ch cs with
  | error e => simp only [hrest, hadvance]
  | ok next => simp only [hrest, hadvance, List.nil_append]

theorem lexes_word {kind : TokenKind} {w x : Text} {indents : List Nat} {brackets outer : List Char}
    {last : Option TokenKind} {us : List Shape} {rs : List Text} (hw : Lexeme.Cuts kind w x)
    (hkind : kind.isWord = true) (hbrackets : bracketsAfter kind w brackets = some outer)
    (h : Lexes ⟨x, indents, outer, false, some kind⟩ us rs) :
    Lexes ⟨w ++ x, indents, brackets, false, last⟩ ((kind, w) :: us) rs := by
  intro c hc _
  obtain ⟨-, ch, cs, rfl, hscan⟩ := hw
  simp only [Cursor.state, LexState.mk.injEq] at hc
  obtain ⟨hrest, hindents, hb, hstart, -⟩ := hc
  obtain ⟨brackets', haccount, hb'⟩ : ∃ brackets',
      (if kind == .op then Cursor.account ch c.here c.brackets else .ok c.brackets) =
        .ok brackets' ∧ brackets'.map Prod.fst = outer := by
    by_cases hop : kind = .op
    · subst hop
      rw [← hb] at hbrackets
      simpa using account_eq_ok hbrackets
    · refine ⟨c.brackets, by simp [hop], ?_⟩
      unfold bracketsAfter at hbrackets
      split at hbrackets
      · exact absurd rfl hop
      · rw [hb]
        exact Option.some.inj hbrackets
  have hadvance : c.advance ch (cs ++ x) =
      .ok (some (c.take kind (cs.length + 1)).1,
        { (c.take kind (cs.length + 1)).2 with brackets := brackets' }) := by
    unfold Cursor.advance
    rw [hscan]
    simp only [haccount]
  have hnewline : (kind == .newline) = false := by
    cases kind <;> first | rfl | cases hkind
  obtain ⟨ts, hts, hshape, hcomments⟩ :=
    h { (c.take kind (cs.length + 1)).2 with brackets := brackets' } (by
      simp [Cursor.state, Cursor.take, hrest, hindents, hb', hnewline]) (.inl Trivia.closed_nil)
  refine ⟨(c.take kind (cs.length + 1)).1 :: ts, ?_, ?_, hcomments.append_left _⟩
  · rw [Cursor.tokens_of_not_lineStart hstart (hrest.trans (List.cons_append ..)), hadvance]
    simp only [hts]
    rfl
  · simp [Token.shape, Cursor.take, hrest, hkind, hshape]

/-- Reading a piece of trivia behind the start of a line, with the comments `rs'`. -/
theorem lexes_trivia {ch : Char} {cs x : Text} {indents : List Nat} {brackets : List Char}
    {last : Option TokenKind} {us : List Shape} {rs rs' : List Text}
    (hscan : ∀ here, Lexeme.scan (!brackets.isEmpty) here ch (cs ++ x) = .ok (.trivia, cs.length))
    (hcomments : ∀ t, Trivia.Closed t ∨ Text.isLineBreak ch = true →
      Trivia.physicalComments (t ++ ch :: cs) = Trivia.physicalComments t ++ rs' ∧
        (Trivia.Closed (t ++ ch :: cs) ∨ AtBreak x))
    (h : Lexes ⟨x, indents, brackets, false, last⟩ us rs) :
    Lexes ⟨ch :: (cs ++ x), indents, brackets, false, last⟩ us (rs' ++ rs) := by
  intro c hc hends
  simp only [Cursor.state, LexState.mk.injEq] at hc
  obtain ⟨hrest, hindents, hb, hstart, hlast⟩ := hc
  have hadvance : c.advance ch (cs ++ x) = .ok (none, c.skip (cs.length + 1)) := by
    unfold Cursor.advance
    have hempty : c.brackets.isEmpty = brackets.isEmpty := by
      rw [← hb]
      simp
    rw [hempty, hscan]
  have htrivia : (c.skip (cs.length + 1)).trivia = c.trivia ++ ch :: cs := by
    simp [Cursor.skip, hrest]
  obtain ⟨hown, hends'⟩ := hcomments c.trivia (hends.imp_right fun h => h ch (by simp [hrest]))
  obtain ⟨ts, hts, hshape, hread⟩ := h (c.skip (cs.length + 1)) (by
      simp [Cursor.state, Cursor.skip, hrest, hindents, hb, hstart, hlast]) (by
    rw [Cursor.EndsComment, htrivia]
    simpa [hrest] using hends')
  refine ⟨ts, ?_, hshape, ?_⟩
  · rw [Cursor.tokens_of_not_lineStart hstart hrest, hadvance]
    simp only [hts]
    rfl
  · rwa [htrivia, hown, List.append_assoc] at hread

theorem isLineBreak_of_isIndent {c : Char} (h : Text.isIndent c = true) :
    Text.isLineBreak c = false := by
  cases hbreak : Text.isLineBreak c with
  | false => rfl
  | true =>
      simp only [Text.isLineBreak, Bool.or_eq_true, beq_iff_eq] at hbreak
      rcases hbreak with rfl | rfl <;> cases h

theorem closed_blanks {t ws : Text} (ht : Trivia.Closed t)
    (hws : ∀ c ∈ ws, Text.isIndent c = true) :
    Trivia.Closed (t ++ ws) ∧ Trivia.physicalComments (t ++ ws) = Trivia.physicalComments t := by
  induction ws generalizing t with
  | nil => simpa using ht
  | cons c ws ih =>
      have hc := Trivia.isBlank_ne (Text.isBlank_of_isIndent (hws c (by simp)))
      obtain ⟨hclosed, hown⟩ := ht.cons hc
      have hrest := ih hclosed fun d hd => hws d (by simp [hd])
      rwa [hown, List.append_assoc] at hrest

theorem lexes_blanks {w x : Text} {indents : List Nat} {brackets : List Char}
    {last : Option TokenKind} {us : List Shape} {rs : List Text}
    (hw : ∀ c ∈ w, Text.isIndent c = true) (h : Lexes ⟨x, indents, brackets, false, last⟩ us rs) :
    Lexes ⟨w ++ x, indents, brackets, false, last⟩ us rs := by
  induction w with
  | nil => exact h
  | cons c w ih =>
      have hscan : ∀ here, Lexeme.scan (!brackets.isEmpty) here c ([] ++ (w ++ x)) =
          .ok (.trivia, ([] : Text).length) := by
        intro here
        simp [Lexeme.scan, hw c (by simp)]
      have hcomments (t : Text) (ht : Trivia.Closed t ∨ Text.isLineBreak c = true) :
          Trivia.physicalComments (t ++ c :: []) = Trivia.physicalComments t ++ [] ∧
            (Trivia.Closed (t ++ c :: []) ∨ AtBreak (w ++ x)) := by
        have hbreak := isLineBreak_of_isIndent (hw c (by simp))
        obtain ⟨hclosed, hown⟩ := (ht.resolve_right (by simp [hbreak])).cons
          (Trivia.isBlank_ne (Text.isBlank_of_isIndent (hw c (by simp))))
        exact ⟨by rw [hown, List.append_nil], .inl hclosed⟩
      have hone := lexes_trivia hscan hcomments (ih fun d hd => hw d (by simp [hd]))
      rwa [List.nil_append] at hone

def IsComment (w : Text) : Prop := w.head? = some '#' ∧ ∀ c ∈ w, Text.isLineBreak c = false

theorem lexes_comment {w x : Text} {indents : List Nat} {brackets : List Char}
    {last : Option TokenKind} {us : List Shape} {rs : List Text} (hw : IsComment w) (hx : AtBreak x)
    (h : Lexes ⟨x, indents, brackets, false, last⟩ us rs) :
    Lexes ⟨w ++ x, indents, brackets, false, last⟩ us (Trivia.physicalComments w ++ rs) := by
  obtain ⟨hhead, hline⟩ := hw
  cases w with
  | nil => cases hhead
  | cons c cs =>
      obtain rfl : c = '#' := by simpa using hhead
      have hcomments (t : Text) (ht : Trivia.Closed t ∨ Text.isLineBreak '#' = true) :
          Trivia.physicalComments (t ++ '#' :: cs) =
              Trivia.physicalComments t ++ Trivia.physicalComments ('#' :: cs) ∧
            (Trivia.Closed (t ++ '#' :: cs) ∨ AtBreak x) :=
        ⟨ht.resolve_right (by decide) _, .inr hx⟩
      refine lexes_trivia (fun here => ?_) hcomments h
      have hlength : Text.lengthWhile (!Text.isLineBreak ·) (cs ++ x) = cs.length := by
        refine Text.lengthWhile_append_eq.mpr ⟨?_, ?_⟩
        · intro d hd
          simp [hline d (by simp [hd])]
        · intro d hd
          simp [hx d hd]
      simp [Lexeme.scan, Text.isIndent, hlength]

theorem lineBreakLength_of_isBreak {lb x : Text} (hlb : IsBreak lb)
    (hx : lb = ['\r'] → x.head? ≠ some '\n') : Text.lineBreakLength (lb ++ x) = lb.length := by
  rcases hlb with rfl | rfl | rfl
  · cases x <;> rfl
  · rfl
  · cases x with
    | nil => rfl
    | cons c x =>
        have hc : c ≠ '\n' := by
          rintro rfl
          exact hx rfl rfl
        rw [List.singleton_append, Text.lineBreakLength_cons_cons]
        simp [hc, Text.isLineBreak]

/-- A line break is read as trivia inside of brackets and as the end of a line outside. -/
theorem scan_break {lb x : Text} (hlb : IsBreak lb) (hx : lb = ['\r'] → x.head? ≠ some '\n') :
    ∃ ch cs, lb = ch :: cs ∧ ∀ inBrackets here, Lexeme.scan inBrackets here ch (cs ++ x) =
      .ok (if inBrackets then .trivia else .token .newline, cs.length) := by
  have hlength := lineBreakLength_of_isBreak hlb hx
  obtain ⟨ch, cs, rfl, hch⟩ : ∃ ch cs, lb = ch :: cs ∧ (ch = '\n' ∨ ch = '\r') := by
    rcases hlb with rfl | rfl | rfl
    · exact ⟨_, _, rfl, .inl rfl⟩
    · exact ⟨_, _, rfl, .inr rfl⟩
    · exact ⟨_, _, rfl, .inr rfl⟩
  refine ⟨ch, cs, rfl, ?_⟩
  intro inBrackets here
  rw [List.cons_append] at hlength
  rcases hch with rfl | rfl
  · simp [Lexeme.scan, Text.isIndent, Text.isLineBreak, hlength]
  · simp [Lexeme.scan, Text.isIndent, Text.isLineBreak, hlength]

theorem closed_append_break {lb : Text} (hlb : IsBreak lb) (t : Text) :
    Trivia.Closed (t ++ lb) ∧ Trivia.physicalComments (t ++ lb) = Trivia.physicalComments t := by
  have hone {d : Char} (hd : Text.isLineBreak d = true) (t : Text) :
      Trivia.Closed (t ++ [d]) ∧ Trivia.physicalComments (t ++ [d]) = Trivia.physicalComments t :=
    ⟨Trivia.closed_break t hd, Trivia.physicalComments_concat (Trivia.isBlank_of_isLineBreak hd) t⟩
  rcases hlb with rfl | rfl | rfl
  · exact hone (by decide) t
  · obtain ⟨hclosed, hcomments⟩ := hone (d := '\n') (by decide) (t ++ ['\r'])
    rw [List.append_assoc] at hclosed hcomments
    exact ⟨hclosed, hcomments.trans (hone (by decide) t).2⟩
  · exact hone (by decide) t

theorem lexes_break {lb x : Text} {indents : List Nat} {brackets : List Char}
    {last : Option TokenKind} {us : List Shape} {rs : List Text} (hlb : IsBreak lb)
    (hx : lb = ['\r'] → x.head? ≠ some '\n') (hbrackets : brackets ≠ [])
    (h : Lexes ⟨x, indents, brackets, false, last⟩ us rs) :
    Lexes ⟨lb ++ x, indents, brackets, false, last⟩ us rs := by
  have hclosed := closed_append_break hlb
  obtain ⟨ch, cs, rfl, hscan⟩ := scan_break hlb hx
  have hcomments (t : Text) (_ : Trivia.Closed t ∨ Text.isLineBreak ch = true) :
      Trivia.physicalComments (t ++ ch :: cs) = Trivia.physicalComments t ++ [] ∧
        (Trivia.Closed (t ++ ch :: cs) ∨ AtBreak x) :=
    ⟨by rw [(hclosed t).2, List.append_nil], .inl (hclosed t).1⟩
  refine lexes_trivia (fun here => ?_) hcomments h
  rw [hscan]
  simp [hbrackets]

theorem lexes_newline {lb x : Text} {indents : List Nat} {last : Option TokenKind} {us : List Shape}
    {rs : List Text} (hlb : IsBreak lb) (hx : lb = ['\r'] → x.head? ≠ some '\n')
    (h : Lexes ⟨x, indents, [], true, some .newline⟩ us rs) :
    Lexes ⟨lb ++ x, indents, [], false, last⟩ ((.newline, []) :: us) rs := by
  intro c hc _
  obtain ⟨ch, cs, rfl, hscan⟩ := scan_break hlb hx
  simp only [Cursor.state, LexState.mk.injEq, List.map_eq_nil_iff] at hc
  obtain ⟨hrest, hindents, hb, hstart, -⟩ := hc
  have hadvance : c.advance ch (cs ++ x) =
      .ok (some (c.take .newline (cs.length + 1)).1,
        { (c.take .newline (cs.length + 1)).2 with brackets := c.brackets }) := by
    unfold Cursor.advance
    rw [hscan, hb]
    rfl
  obtain ⟨ts, hts, hshape, hcomments⟩ :=
    h { (c.take .newline (cs.length + 1)).2 with brackets := c.brackets } (by
      simp [Cursor.state, Cursor.take, hrest, hindents, hb]) (.inl Trivia.closed_nil)
  refine ⟨(c.take .newline (cs.length + 1)).1 :: ts, ?_, ?_, hcomments.append_left _⟩
  · rw [Cursor.tokens_of_not_lineStart hstart (hrest.trans (List.cons_append ..)), hadvance]
    simp only [hts]
    rfl
  · simp [Token.shape, Cursor.take, TokenKind.isWord, hshape]

/-! ## The start of a line -/

theorem Position.after_cons (p : Position) {c : Char} {r : Text}
    (h : c = '\r' → r.head? ≠ some '\n') :
    p.after (c :: r) =
      if Text.isLineBreak c then Position.after ⟨p.line + 1, 1⟩ r
      else Position.after ⟨p.line, p.column + 1⟩ r := by
  rw [Position.after]
  rintro cs rfl rfl
  exact h rfl rfl

theorem Position.after_append (p : Position) (a b : Text)
    (h : a.getLast? = some '\r' → b.head? ≠ some '\n') : p.after (a ++ b) = (p.after a).after b := by
  fun_induction Position.after p a with
  | case1 p => rfl
  | case2 p cs ih =>
      rw [List.cons_append, List.cons_append, Position.after]
      refine ih fun hlast => h ?_
      cases cs with
      | nil => simp at hlast
      | cons d cs => simpa using hlast
  | case3 p c cs hne hbreak ih =>
      have hnext : c = '\r' → (cs ++ b).head? ≠ some '\n' := by
        intro hc hhead
        cases cs with
        | nil => exact h (by simp [hc]) hhead
        | cons d cs => exact hne cs hc (by simpa using hhead)
      rw [List.cons_append, Position.after_cons p hnext, if_pos hbreak]
      refine ih fun hlast => h ?_
      cases cs with
      | nil => simp at hlast
      | cons d cs => simpa using hlast
  | case4 p c cs hne hbreak ih =>
      have hnext : c = '\r' → (cs ++ b).head? ≠ some '\n' := by
        rintro rfl
        exact absurd rfl hbreak
      rw [List.cons_append, Position.after_cons p hnext, if_neg hbreak]
      refine ih fun hlast => h ?_
      cases cs with
      | nil => simp at hlast
      | cons d cs => simpa using hlast

theorem Cursor.skip_skip (c : Cursor) (n m : Nat)
    (h : (c.rest.take n).getLast? = some '\r' → (c.rest.drop n).head? ≠ some '\n') :
    (c.skip n).skip m = c.skip (n + m) := by
  have hhead : (c.rest.take n).getLast? = some '\r' →
      ((c.rest.drop n).take m).head? ≠ some '\n' := by
    intro hlast hhead
    refine h hlast ?_
    cases hrest : c.rest.drop n with
    | nil => simp [hrest] at hhead
    | cons d r =>
        cases m with
        | zero => simp at hhead
        | succ m => simpa [hrest] using hhead
  simp only [skip, List.drop_drop, List.append_assoc, List.take_add,
    Position.after_append _ _ _ hhead]

def IsTriviaRow (row : Text) : Prop :=
  ∃ ws, (∀ c ∈ ws, Text.isIndent c = true) ∧ (row = ws ∨ ∃ w, IsComment w ∧ row = ws ++ w)

theorem isIndent_replicate (n : Nat) : ∀ c ∈ List.replicate n ' ', Text.isIndent c = true := by
  intro c hc
  rw [(List.mem_replicate.mp hc).2]
  rfl

theorem IsTriviaRow.isLineBreak {row : Text} (h : IsTriviaRow row) :
    ∀ c ∈ row, Text.isLineBreak c = false := by
  intro c hc
  obtain ⟨ws, hws, rfl | ⟨w, hw, rfl⟩⟩ := h
  · exact isLineBreak_of_isIndent (hws c hc)
  · rcases List.mem_append.mp hc with hc | hc
    · exact isLineBreak_of_isIndent (hws c hc)
    · exact hw.2 c hc

theorem dropWhile_blanks {ws : Text} (hws : ∀ c ∈ ws, Text.isIndent c = true) {x : Text}
    (hx : ∀ c, x.head? = some c → Text.isIndent c = false) :
    (ws ++ x).dropWhile Text.isIndent = x := by
  induction ws with
  | nil =>
      cases x with
      | nil => rfl
      | cons c x => simp [hx c rfl]
  | cons d ws ih =>
      rw [List.cons_append, List.dropWhile_cons_of_pos (hws d (by simp))]
      exact ih fun c hc => hws c (by simp [hc])

theorem IsTriviaRow.isTriviaLine {row lb : Text} (h : IsTriviaRow row) (hlb : IsBreak lb) :
    isTriviaLine (row ++ lb) = true := by
  unfold SchemaTidy.isTriviaLine
  obtain ⟨ws, hws, rfl | ⟨w, hw, rfl⟩⟩ := h
  · rw [dropWhile_blanks hws]
    · rcases hlb with rfl | rfl | rfl <;> rfl
    · rcases hlb with rfl | rfl | rfl <;> simp [Text.isIndent]
  · cases w with
    | nil => cases hw.1
    | cons c w =>
        obtain rfl : c = '#' := by simpa using hw.1
        rw [List.append_assoc, dropWhile_blanks hws]
        · rfl
        · simp [Text.isIndent]

theorem isTriviaRow_of_isTriviaLine {row rest : Text} (hrow : ∀ c ∈ row, Text.isLineBreak c = false)
    (h : isTriviaLine (row ++ rest) = true) : IsTriviaRow row := by
  have hsplit := List.takeWhile_append_dropWhile (p := Text.isIndent) (l := row)
  have hws : ∀ c ∈ row.takeWhile Text.isIndent, Text.isIndent c = true :=
    fun c hc => List.mem_takeWhile_imp hc
  cases htail : row.dropWhile Text.isIndent with
  | nil =>
      rw [htail, List.append_nil] at hsplit
      exact ⟨_, hws, .inl hsplit.symm⟩
  | cons c w =>
      have hdrop : (row ++ rest).dropWhile Text.isIndent = c :: (w ++ rest) := by
        rw [List.dropWhile_append, htail]
        rfl
      have hmem : ∀ d ∈ c :: w, d ∈ row := fun d hd => by
        rw [← hsplit, htail]
        exact List.mem_append_right _ hd
      have hc : c = '#' := by
        simpa [isTriviaLine, hdrop, hrow c (hmem c (by simp))] using h
      subst hc
      exact ⟨_, hws, .inr ⟨'#' :: w, ⟨rfl, fun d hd => hrow d (hmem d hd)⟩, by rw [← htail, hsplit]⟩⟩

theorem firstLineLength_row {row lb x : Text} (hrow : ∀ c ∈ row, Text.isLineBreak c = false)
    (hlb : IsBreak lb) (hx : lb = ['\r'] → x.head? ≠ some '\n') :
    firstLineLength (row ++ (lb ++ x)) = (row ++ lb).length := by
  have hlength : Text.lengthWhile (!Text.isLineBreak ·) (row ++ (lb ++ x)) = row.length := by
    refine Text.lengthWhile_append_eq.mpr ⟨?_, ?_⟩
    · intro c hc
      simp [hrow c hc]
    · rcases hlb with rfl | rfl | rfl <;> simp [Text.isLineBreak]
  simp only [firstLineLength, hlength, List.drop_left, lineBreakLength_of_isBreak hlb hx,
    List.length_append]

theorem triviaLinesLength_row {row lb x : Text} (hrow : IsTriviaRow row) (hlb : IsBreak lb)
    (hx : lb = ['\r'] → x.head? ≠ some '\n') :
    triviaLinesLength (row ++ (lb ++ x)) = (row ++ lb).length + triviaLinesLength x := by
  have hne : row ++ (lb ++ x) ≠ [] := by
    rcases hlb with rfl | rfl | rfl <;> simp
  rw [triviaLinesLength, dif_neg hne]
  simp only [firstLineLength_row hrow.isLineBreak hlb hx]
  rw [← List.append_assoc, List.take_left, List.drop_left, if_pos (hrow.isTriviaLine hlb)]

theorem lexes_row {row lb x : Text} {indents : List Nat} {brackets : List Char}
    {last : Option TokenKind} {us : List Shape} {rs : List Text} (hrow : IsTriviaRow row)
    (hlb : IsBreak lb) (hx : lb = ['\r'] → x.head? ≠ some '\n')
    (h : Lexes ⟨x, indents, brackets, true, last⟩ us rs) :
    Lexes ⟨row ++ (lb ++ x), indents, brackets, true, last⟩ us
      (Trivia.physicalComments row ++ rs) := by
  intro c hc hends
  simp only [Cursor.state, LexState.mk.injEq] at hc
  obtain ⟨hrest, hindents, hb, hstart, hlast⟩ := hc
  have hsplit : c.rest = (row ++ lb) ++ x := by rw [hrest, List.append_assoc]
  have htrivia : (c.skip (row ++ lb).length).trivia = c.trivia ++ row ++ lb := by
    show c.trivia ++ c.rest.take (row ++ lb).length = _
    rw [hsplit, List.take_left, List.append_assoc]
  obtain ⟨hclosed, hown⟩ := closed_append_break hlb (c.trivia ++ row)
  obtain ⟨ts, hts, hshape, hread⟩ := h (c.skip (row ++ lb).length) (by
      simp only [Cursor.state, Cursor.skip, hsplit, List.drop_left, hindents, hb, hstart, hlast]) (by
    rw [Cursor.EndsComment, htrivia]
    exact .inl hclosed)
  have hcomments : Trivia.physicalComments (c.trivia ++ row) =
      Trivia.physicalComments c.trivia ++ Trivia.physicalComments row := by
    cases row with
    | nil => simp
    | cons d row =>
        refine hends.resolve_right (fun hbreak => ?_) _
        have hd := hbreak d (by simp [hrest])
        simp [hrow.isLineBreak d (by simp)] at hd
  rw [htrivia, hown, hcomments, List.append_assoc] at hread
  refine ⟨ts, ?_, hshape, hread⟩
  rw [← hts, Cursor.tokens_eq, Cursor.tokens_eq]
  have henter : c.enterLine = (c.skip (row ++ lb).length).enterLine := by
    have hstart' : (c.skip (row ++ lb).length).lineStart = true := hstart
    have hskip : (c.skip (row ++ lb).length).skip (triviaLinesLength x) =
        c.skip (triviaLinesLength c.rest) := by
      rw [Cursor.skip_skip, hrest, triviaLinesLength_row hrow hlb hx]
      rw [hsplit, List.take_left, List.drop_left]
      intro hlast
      rcases hlb with rfl | rfl | rfl
      · simp at hlast
      · simp at hlast
      · exact hx rfl
    have hrest' : (c.skip (row ++ lb).length).rest = x := by
      rw [Cursor.rest_skip, hsplit, List.drop_left]
    unfold Cursor.enterLine
    rw [if_pos hstart, if_pos hstart', hrest', hskip]
  rw [henter]

/-! ## Comments with carriage returns -/

/-- Blank rows and comments with a carriage return before each. The last one is a comment. -/
inductive RowsBehind : Text → Prop where
  | nil : RowsBehind []
  | blank {ws t : Text} : (∀ c ∈ ws, Text.isIndent c = true) → t ≠ [] → RowsBehind t →
      RowsBehind ('\r' :: (ws ++ t))
  | comment {ws w t : Text} : (∀ c ∈ ws, Text.isIndent c = true) → IsComment w → RowsBehind t →
      RowsBehind ('\r' :: (ws ++ (w ++ t)))

/-- A comment that may go on with rows of trivia behind carriage returns. -/
def IsRemark (w : Text) : Prop := ∃ v t, IsComment v ∧ RowsBehind t ∧ w = v ++ t

theorem IsComment.isRemark {w : Text} (h : IsComment w) : IsRemark w :=
  ⟨w, [], h, .nil, by simp⟩

theorem IsComment.exists_cons {w : Text} (h : IsComment w) : ∃ v, w = '#' :: v := by
  obtain ⟨hhead, -⟩ := h
  cases w with
  | nil => cases hhead
  | cons c w => exact ⟨w, by simpa using hhead⟩

theorem IsRemark.exists_cons {w : Text} (h : IsRemark w) : ∃ v, w = '#' :: v := by
  obtain ⟨v, t, hv, -, rfl⟩ := h
  obtain ⟨v, rfl⟩ := hv.exists_cons
  exact ⟨v ++ t, rfl⟩

theorem IsComment.append {w ws v : Text} (hw : IsComment w)
    (hws : ∀ c ∈ ws, Text.isIndent c = true) (hv : IsComment v) : IsComment (w ++ (ws ++ v)) := by
  refine ⟨?_, fun c hc => ?_⟩
  · obtain ⟨w, rfl⟩ := hw.exists_cons
    rfl
  · rcases List.mem_append.mp hc with hc | hc
    · exact hw.2 c hc
    rcases List.mem_append.mp hc with hc | hc
    · exact isLineBreak_of_isIndent (hws c hc)
    · exact hv.2 c hc

namespace RowsBehind

variable {t x : Text}

theorem atBreak (ht : RowsBehind t) (hx : AtBreak x) : AtBreak (t ++ x) := by
  cases ht with
  | nil => exact hx
  | blank | comment => simp [AtBreak, Text.isLineBreak]

theorem head?_ne (ht : RowsBehind t) (hne : t ≠ []) : (t ++ x).head? ≠ some '\n' := by
  cases ht with
  | nil => exact absurd rfl hne
  | blank | comment => simp

theorem append {ws w : Text} (ht : RowsBehind t) (hne : t ≠ [])
    (hws : ∀ c ∈ ws, Text.isIndent c = true) (hw : IsRemark w) : RowsBehind (t ++ (ws ++ w)) := by
  induction ht with
  | nil => exact absurd rfl hne
  | @blank ws' t hws' hne' _ ih =>
      rw [List.cons_append, List.append_assoc]
      exact .blank hws' (by simp [hne']) (ih hne')
  | @comment ws' v t hws' hv ht ih =>
      rw [List.cons_append, List.append_assoc, List.append_assoc]
      by_cases hnil : t = []
      · obtain ⟨u, t', hu, ht', rfl⟩ := hw
        rw [hnil, List.nil_append, ← List.append_assoc ws, ← List.append_assoc v]
        exact .comment hws' (hv.append hws hu) ht'
      · exact .comment hws' hv (ih hnil)

end RowsBehind

theorem IsRemark.append {w ws v : Text} (hw : IsRemark w)
    (hws : ∀ c ∈ ws, Text.isIndent c = true) (hv : IsRemark v) : IsRemark (w ++ (ws ++ v)) := by
  obtain ⟨u, t, hu, ht, rfl⟩ := hw
  rw [List.append_assoc]
  by_cases hnil : t = []
  · obtain ⟨u', t', hu', ht', rfl⟩ := hv
    exact ⟨u ++ (ws ++ u'), t', hu.append hws hu', ht', by simp [hnil]⟩
  · exact ⟨u, _, hu, ht.append hnil hws hv, rfl⟩

theorem head?_blanks {ws x : Text} (hws : ∀ c ∈ ws, Text.isIndent c = true)
    (hx : x.head? ≠ some '\n') : (ws ++ x).head? ≠ some '\n' := by
  cases ws with
  | nil => exact hx
  | cons c ws =>
      rintro hnl
      obtain rfl : c = '\n' := by simpa using hnl
      cases hws '\n' (by simp)

theorem IsComment.head?_ne {w : Text} (hw : IsComment w) (x : Text) :
    (w ++ x).head? ≠ some '\n' := by
  obtain ⟨w, rfl⟩ := hw.exists_cons
  simp

theorem isBreak_return : IsBreak ['\r'] := .inr (.inr rfl)

theorem physicalComments_return (t : Text) :
    Trivia.physicalComments ('\r' :: t) = Trivia.physicalComments t :=
  Trivia.physicalComments_cons (by decide) t

theorem physicalComments_blanks {ws : Text} (hws : ∀ c ∈ ws, Text.isIndent c = true) (t : Text) :
    Trivia.physicalComments (ws ++ t) = Trivia.physicalComments t :=
  Trivia.physicalComments_append_of_forall
    (fun c hc => Trivia.isBlank_ne (Text.isBlank_of_isIndent (hws c hc))) t

/-- Rows behind a comment begin with a carriage return, which ends it. -/
theorem RowsBehind.physicalComments_append {t : Text} (ht : RowsBehind t) (w : Text) :
    Trivia.physicalComments (w ++ t) = Trivia.physicalComments w ++ Trivia.physicalComments t := by
  cases ht with
  | nil => simp
  | blank | comment =>
      rw [Trivia.physicalComments_append_break w (by decide), physicalComments_return]

theorem lexes_rowsBehind {t x : Text} {indents : List Nat} {brackets : List Char}
    {last : Option TokenKind} {us : List Shape} {rs : List Text} (ht : RowsBehind t) (hx : AtBreak x)
    (hbrackets : brackets ≠ []) (h : Lexes ⟨x, indents, brackets, false, last⟩ us rs) :
    Lexes ⟨t ++ x, indents, brackets, false, last⟩ us (Trivia.physicalComments t ++ rs) := by
  induction ht with
  | nil => exact h
  | @blank ws t hws hne ht ih =>
      have hhead : (ws ++ (t ++ x)).head? ≠ some '\n' := head?_blanks hws (ht.head?_ne hne)
      have hline := lexes_break isBreak_return (fun _ => hhead) hbrackets (lexes_blanks hws ih)
      rw [physicalComments_return, physicalComments_blanks hws]
      simpa using hline
  | @comment ws w t hws hw ht ih =>
      have hhead : (ws ++ (w ++ (t ++ x))).head? ≠ some '\n' := head?_blanks hws (hw.head?_ne _)
      have hline := lexes_break isBreak_return (fun _ => hhead) hbrackets
        (lexes_blanks hws (lexes_comment hw (ht.atBreak hx) ih))
      rw [physicalComments_return, physicalComments_blanks hws, ht.physicalComments_append]
      simpa using hline

/-- A comment that may end a line inside of the given brackets. -/
def IsRemarkIn (brackets : List Char) (w : Text) : Prop :=
  IsRemark w ∧ (brackets = [] → IsComment w)

theorem IsRemark.within {brackets : List Char} {w : Text} (h : IsRemark w)
    (hbrackets : brackets ≠ []) : IsRemarkIn brackets w :=
  ⟨h, fun hnil => absurd hnil hbrackets⟩

theorem lexes_remark {w x : Text} {indents : List Nat} {brackets : List Char}
    {last : Option TokenKind} {us : List Shape} {rs : List Text} (hw : IsRemarkIn brackets w)
    (hx : AtBreak x) (h : Lexes ⟨x, indents, brackets, false, last⟩ us rs) :
    Lexes ⟨w ++ x, indents, brackets, false, last⟩ us (Trivia.physicalComments w ++ rs) := by
  obtain ⟨hremark, hcomment⟩ := hw
  by_cases hbrackets : brackets = []
  · exact lexes_comment (hcomment hbrackets) hx h
  · obtain ⟨v, t, hv, ht, rfl⟩ := hremark
    rw [ht.physicalComments_append, List.append_assoc, List.append_assoc]
    exact lexes_comment hv (ht.atBreak hx) (lexes_rowsBehind ht hx hbrackets h)

theorem lexes_rows {row t lb x : Text} {indents : List Nat} {brackets : List Char}
    {last : Option TokenKind} {us : List Shape} {rs : List Text} (hrow : IsTriviaRow row)
    (ht : RowsBehind t) (hlb : IsBreak lb) (hx : lb = ['\r'] → x.head? ≠ some '\n')
    (h : Lexes ⟨x, indents, brackets, true, last⟩ us rs) :
    Lexes ⟨row ++ (t ++ (lb ++ x)), indents, brackets, true, last⟩ us
      (Trivia.physicalComments (row ++ t) ++ rs) := by
  rw [ht.physicalComments_append, List.append_assoc]
  induction ht generalizing row with
  | nil =>
      rw [List.nil_append]
      exact lexes_row hrow hlb hx h
  | @blank ws t hws hne ht ih =>
      have hhead : (ws ++ (t ++ (lb ++ x))).head? ≠ some '\n' :=
        head?_blanks hws (ht.head?_ne hne)
      have hline := lexes_row hrow isBreak_return (fun _ => hhead) (ih ⟨ws, hws, .inl rfl⟩)
      rw [physicalComments_return, ht.physicalComments_append, List.append_assoc]
      simpa using hline
  | @comment ws w t hws hw ht ih =>
      have hhead : ((ws ++ w) ++ (t ++ (lb ++ x))).head? ≠ some '\n' := by
        rw [List.append_assoc]
        exact head?_blanks hws (hw.head?_ne _)
      have hline := lexes_row hrow isBreak_return (fun _ => hhead)
        (ih ⟨ws, hws, .inr ⟨w, hw, rfl⟩⟩)
      rw [physicalComments_return, ← List.append_assoc ws, ht.physicalComments_append,
        List.append_assoc]
      simpa using hline

/-- The markers of a line that is indented by `width` under the given open blocks, and the open
blocks from then on. -/
def markersTo (width : Nat) (indents : List Nat) : Option (List Shape × List Nat) :=
  if indents.headD 0 < width then some ([(.indent, [])], width :: indents)
  else if width < indents.headD 0 then
    if (indents.dropWhile (width < ·)).headD 0 == width then
      some ((indents.takeWhile (width < ·)).map fun _ => (.dedent, []),
        indents.dropWhile (width < ·))
    else none
  else some ([], indents)

theorem indentTo_of_markersTo {c : Cursor} {width : Nat} {ms : List Shape} {indents : List Nat}
    (h : markersTo width c.indents = some (ms, indents)) :
    ∃ ts last, c.indentTo width = .ok (ts, { c with indents, last }) ∧ ts.map Token.shape = ms ∧
      commentsOf ts = [] := by
  unfold markersTo at h
  unfold Cursor.indentTo
  simp only
  split at h
  · rename_i hlt
    cases h
    exact ⟨_, _, by rw [if_pos hlt], rfl, rfl⟩
  split at h
  · rename_i hnlt hlt
    split at h
    · rename_i hwidth
      cases h
      refine ⟨_, _, by rw [if_neg hnlt, if_pos hlt, if_pos hwidth], ?_, ?_⟩
      · rw [List.map_map]
        rfl
      · simp only [commentsOf, List.flatMap_eq_nil_iff, List.mem_map]
        rintro t ⟨_, _, rfl⟩
        rfl
    · cases h
  · rename_i hnlt hngt
    cases h
    exact ⟨[], c.last, by rw [if_neg hnlt, if_neg hngt], rfl, rfl⟩

theorem takeWhile_blanks {ws : Text} (hws : ∀ c ∈ ws, Text.isIndent c = true) {ch : Char} (x : Text)
    (hch : Text.isIndent ch = false) : (ws ++ ch :: x).takeWhile Text.isIndent = ws := by
  rw [List.takeWhile_append_of_pos hws, List.takeWhile_cons_of_neg (by simp [hch]), List.append_nil]

theorem indentWidth_blanks {ws : Text} (hws : ∀ c ∈ ws, Text.isIndent c = true) {ch : Char} (x : Text)
    (hch : Text.isIndent ch = false) : Text.indentWidth (ws ++ ch :: x) = Text.indentWidth ws := by
  unfold Text.indentWidth
  rw [takeWhile_blanks hws x hch, List.takeWhile_eq_self_iff.mpr hws]

theorem indentWidth_replicate (n : Nat) : Text.indentWidth (List.replicate n ' ') = n := by
  unfold Text.indentWidth
  rw [List.takeWhile_eq_self_iff.mpr (isIndent_replicate n)]
  have hcount : ∀ k m : Nat, (List.replicate k ' ').foldl (fun width c =>
      if c == ' ' then width + 1 else if c == '\t' then (width / 8 + 1) * 8 else 0) m = m + k := by
    intro k
    induction k with
    | zero => exact fun m => rfl
    | succ k ih =>
        intro m
        rw [List.replicate_succ, List.foldl_cons, ih]
        simp only [beq_self_eq_true, if_true]
        omega
  rw [hcount]
  omega

theorem triviaLinesLength_word {ws : Text} (hws : ∀ c ∈ ws, Text.isIndent c = true) {ch : Char}
    (x : Text) (hch : Text.isIndent ch = false ∧ ch ≠ '#' ∧ Text.isLineBreak ch = false) :
    triviaLinesLength (ws ++ ch :: x) = 0 := by
  obtain ⟨hindent, hcomment, hbreak⟩ := hch
  have hlong : ws.length + 1 ≤ firstLineLength (ws ++ ch :: x) := by
    have hwhile : ws.length + 1 ≤ Text.lengthWhile (!Text.isLineBreak ·) (ws ++ ch :: x) := by
      unfold Text.lengthWhile
      rw [List.takeWhile_append_of_pos, List.takeWhile_cons_of_pos (by simp [hbreak])]
      · simp
      · intro c hc
        simp [isLineBreak_of_isIndent (hws c hc)]
    simp only [firstLineLength]
    omega
  rw [triviaLinesLength, dif_neg (by simp)]
  simp only
  obtain ⟨k, hk⟩ := Nat.exists_eq_add_of_le hlong
  have htake : (ws ++ ch :: x).take (ws.length + 1 + k) = ws ++ ch :: x.take k := by
    rw [List.take_append, List.take_of_length_le (by omega),
      show ws.length + 1 + k - ws.length = k + 1 by omega, List.take_succ_cons]
  have hline : isTriviaLine (ws ++ ch :: x.take k) = false := by
    unfold isTriviaLine
    rw [dropWhile_blanks hws (by simp [hindent])]
    simp [hcomment, hbreak]
  rw [hk, htake, hline]
  rfl

theorem lexes_lineStart {ws : Text} {ch : Char} {x : Text} {indents indents' : List Nat}
    {brackets : List Char} {last : Option TokenKind} {ms us : List Shape} {rs : List Text}
    (hws : ∀ c ∈ ws, Text.isIndent c = true)
    (hch : Text.isIndent ch = false ∧ ch ≠ '#' ∧ Text.isLineBreak ch = false)
    (hms : markersTo (Text.indentWidth ws) indents = some (ms, indents'))
    (h : ∀ last, Lexes ⟨ch :: x, indents', brackets, false, last⟩ us rs) :
    Lexes ⟨ws ++ ch :: x, indents, brackets, true, last⟩ (ms ++ us) rs := by
  intro c hc hends
  simp only [Cursor.state, LexState.mk.injEq] at hc
  obtain ⟨hrest, rfl, hb, hstart, hlast⟩ := hc
  have hskip : c.skip 0 = c := by
    simp [Cursor.skip, Position.after]
  have hlength : Text.lengthWhile Text.isIndent c.rest = ws.length := by
    rw [hrest, Text.lengthWhile, takeWhile_blanks hws x hch.1]
  let entered : Cursor := { c.skip ws.length with lineStart := false }
  have hentered : entered.rest = ch :: x := by
    show (c.rest.drop ws.length) = ch :: x
    rw [hrest, List.drop_left]
  obtain ⟨markers, last', hindent, hmarkers, hnone⟩ := indentTo_of_markersTo (c := entered) hms
  obtain ⟨next, hnext⟩ : ∃ next : Cursor, next = { entered with indents := indents', last := last' } :=
    ⟨_, rfl⟩
  have henter : c.enterLine = .ok (markers, next) := by
    unfold Cursor.enterLine
    rw [if_pos hstart]
    simp only [hrest, triviaLinesLength_word hws x hch, hskip, indentWidth_blanks hws x hch.1]
    rw [← hrest, hlength, if_neg, hnext]
    · exact hindent
    · show ¬ (entered.rest.isEmpty = true)
      rw [hentered]
      simp
  have hrest' : next.rest = ch :: x := by rw [hnext, hentered]
  obtain ⟨hclosed, hown⟩ : Trivia.Closed next.trivia ∧
      Trivia.physicalComments next.trivia = Trivia.physicalComments c.trivia := by
    have htrivia : next.trivia = c.trivia ++ ws := by
      simp [hnext, entered, Cursor.skip, hrest]
    have hclosed : Trivia.Closed c.trivia := hends.resolve_right fun hbreak => by
      have hhead := hbreak ((ws ++ ch :: x).head (by simp)) (by rw [hrest, List.head?_eq_some_head])
      cases ws with
      | nil => simp [hch.2.2] at hhead
      | cons d ws => simp [isLineBreak_of_isIndent (hws d (by simp))] at hhead
    rw [htrivia]
    exact closed_blanks hclosed hws
  obtain ⟨ts, hts, hshape, hread⟩ := h last' next (by
      rw [hnext]
      show LexState.mk entered.rest indents' (c.brackets.map Prod.fst) false last' = _
      rw [hentered, hb]) (.inl hclosed)
  rw [hown] at hread
  refine ⟨markers ++ ts, ?_, by rw [List.map_append, hmarkers, hshape], by simpa [hnone] using hread⟩
  rw [Cursor.tokens_of_not_lineStart (by rw [hnext]) hrest'] at hts
  rw [Cursor.tokens_eq, henter]
  cases hadvance : next.advance ch x with
  | error e =>
      rw [hadvance] at hts
      cases hts
  | ok step =>
      obtain ⟨t, c'⟩ := step
      rw [hadvance] at hts
      obtain ⟨ts', hts', rfl⟩ := exists_of_map_eq_ok hts
      simp only [hrest', hadvance, hts', Except.map, List.append_assoc]

theorem lexes_indentation {width : Nat} {ch : Char} {x : Text} {indents indents' : List Nat}
    {brackets : List Char} {last : Option TokenKind} {ms us : List Shape} {rs : List Text}
    (hch : Text.isIndent ch = false ∧ ch ≠ '#' ∧ Text.isLineBreak ch = false)
    (hms : markersTo width indents = some (ms, indents'))
    (h : ∀ last, Lexes ⟨ch :: x, indents', brackets, false, last⟩ us rs) :
    Lexes ⟨List.replicate width ' ' ++ ch :: x, indents, brackets, true, last⟩ (ms ++ us) rs :=
  lexes_lineStart (isIndent_replicate width) hch (by rwa [indentWidth_replicate]) h

theorem lexes_end {indents : List Nat} {last : Option TokenKind}
    (hlast : last = none ∨ last = some .newline) :
    Lexes ⟨[], indents, [], true, last⟩
      (indents.map (fun _ => (.dedent, [])) ++ [(.endMarker, [])]) [] := by
  intro c hc _
  simp only [Cursor.state, LexState.mk.injEq, List.map_eq_nil_iff] at hc
  obtain ⟨hrest, rfl, hb, hstart, rfl⟩ := hc
  have htrivia : triviaLinesLength [] = 0 := by
    rw [triviaLinesLength, dif_pos rfl]
  have hskip : c.skip 0 = c := by
    simp [Cursor.skip, Position.after]
  have henter : c.enterLine = .ok ([], c) := by
    unfold Cursor.enterLine
    rw [if_pos hstart]
    simp only [hrest, htrivia, hskip, Text.lengthWhile, List.takeWhile_nil, List.length_nil,
      List.isEmpty_nil, if_true]
  have hfinish : c.finish = .ok (c.indents.map (fun _ => Cursor.marker .dedent c.here) ++
      [(c.take .endMarker 0).1]) := by
    unfold Cursor.finish
    rw [hb]
    rcases hlast with hlast | hlast
    · simp [hlast]
    · simp [hlast]
  refine ⟨_, by rw [Cursor.tokens_eq, henter]; simp only [hrest, hfinish]; rfl, ?_, ?_⟩
  · simp only [List.nil_append, List.map_append, List.map_map]
    rfl
  · simp [commentsOf, Cursor.marker, Cursor.take]

end SchemaTidy
