import SchemaTidy.Proofs.Token.Structure

/-!
# The last line of a source

A source whose last line has no terminator, and the same source with a line feed behind it. The lexer
reads both alike up to the last line. There either the line feed is the text of the token that ends the
line, or it belongs to the trivia before the end marker.
-/

namespace SchemaTidy

/-- Whether the last line of a text has no terminator. -/
def Unterminated (t : Text) : Prop := ∀ c, t.getLast? = some c → Text.isLineBreak c = false

theorem Unterminated.of_append {a b : Text} (h : Unterminated (a ++ b)) : Unterminated b := by
  intro c hc
  refine h c ?_
  rw [List.getLast?_append, hc]
  rfl

theorem Unterminated.drop {t : Text} (h : Unterminated t) (n : Nat) : Unterminated (t.drop n) := by
  rw [← List.take_append_drop n t] at h
  exact h.of_append

theorem Unterminated.tail {c : Char} {cs : Text} (h : Unterminated (c :: cs)) : Unterminated cs :=
  h.drop 1

theorem Unterminated.ne_nil {c : Char} {cs : Text} (h : Unterminated (c :: cs))
    (hc : Text.isLineBreak c = true) : cs ≠ [] := by
  rintro rfl
  have := h c rfl
  simp [hc] at this

namespace Text

theorem takeWhile_concat {p : Char → Bool} {c : Char} (hc : p c = false) (t : Text) :
    (t ++ [c]).takeWhile p = t.takeWhile p := by
  induction t with
  | nil => simp [hc]
  | cons d t ih =>
      by_cases hd : p d = true
      · simp [hd, ih]
      · simp [hd]

theorem lengthWhile_concat {p : Char → Bool} {c : Char} (hc : p c = false) (t : Text) :
    lengthWhile p (t ++ [c]) = lengthWhile p t := by
  rw [lengthWhile, takeWhile_concat hc, lengthWhile]

theorem indentWidth_lineFeed (t : Text) : indentWidth (t ++ ['\n']) = indentWidth t := by
  rw [indentWidth, takeWhile_concat (by decide), indentWidth]

theorem lineBreakLength_concat {t : Text} (ht : Unterminated t) (hne : t ≠ []) :
    lineBreakLength (t ++ ['\n']) = lineBreakLength t := by
  match t with
  | [] => exact absurd rfl hne
  | [c] =>
      have hc := ht c rfl
      have hr : c ≠ '\r' := by
        rintro rfl
        cases hc
      simp [lineBreakLength, hc, hr]
  | c :: d :: t =>
      rw [← List.append_nil (c :: d :: t), List.append_assoc]
      exact lineBreakLength_append _ _ (by simp)

theorem lineBreakLength_lt {t : Text} (ht : Unterminated t) (hne : t ≠ []) :
    lineBreakLength t < t.length := by
  match t with
  | [] => exact absurd rfl hne
  | [c] => simp [lineBreakLength, ht c rfl]
  | [c, d] =>
      have hd : d ≠ '\n' := by
        rintro rfl
        cases ht '\n' rfl
      rw [lineBreakLength_cons_cons, if_neg fun h => hd h.2]
      split <;> simp
  | c :: d :: e :: t =>
      rw [lineBreakLength_cons_cons]
      split
      · simp
      · split <;> simp

end Text

/-! ## One piece -/

namespace Lexeme

theorem ends_lineFeed (kind : TokenKind) : Ends kind ['\n'] := by
  intro c hc
  obtain rfl : '\n' = c := by simpa using hc
  cases kind <;> unfold Harmless <;> decide

theorem scan_concat {inBrackets : Bool} {here : Position} {c : Char} {cs : Text} {piece : Piece}
    {n : Nat} (h : scan inBrackets here c cs = .ok (piece, n)) (hcs : Unterminated (c :: cs)) :
    scan inBrackets here c (cs ++ ['\n']) = .ok (piece, n) ∧ n ≤ cs.length := by
  by_cases hpiece : ∃ kind, piece = .token kind ∧ kind ≠ .newline
  · obtain ⟨kind, rfl, hkind⟩ := hpiece
    have hle := scan_le h
    have hcuts : Cuts kind (c :: cs.take n) (cs.drop n ++ []) := by
      rw [List.append_nil]
      exact cuts_of_scan h hkind
    obtain ⟨-, d, ds, hd, hscan⟩ := hcuts.exchange fun _ => ends_lineFeed kind
    obtain ⟨rfl, rfl⟩ := List.cons.inj hd
    have hsame := hscan inBrackets here
    rw [← List.append_assoc, List.take_append_drop, List.length_take, Nat.min_eq_left hle] at hsame
    exact ⟨hsame, hle⟩
  have hword {kind : TokenKind} {m : Nat} (hpair : (Piece.token kind, m) = (piece, n))
      (hkind : kind ≠ .newline) : False :=
    hpiece ⟨kind, (congrArg Prod.fst hpair).symm, hkind⟩
  unfold scan at h ⊢
  split at h
  · rename_i hindent
    cases h
    simp [hindent]
  rename_i hindent
  rw [if_neg hindent]
  split at h
  · rename_i hslash
    rw [if_pos hslash]
    split at h
    · cases h
    · rename_i d ds
      split at h
      · rename_i hbreak
        cases h
        have hlength := Text.lineBreakLength_concat hcs.tail (by simp)
        rw [List.cons_append] at hlength ⊢
        simp only [hbreak, if_true, hlength, true_and]
        exact Text.lineBreakLength_le _
      · cases h
  rename_i hslash
  rw [if_neg hslash]
  split at h
  · rename_i hcomment
    cases h
    rw [if_pos hcomment, Text.lengthWhile_concat (by decide)]
    exact ⟨rfl, (List.takeWhile_prefix _).length_le⟩
  rename_i hcomment
  rw [if_neg hcomment]
  split at h
  · rename_i hbreak
    rw [if_pos hbreak, ← List.cons_append, Text.lineBreakLength_concat hcs (by simp)]
    have hle := Text.lineBreakLength_le (c :: cs)
    simp only [Except.ok.injEq, Prod.mk.injEq, List.length_cons] at h hle
    refine ⟨by rw [h.1, h.2], by omega⟩
  split at h
  · simp only at h
    split at h
    · split at h
      · obtain ⟨m, -, hpair⟩ := exists_of_map_eq_ok h
        exact (hword hpair (by simp)).elim
      · exact (hword (Except.ok.inj h) (by simp)).elim
    · exact (hword (Except.ok.inj h) (by simp)).elim
  split at h
  · obtain ⟨m, -, hpair⟩ := exists_of_map_eq_ok h
    exact (hword hpair (by simp)).elim
  split at h
  · exact (hword (Except.ok.inj h) (by simp)).elim
  · split at h
    · exact (hword (Except.ok.inj h) (by simp)).elim
    · cases h

end Lexeme

/-! ## Blank and comment lines -/

theorem isTriviaLine_lineFeed (line : Text) : isTriviaLine (line ++ ['\n']) = isTriviaLine line := by
  induction line with
  | nil => rfl
  | cons c cs ih =>
      unfold isTriviaLine at ih ⊢
      by_cases hc : Text.isIndent c = true
      · simpa [hc] using ih
      · simp [hc]

theorem firstLineLength_le (t : Text) : firstLineLength t ≤ t.length := by
  have hrow : Text.lengthWhile (!Text.isLineBreak ·) t ≤ t.length :=
    (List.takeWhile_prefix _).length_le
  have hbreak := Text.lineBreakLength_le (t.drop (Text.lengthWhile (!Text.isLineBreak ·) t))
  rw [List.length_drop] at hbreak
  simp only [firstLineLength]
  omega

theorem firstLineLength_concat {t : Text} (ht : Unterminated t) :
    (firstLineLength t < t.length ∧ firstLineLength (t ++ ['\n']) = firstLineLength t) ∨
      (firstLineLength t = t.length ∧ firstLineLength (t ++ ['\n']) = t.length + 1) := by
  obtain hall | ⟨n, hn, hlt⟩ : (Text.lengthWhile (!Text.isLineBreak ·) t = t.length) ∨
      ∃ n, Text.lengthWhile (!Text.isLineBreak ·) t = n ∧ n < t.length := by
    have hle : Text.lengthWhile (!Text.isLineBreak ·) t ≤ t.length :=
      (List.takeWhile_prefix _).length_le
    rcases Nat.lt_or_eq_of_le hle with h | h
    · exact .inr ⟨_, rfl, h⟩
    · exact .inl h
  · refine .inr ?_
    simp only [firstLineLength]
    rw [Text.lengthWhile_concat (by decide), hall]
    simp [Text.lineBreakLength, Text.isLineBreak]
  · refine .inl ?_
    simp only [firstLineLength]
    rw [Text.lengthWhile_concat (by decide), hn, List.drop_append_of_le_length hlt.le,
      Text.lineBreakLength_concat (ht.drop n) (by simpa using hlt)]
    have hbreak := Text.lineBreakLength_lt (ht.drop n) (by simpa using hlt)
    rw [List.length_drop] at hbreak
    exact ⟨by omega, rfl⟩

/-- Blank and comment lines end where they did, unless they go to the end. -/
theorem triviaLinesLength_concat {t : Text} (ht : Unterminated t) :
    (triviaLinesLength t < t.length ∧ triviaLinesLength (t ++ ['\n']) = triviaLinesLength t) ∨
      (triviaLinesLength t = t.length ∧ triviaLinesLength (t ++ ['\n']) = t.length + 1) := by
  induction hlength : t.length using Nat.strongRecOn generalizing t with
  | ind length ih =>
      subst hlength
      by_cases hne : t = []
      · subst hne
        exact .inr ⟨by simp [triviaLinesLength], by cbv⟩
      rw [triviaLinesLength, dif_neg hne, triviaLinesLength, dif_neg (by simp)]
      rcases firstLineLength_concat ht with ⟨hlt, hfirst⟩ | ⟨hall, hfirst⟩
      · simp only [hfirst, List.take_append_of_le_length hlt.le, List.drop_append_of_le_length hlt.le]
        split
        · have hpos := firstLineLength_pos hne
          have hrest := ih _ (by rw [List.length_drop]; omega) (ht.drop (firstLineLength t)) rfl
          rw [List.length_drop] at hrest
          omega
        · exact .inl ⟨List.length_pos_iff.mpr hne, rfl⟩
      · have hend : (t ++ ['\n']).length = t.length + 1 := by simp
        simp only [hfirst, hall, List.take_length, ← hend, List.drop_length, isTriviaLine_lineFeed]
        split
        · simp [triviaLinesLength]
        · exact .inl ⟨List.length_pos_iff.mpr hne, rfl⟩

theorem triviaLinesLength_of_blank {t : Text}
    (h : (t.drop (triviaLinesLength t)).dropWhile Text.isIndent = []) :
    triviaLinesLength t = t.length := by
  induction hlength : t.length using Nat.strongRecOn generalizing t with
  | ind length ih =>
      subst hlength
      by_cases hne : t = []
      · simp [hne, triviaLinesLength]
      rw [triviaLinesLength, dif_neg hne] at h ⊢
      have hle := firstLineLength_le t
      have hpos := firstLineLength_pos hne
      simp only at h ⊢
      split at h
      · rename_i hline
        rw [if_pos hline]
        rw [← List.drop_drop] at h
        have hrest := ih _ (by rw [List.length_drop]; omega) h rfl
        rw [List.length_drop] at hrest
        omega
      · rename_i hline
        have hblank : (t.take (firstLineLength t)).dropWhile Text.isIndent = [] := by
          rw [List.drop_zero, List.dropWhile_eq_nil_iff] at h
          exact List.dropWhile_eq_nil_iff.mpr fun c hc => h c (List.mem_of_mem_take hc)
        simp [isTriviaLine, hblank] at hline

/-! ## Moves of the cursor -/

/-- The columns of the open blocks behind a token. -/
def columnsAfter (columns : List Nat) (t : Token) : List Nat :=
  if t.kind == .dedent then columns.tail
  else if t.kind == .indent then (t.position.column - 1) :: columns
  else columns

/-- The kind of the last of some tokens, or the kind before them when there are none. -/
def kindBehind (before : Option TokenKind) (ts : List Token) : Option TokenKind :=
  (ts.getLast?.map Token.kind).or before

@[simp] theorem kindBehind_nil (before : Option TokenKind) : kindBehind before [] = before := rfl

theorem kindBehind_append (before : Option TokenKind) (ts us : List Token) :
    kindBehind before (ts ++ us) = kindBehind (kindBehind before ts) us := by
  unfold kindBehind
  rw [List.getLast?_append]
  cases us.getLast? <;> simp

namespace Cursor

/-- The cursor over the same source with a line feed behind it. -/
def extended (c : Cursor) : Cursor := { c with rest := c.rest ++ ['\n'] }

@[simp] theorem rest_extended (c : Cursor) : c.extended.rest = c.rest ++ ['\n'] := rfl

@[simp] theorem here_extended (c : Cursor) : c.extended.here = c.here := rfl

@[simp] theorem brackets_extended (c : Cursor) : c.extended.brackets = c.brackets := rfl

theorem skip_extended {c : Cursor} {n : Nat} (h : n ≤ c.rest.length) :
    c.extended.skip n = (c.skip n).extended := by
  simp [skip, extended, List.drop_append_of_le_length h, List.take_append_of_le_length h]

theorem indentTo_extended (c : Cursor) (width : Nat) :
    c.extended.indentTo width = (c.indentTo width).map fun p => (p.1, p.2.extended) := by
  obtain ⟨rest, here, trivia, indents, brackets, lineStart, last⟩ := c
  show indentTo ⟨rest ++ ['\n'], here, trivia, indents, brackets, lineStart, last⟩ width = _
  simp only [indentTo]
  split
  · rfl
  split
  · split <;> rfl
  · rfl

def beforeLine (c : Cursor) : Cursor := c.skip (triviaLinesLength c.rest)

/-- The cursor behind blank and comment lines and the indentation. -/
def atLine (c : Cursor) : Cursor :=
  c.beforeLine.skip (Text.lengthWhile Text.isIndent c.beforeLine.rest)

def inLine (c : Cursor) : Cursor := { c with lineStart := false }

theorem enterLine_of_end {c : Cursor} (hstart : c.lineStart = true) (hrest : c.atLine.rest = []) :
    c.enterLine = .ok ([], c.atLine) := by
  unfold enterLine
  rw [if_pos hstart]
  exact if_pos (List.isEmpty_iff.mpr hrest)

theorem enterLine_of_line {c : Cursor} (hstart : c.lineStart = true) (hrest : c.atLine.rest ≠ []) :
    c.enterLine = c.atLine.inLine.indentTo (Text.indentWidth c.beforeLine.rest) := by
  unfold enterLine
  rw [if_pos hstart]
  exact if_neg (mt List.isEmpty_iff.mp hrest)

theorem enterLine_of_not_lineStart {c : Cursor} (hstart : c.lineStart = false) :
    c.enterLine = .ok ([], c) := by
  unfold enterLine
  rw [hstart]
  rfl

theorem atLine_of_nil {c : Cursor} (h : c.beforeLine.rest = []) : c.atLine = c.beforeLine := by
  rw [atLine, h]
  show c.beforeLine.skip 0 = c.beforeLine
  simp [skip, Position.after]

/-- Entering a line passes over the same text and marks the same blocks, unless the source ends with
blank and comment lines. -/
theorem enterLine_extended {c c' : Cursor} {ts : List Token} (hc : Unterminated c.rest)
    (h : c.enterLine = .ok (ts, c')) :
    (c.extended.enterLine = .ok (ts, c'.extended) ∧ (c.lineStart = true → c'.rest ≠ [])) ∨
      (c.lineStart = true ∧ ts = [] ∧
        (∃ here, c' = { c with rest := [], trivia := c.pending, here }) ∧
        ∃ here, c.extended.enterLine =
          .ok ([], { c with rest := [], trivia := c.pending ++ ['\n'], here })) := by
  cases hstart : c.lineStart with
  | false =>
      rw [enterLine_of_not_lineStart hstart] at h
      cases h
      exact .inl ⟨enterLine_of_not_lineStart hstart, fun hs => by cases hs⟩
  | true =>
      rcases triviaLinesLength_concat hc with ⟨hlt, hlines⟩ | ⟨hall, hlines⟩
      · have hindent : Text.lengthWhile Text.isIndent c.beforeLine.rest < c.beforeLine.rest.length := by
          refine lt_of_le_of_ne (List.takeWhile_prefix _).length_le fun hlength => ?_
          have hall := (List.takeWhile_prefix Text.isIndent).eq_of_length hlength
          have hblank := List.dropWhile_eq_nil_iff.mpr (List.takeWhile_eq_self_iff.mp hall)
          have := triviaLinesLength_of_blank hblank
          omega
        have hrest : c.atLine.rest ≠ [] := by
          rw [atLine, rest_skip, Ne, List.drop_eq_nil_iff]
          omega
        have hbefore : c.extended.beforeLine = c.beforeLine.extended := by
          rw [beforeLine, rest_extended, hlines, skip_extended hlt.le, beforeLine]
        have hat : c.extended.atLine = c.atLine.extended := by
          rw [atLine, hbefore, rest_extended, Text.lengthWhile_concat (by decide),
            skip_extended hindent.le, atLine]
        rw [enterLine_of_line hstart hrest] at h
        refine .inl ⟨?_, fun _ => ?_⟩
        · have hrest' : c.extended.atLine.rest ≠ [] := by simp [hat]
          rw [enterLine_of_line (c := c.extended) hstart hrest', hat, hbefore, rest_extended,
            Text.indentWidth_lineFeed]
          show c.atLine.inLine.extended.indentTo _ = _
          rw [indentTo_extended, h]
          rfl
        · rw [rest_indentTo h]
          exact hrest
      · have hbefore : c.beforeLine.rest = [] := by
          rw [beforeLine, rest_skip, hall, List.drop_length]
        have hbefore' : c.extended.beforeLine.rest = [] := by
          simp [beforeLine, hlines]
        rw [enterLine_of_end hstart (by rw [atLine_of_nil hbefore, hbefore]), atLine_of_nil hbefore] at h
        obtain ⟨rfl, rfl⟩ := Prod.mk.inj (Except.ok.inj h)
        refine .inr ⟨rfl, rfl, ⟨c.beforeLine.here, ?_⟩, c.extended.beforeLine.here, ?_⟩
        · simp [beforeLine, skip, hall, pending, hstart]
        · rw [enterLine_of_end (c := c.extended) hstart (by rw [atLine_of_nil hbefore', hbefore']),
            atLine_of_nil hbefore']
          have hall' : (c.rest ++ ['\n']).take (c.rest.length + 1) = c.rest ++ ['\n'] :=
            List.take_of_length_le (by simp)
          simp [beforeLine, skip, hlines, hall', pending, extended, hstart]

theorem take_extended {c : Cursor} {n : Nat} (h : n ≤ c.rest.length) (kind : TokenKind) :
    c.extended.take kind n = ((c.take kind n).1, (c.take kind n).2.extended) := by
  simp [take, extended, List.drop_append_of_le_length h, List.take_append_of_le_length h]

theorem advance_extended {c c' : Cursor} {ch : Char} {cs : Text} {t : Option Token}
    (hrest : c.rest = ch :: cs) (hc : Unterminated c.rest) (h : c.advance ch cs = .ok (t, c')) :
    c.extended.advance ch (cs ++ ['\n']) = .ok (t, c'.extended) := by
  rw [hrest] at hc
  unfold advance at h ⊢
  simp only [here_extended, brackets_extended]
  split at h
  · cases h
  · rename_i n hscan
    obtain ⟨hsame, hle⟩ := Lexeme.scan_concat hscan hc
    cases h
    rw [hsame, ← skip_extended (by rw [hrest, List.length_cons]; omega)]
  · rename_i kind n hscan
    obtain ⟨hsame, hle⟩ := Lexeme.scan_concat hscan hc
    rw [hsame]
    split at h
    · cases h
    · rename_i brackets haccount
      cases h
      simp only [haccount, take_extended (c := c) (n := n + 1) (by rw [hrest, List.length_cons]; omega)]
      rfl

/-! ## What a move does to blocks -/

/-- What the tokens of a move say about its blocks and its last token. -/
structure Follows (c : Cursor) (ts : List Token) (c' : Cursor) : Prop where
  indents : c'.indents = ts.foldl columnsAfter c.indents
  sorted : c.indents.Pairwise (· > ·) → c'.indents.Pairwise (· > ·)
  last : c'.last = kindBehind c.last ts

theorem foldl_columnsAfter_dedents (p : Position) (closed : List Nat) (indents : List Nat) :
    (closed.map fun _ => marker .dedent p).foldl columnsAfter (closed ++ indents) = indents := by
  induction closed with
  | nil => rfl
  | cons n closed ih => exact ih

theorem follows_indentTo {c c' : Cursor} {width : Nat} {ts : List Token}
    (h : c.indentTo width = .ok (ts, c')) : c.Follows ts c' := by
  simp only [indentTo] at h
  split at h
  · rename_i hopens
    cases h
    refine ⟨rfl, fun hsorted => ?_, rfl⟩
    refine List.pairwise_cons.mpr ⟨fun n hn => ?_, hsorted⟩
    cases hindents : c.indents with
    | nil => simp [hindents] at hn
    | cons m ms =>
        rw [hindents] at hn hopens hsorted
        rcases List.mem_cons.mp hn with rfl | hn
        · exact hopens
        · exact lt_trans ((List.pairwise_cons.mp hsorted).1 n hn) hopens
  split at h
  · rename_i hcloses
    split at h
    · cases h
      have hfold := foldl_columnsAfter_dedents c.here (c.indents.takeWhile (width < ·))
        (c.indents.dropWhile (width < ·))
      rw [List.takeWhile_append_dropWhile] at hfold
      refine ⟨hfold.symm, fun hsorted => hsorted.sublist (List.dropWhile_sublist _), ?_⟩
      · cases hindents : c.indents with
        | nil => simp [hindents] at hcloses
        | cons m ms =>
            have hm : width < m := by simpa [hindents] using hcloses
            rw [List.takeWhile_cons_of_pos (by simpa using hm)]
            simp only [kindBehind, List.getLast?_map, List.getLast?_cons, Option.map_some]
            rfl
    · cases h
  · cases h
    exact ⟨rfl, id, rfl⟩

theorem Follows.trans {c₁ c₂ c₃ : Cursor} {ts us : List Token} (h : c₁.Follows ts c₂)
    (h' : c₂.Follows us c₃) : c₁.Follows (ts ++ us) c₃ where
  indents := by rw [h'.indents, h.indents, List.foldl_append]
  sorted hsorted := h'.sorted (h.sorted hsorted)
  last := by rw [h'.last, h.last, kindBehind_append]

theorem follows_enterLine {c c' : Cursor} {ts : List Token} (h : c.enterLine = .ok (ts, c')) :
    c.Follows ts c' := by
  unfold enterLine at h
  split at h
  · simp only at h
    split at h
    · cases h
      exact ⟨rfl, id, rfl⟩
    · obtain ⟨hindents, hsorted, hlast⟩ := follows_indentTo h
      exact ⟨hindents, hsorted, hlast⟩
  · cases h
    exact ⟨rfl, id, rfl⟩

theorem follows_advance {c c' : Cursor} {ch : Char} {cs : Text} {t : Option Token}
    (h : c.advance ch cs = .ok (t, c')) : c.Follows t.toList c' := by
  unfold advance at h
  split at h
  · cases h
  · cases h
    exact ⟨rfl, id, rfl⟩
  · rename_i kind n hscan
    split at h
    · cases h
    · cases h
      refine ⟨?_, id, rfl⟩
      rcases Lexeme.scan_kind hscan with rfl | rfl | rfl | rfl | rfl <;> rfl

/-! ## The end -/

/-- The markers that close the blocks of the given columns and end a source. -/
def closing (columns : List Nat) (place : Position) (trivia : Text) : List Token :=
  columns.map (fun _ => marker .dedent place) ++ [⟨.endMarker, [], trivia, place⟩]

theorem finish_eq_ok {c : Cursor} {ts : List Token} (hrest : c.rest = []) (h : c.finish = .ok ts) :
    c.brackets = [] ∧
      ((c.isUnfinished = true ∧ ∃ place,
          ts = ⟨.newline, [], c.trivia, c.here⟩ :: closing c.indents place []) ∨
        (c.isUnfinished = false ∧ ts = closing c.indents c.here c.trivia)) := by
  unfold finish at h
  split at h
  · cases h
  · rename_i hbrackets
    refine ⟨hbrackets, ?_⟩
    simp only at h
    split at h
    · rename_i hunfinished
      cases h
      refine .inl ⟨hunfinished, c.here.after [], ?_⟩
      simp [closing, take, hrest]
    · rename_i hfinished
      cases h
      refine .inr ⟨Bool.eq_false_iff.mpr hfinished, ?_⟩
      simp [closing, take, hrest]

theorem isUnfinished_eq (c : Cursor) : c.isUnfinished = !endsLine c.last := by
  unfold isUnfinished
  cases c.last with
  | none => rfl
  | some kind => cases kind <;> rfl

theorem tokens_atEnd {c : Cursor} (hrest : c.rest = []) (hstart : c.lineStart = true)
    (hbrackets : c.brackets = []) (hlast : c.last = some .newline) (htrivia : c.trivia = []) :
    c.tokens = .ok (closing c.indents c.here []) := by
  have hbefore : c.beforeLine = c := by
    rw [beforeLine, hrest, triviaLinesLength, dif_pos rfl]
    simp [skip, Position.after]
  have hat : c.atLine = c := by rw [atLine_of_nil (by rw [hbefore, hrest]), hbefore]
  have henter : c.enterLine = .ok ([], c) := by
    rw [enterLine_of_end hstart (by rw [hat, hrest]), hat]
  have hfinish : c.finish = .ok (closing c.indents c.here []) := by
    unfold finish
    rw [hbrackets]
    simp [hlast, closing, take, hrest, htrivia]
  rw [tokens_eq, henter]
  simp only [hrest, hfinish]
  rfl

end Cursor

/-- Tokens at the end of a source and at the end of the same source with a line feed behind it, with
blocks of the given columns open and a token of the kind `before` in front of them. -/
inductive EndsAlike (columns : List Nat) (before : Option TokenKind) :
    List Token → List Token → Prop
  /-- The line feed ends the last line. -/
  | line (newline : Token) (p p' : Position) (hkind : newline.kind = .newline)
      (htext : newline.text = []) :
      EndsAlike columns before (newline :: Cursor.closing columns p [])
        ({ newline with text := ['\n'] } :: Cursor.closing columns p' [])
  /-- The line feed stands behind blanks or a comment on the last line. -/
  | trivia {trivia : Text} (p p' : Position) (htrivia : Unterminated trivia)
      (hbefore : before ≠ some .dedent) :
      EndsAlike columns before (Cursor.closing columns p trivia)
        (Cursor.closing columns p' (trivia ++ ['\n']))
  /-- The line feed ends a line that holds nothing but a continuation. -/
  | empty {us : List Token} (newline : Token) (vs : List Token) (hkind : newline.kind = .newline)
      (hbefore : endsLine before = true) : EndsAlike columns before us (newline :: vs)

namespace Cursor

/-- Without the line feed the last line is ended by a mark without text, or it needs none. -/
theorem endsAlike_of_line {c : Cursor} {us us' : List Token} (hrest : c.rest = [])
    (hline : c.lineStart = false) (h : c.finish = .ok us) (h' : c.extended.tokens = .ok us') :
    EndsAlike c.indents c.last us us' := by
  obtain ⟨hbrackets, hfinish⟩ := finish_eq_ok hrest h
  have henter : c.extended.enterLine = .ok ([], c.extended) := enterLine_of_not_lineStart hline
  have hadvance : c.extended.advance '\n' [] =
      .ok (some ⟨.newline, ['\n'], c.trivia, c.here⟩,
        ⟨[], c.here.after ['\n'], [], c.indents, [], true, some .newline⟩) := by
    have hscan : Lexeme.scan false c.here '\n' [] = .ok (.token .newline, 0) := rfl
    unfold advance
    simp only [here_extended, brackets_extended, hbrackets, List.isEmpty_nil, Bool.not_true, hscan]
    simp [take, extended, hrest]
  rw [tokens_eq, henter] at h'
  simp only [rest_extended, hrest, List.nil_append, hadvance] at h'
  rw [tokens_atEnd rfl rfl rfl rfl rfl] at h'
  obtain rfl := Except.ok.inj h'
  rcases hfinish with ⟨-, place, rfl⟩ | ⟨hfinished, rfl⟩
  · exact .line ⟨.newline, [], c.trivia, c.here⟩ _ _ rfl rfl
  · exact .empty _ _ rfl (by simpa [isUnfinished_eq] using hfinished)

/-- Behind a finished line nothing is left to end, so that blanks and comments are all that follows. -/
theorem endsAlike_of_lineStart {c c₁ c₂ : Cursor} {us us' : List Token} (h₁ : c₁.finish = .ok us)
    (h₂ : c₂.finish = .ok us') (hlast : c.last = none ∨ c.last = some .newline)
    (hrest₁ : c₁.rest = []) (hrest₂ : c₂.rest = [])
    (hsame₁ : c₁.last = c.last ∧ c₁.indents = c.indents)
    (hsame₂ : c₂.last = c.last ∧ c₂.indents = c.indents) (htrivia : Unterminated c₁.trivia)
    (hlonger : c₂.trivia = c₁.trivia ++ ['\n']) : EndsAlike c.indents c.last us us' := by
  have hfinished : endsLine c.last = true := by
    rcases hlast with hlast | hlast <;> rw [hlast] <;> rfl
  have hclosing {d : Cursor} {vs : List Token} (hrest : d.rest = []) (hd : d.last = c.last)
      (h : d.finish = .ok vs) : vs = closing d.indents d.here d.trivia := by
    obtain ⟨-, ⟨hunfinished, -⟩ | ⟨-, hvs⟩⟩ := finish_eq_ok hrest h
    · rw [isUnfinished_eq, hd, hfinished] at hunfinished
      cases hunfinished
    · exact hvs
  rw [hclosing hrest₁ hsame₁.1 h₁, hclosing hrest₂ hsame₂.1 h₂, hsame₁.2, hsame₂.2, hlonger]
  exact .trivia _ _ htrivia (by rcases hlast with hlast | hlast <;> simp [hlast])

theorem last_of_lineStart {c c₁ c₂ : Cursor} {markers : List Token} {ch : Char} {cs : Text}
    {t : Option Token} (hl : c.enterLine = .ok (markers, c₁)) (hr : c₁.rest = ch :: cs)
    (ha : c₁.advance ch cs = .ok (t, c₂)) (hstart : c₂.lineStart = true) :
    c₂.last = some .newline := by
  have hline : c₁.lineStart = false := by
    obtain ⟨-, ⟨hline, -, rfl⟩ | ⟨-, -, hline, -⟩⟩ := enterLine_cases hl
    · exact hline
    · exact hline (by simp [hr])
  rcases advance_cases hr ha with ⟨-, -, hsame, -⟩ | ⟨u, -, -, -, -, hkind, hlast⟩
  · rw [hsame, hline] at hstart
    cases hstart
  · rw [hkind] at hstart
    rw [hlast, eq_of_beq hstart]

/-- The tokens of a source and those of the same source with a line feed behind it are the same up to
the last line. -/
theorem tokens_extended {c : Cursor} {ts ts' : List Token} (hc : Unterminated c.pending)
    (hstart : c.lineStart = true → c.last = none ∨ c.last = some .newline)
    (hsorted : c.indents.Pairwise (· > ·)) (h : c.tokens = .ok ts)
    (h' : c.extended.tokens = .ok ts') :
    ∃ init us us', ts = init ++ us ∧ ts' = init ++ us' ∧
      (init.foldl columnsAfter c.indents).Pairwise (· > ·) ∧
      EndsAlike (init.foldl columnsAfter c.indents) (kindBehind c.last init) us us' := by
  fun_induction tokens c generalizing ts ts' with
  | case1 c e hl => cases h
  | case2 c markers c₁ hl hr =>
      obtain ⟨us, hus, rfl⟩ := exists_of_map_eq_ok h
      obtain ⟨henter, hnext⟩ | ⟨hline, rfl, ⟨here, rfl⟩, here', henter⟩ :=
        enterLine_extended hc.of_append hl
      · have hline : c.lineStart = false := by
          cases hline : c.lineStart with
          | false => rfl
          | true => exact absurd hr (hnext hline)
        rw [enterLine_of_not_lineStart hline] at hl
        obtain ⟨rfl, rfl⟩ := Prod.mk.inj (Except.ok.inj hl)
        exact ⟨[], _, _, rfl, rfl, hsorted, endsAlike_of_line hr hline hus h'⟩
      · rw [tokens_eq, henter] at h'
        obtain ⟨us', hus', rfl⟩ := exists_of_map_eq_ok h'
        exact ⟨[], _, _, rfl, rfl, hsorted, endsAlike_of_lineStart hus hus' (hstart hline) rfl rfl
          ⟨rfl, rfl⟩ ⟨rfl, rfl⟩ hc rfl⟩
  | case3 c markers c₁ hl ch cs hr e ha => cases h
  | case4 c markers c₁ hl ch cs hr t c₂ ha ih =>
      obtain ⟨us, hus, rfl⟩ := exists_of_map_eq_ok h
      obtain ⟨henter, -⟩ | ⟨-, -, ⟨here, rfl⟩, -⟩ := enterLine_extended hc.of_append hl
      · have hpending := (enterLine_markers hl).1
        have hc₁ : Unterminated c₁.rest := by
          rw [← hpending] at hc
          exact hc.of_append
        rw [tokens_eq, henter] at h'
        simp only [rest_extended, hr, List.cons_append, advance_extended hr hc₁ ha] at h'
        obtain ⟨us', hus', rfl⟩ := exists_of_map_eq_ok h'
        have hfollows := (follows_enterLine hl).trans (follows_advance ha)
        have hc₂ : Unterminated c₂.pending := by
          rw [← hpending, ← (advance_spelling ha).1] at hc
          exact hc.of_append
        obtain ⟨init, vs, vs', rfl, rfl, hsorted', hends⟩ :=
          ih hc₂ (fun hstart₂ => .inr (last_of_lineStart hl hr ha hstart₂)) (hfollows.sorted hsorted)
            hus hus'
        refine ⟨markers ++ t.toList ++ init, vs, vs', by simp, by simp, ?_, ?_⟩
        · rw [List.foldl_append, ← hfollows.indents]
          exact hsorted'
        · rw [List.foldl_append, ← hfollows.indents, kindBehind_append, ← hfollows.last]
          exact hends
      · cases hr

end Cursor

end SchemaTidy
