import SchemaTidy.Proofs.Print.Comment
import SchemaTidy.Proofs.Token.Indentation
import SchemaTidy.Proofs.Tree.Woven

/-!
# Comments that are skipped and comments that are read

The lexer skips comments on its way to a token, and the trivia of the token is searched for comments
later. `tokenizeWithComments` is the lexer with a log of the comments that it skips. The comments read
out of trivia, cut where the lexer ends a line, are those of the log. They are the log itself unless a
line that ends at a line feed goes on behind the carriage return that ends a comment.
-/

namespace SchemaTidy

/-! ## The lexer with a log -/

/-- The comment that a text starts with, up to the end of its line. -/
def Lexeme.commentAt (t : Text) : List Text :=
  if t.head? == some '#' then [t.takeWhile (!Text.isLineBreak ·)] else []

/-- The comments in the blank and comment lines before the first line that holds a token. -/
def triviaLinesComments (cs : Text) : List Text :=
  if _ : cs = [] then []
  else
    let n := firstLineLength cs
    if isTriviaLine (cs.take n) then
      Lexeme.commentAt ((cs.take n).dropWhile Text.isIndent) ++ triviaLinesComments (cs.drop n)
    else []
termination_by cs.length
decreasing_by
  rename_i h _
  have := firstLineLength_pos h
  have : 0 < cs.length := List.length_pos_iff.mpr h
  simp only [List.length_drop]
  omega

namespace Cursor

/-- The comments that are skipped at the start of a logical line. -/
def commentsEntering (c : Cursor) : List Text :=
  if c.lineStart then triviaLinesComments c.rest else []

/-- Hands the comments that have been skipped to the first token that is no closing marker. -/
def handOver (seen : List Text) : List Token → List (Token × List Text)
  | [] => []
  | t :: ts =>
      if t.kind == .dedent then (t, []) :: handOver seen ts else (t, seen) :: ts.map (·, [])

/-- The tokens from here to the end of the source, each with the comments that were skipped while its
trivia was taken. The comments `seen` have been skipped since the last token. -/
def tokensWithComments (c : Cursor) (seen : List Text) :
    Except ParseError (List (Token × List Text)) :=
  match _ : c.enterLine with
  | .error e => .error e
  | .ok (markers, c₁) =>
      match _ : c₁.rest with
      | [] => c₁.finish.map (markers.map (·, []) ++ handOver (seen ++ c.commentsEntering) ·)
      | ch :: cs =>
          match _ : c₁.advance ch cs with
          | .error e => .error e
          | .ok (none, c₂) =>
              (c₂.tokensWithComments
                ((seen ++ c.commentsEntering) ++ Lexeme.commentAt (ch :: cs))).map
                  (markers.map (·, []) ++ ·)
          | .ok (some t, c₂) =>
              (c₂.tokensWithComments []).map
                (markers.map (·, []) ++ (t, seen ++ c.commentsEntering) :: ·)
termination_by c.rest.length
decreasing_by
  all_goals
    rename_i hl hr ha
    have h₁ := length_rest_enterLine hl
    obtain ⟨n, h₂⟩ := rest_advance ha
    rw [hr] at h₁
    simp only [h₂, hr, List.drop_succ_cons, List.length_drop, List.length_cons] at h₁ ⊢
    omega

end Cursor

/-- The tokens of a source text with the comments that the lexer skips while it takes the trivia of
each. -/
def tokenizeWithComments (source : Text) : Except ParseError (List (Token × List Text)) :=
  (Cursor.ofSource source).tokensWithComments []

namespace Cursor

theorem map_fst_unlogged (ts : List Token) :
    (ts.map fun t => (t, ([] : List Text))).map Prod.fst = ts := by
  rw [List.map_map]
  exact List.map_id ts

theorem map_fst_handOver (seen : List Text) (ts : List Token) :
    (handOver seen ts).map Prod.fst = ts := by
  induction ts with
  | nil => rfl
  | cons t ts ih =>
      unfold handOver
      split
      · rw [List.map_cons, ih]
      · rw [List.map_cons, map_fst_unlogged]

/-- Without the log it is the lexer. -/
theorem map_fst_tokensWithComments (c : Cursor) (seen : List Text) :
    (c.tokensWithComments seen).map (List.map Prod.fst) = c.tokens := by
  fun_induction tokensWithComments c seen with
  | case1 c seen e hl => rw [tokens_eq, hl]; rfl
  | case2 c seen markers c₁ hl hr =>
      rw [tokens_eq, hl]
      simp only [hr]
      cases c₁.finish with
      | error e => rfl
      | ok ts =>
          simp only [Except.map, List.map_append, map_fst_unlogged, map_fst_handOver]
  | case3 c seen markers c₁ hl ch cs hr e ha =>
      rw [tokens_eq, hl]
      simp only [hr, ha]
      rfl
  | case4 c seen markers c₁ hl ch cs hr c₂ ha ih =>
      rw [tokens_eq, hl]
      simp only [hr, ha, ← ih]
      cases c₂.tokensWithComments _ with
      | error e => rfl
      | ok log => simp [Except.map, Function.comp_def]
  | case5 c seen markers c₁ hl ch cs hr t c₂ ha ih =>
      rw [tokens_eq, hl]
      simp only [hr, ha, ← ih]
      cases c₂.tokensWithComments _ with
      | error e => rfl
      | ok log => simp [Except.map, Function.comp_def]

end Cursor

/-! ## Comments of a log -/

/-- A comment ends before the white space behind it. -/
def trimComments (cs : List Text) : List Text := cs.map (Text.trimEnd Text.isBlank)

@[simp] theorem trimComments_nil : trimComments [] = [] := rfl

@[simp] theorem trimComments_append (cs ds : List Text) :
    trimComments (cs ++ ds) = trimComments cs ++ trimComments ds :=
  List.map_append

theorem IsBreak.atBreak {lb : Text} (h : IsBreak lb) (rest : Text) : AtBreak (lb ++ rest) := by
  intro c hc
  rcases h with rfl | rfl | rfl <;> obtain rfl := Option.some.inj hc <;> rfl

namespace Lexeme

theorem commentAt_of_head {c : Char} (hc : c ≠ '#') (t : Text) : commentAt (c :: t) = [] := by
  simp [commentAt, hc]

theorem commentAt_comment {w rest : Text} (hw : IsComment w) (hrest : AtBreak rest) :
    commentAt (w ++ rest) = [w] := by
  obtain ⟨v, rfl⟩ := hw.exists_cons
  have htaken := Text.take_lengthWhile (!Text.isLineBreak ·) ('#' :: v ++ rest)
  rw [lengthWhile_row hw.2 hrest, List.take_left] at htaken
  rw [commentAt, ← htaken]
  rfl

theorem physicalComments_comment {w : Text} (hw : IsComment w) :
    Trivia.physicalComments w = trimComments [w] := by
  rw [Trivia.physicalComments_row hw.2]
  obtain ⟨v, rfl⟩ := hw.exists_cons
  simp [Trivia.comment?, trimComments]

theorem commentAt_row {row rest : Text} (hrow : IsTriviaRow row) (hrest : AtBreak rest) :
    trimComments (commentAt ((row ++ rest).dropWhile Text.isIndent)) =
      Trivia.physicalComments row := by
  obtain ⟨ws, hws, rfl | ⟨w, hw, rfl⟩⟩ := hrow
  · have hblank := physicalComments_blanks hws []
    rw [List.append_nil] at hblank
    rw [dropWhile_blanks hws, hblank]
    · cases rest with
      | nil => rfl
      | cons c rest =>
          have hc := Trivia.isBlank_ne (Trivia.isBlank_of_isLineBreak (hrest c rfl))
          rw [commentAt_of_head hc]
          rfl
    · intro c hc
      have hbreak := hrest c hc
      cases hindent : Text.isIndent c with
      | false => rfl
      | true => rw [isLineBreak_of_isIndent hindent] at hbreak; cases hbreak
  · obtain ⟨v, rfl⟩ := hw.exists_cons
    rw [List.append_assoc, dropWhile_blanks hws (by simp [Text.isIndent]), commentAt_comment hw hrest,
      physicalComments_blanks hws, physicalComments_comment hw]

end Lexeme

theorem triviaLinesComments_row {row lb x : Text} (hrow : IsTriviaRow row) (hlb : IsBreak lb)
    (hx : lb = ['\r'] → x.head? ≠ some '\n') :
    trimComments (triviaLinesComments (row ++ (lb ++ x))) =
      Trivia.physicalComments row ++ trimComments (triviaLinesComments x) := by
  have hne : row ++ (lb ++ x) ≠ [] := by
    rcases hlb with rfl | rfl | rfl <;> simp
  have hbreak : AtBreak lb := by simpa using hlb.atBreak []
  rw [triviaLinesComments, dif_neg hne]
  simp only [firstLineLength_row hrow.isLineBreak hlb hx]
  rw [← List.append_assoc, List.take_left, List.drop_left, if_pos (hrow.isTriviaLine hlb),
    trimComments_append, Lexeme.commentAt_row hrow hbreak]

theorem triviaLinesComments_last {t : Text} (hrow : IsTriviaRow t)
    (hlength : firstLineLength t = t.length)
    (hline : isTriviaLine (t.take (firstLineLength t)) = true) :
    trimComments (triviaLinesComments t) = Trivia.physicalComments t := by
  have hend : AtBreak [] := by simp [AtBreak]
  have hcomment := Lexeme.commentAt_row hrow hend
  rw [List.append_nil] at hcomment
  rw [triviaLinesComments]
  split
  · rename_i hnil
    rw [hnil]
    rfl
  · have hend : triviaLinesComments [] = [] := by rw [triviaLinesComments]; rfl
    simp only
    rw [if_pos hline, hlength, List.take_length, List.drop_length, hend, List.append_nil, hcomment]

/-- The comments of the lines that are passed over, and none is open where a token follows. -/
theorem physicalComments_triviaLines (t : Text) :
    Trivia.physicalComments (t.take (triviaLinesLength t)) = trimComments (triviaLinesComments t) ∧
      (t.drop (triviaLinesLength t) ≠ [] → Trivia.Closed (t.take (triviaLinesLength t))) := by
  by_cases hline : isTriviaLine (t.take (firstLineLength t)) = true
  · rcases exists_firstLine hline with ⟨row, lb, r, hsplit, hrow, hlb, hr⟩ | ⟨hrow, hlength⟩
    · have hpos := hlb.length_pos
      have hlength := congrArg List.length hsplit
      obtain ⟨hcomments, hclosed⟩ := physicalComments_triviaLines r
      obtain ⟨hrowClosed, hrowComments⟩ := closed_append_break hlb row
      rw [hsplit, triviaLinesComments_row hrow hlb hr, triviaLinesLength_row hrow hlb hr,
        ← List.append_assoc, List.take_length_add_append, ← List.drop_drop, List.drop_left,
        hrowClosed, hrowComments, hcomments]
      exact ⟨rfl, fun hne => hrowClosed.append (hclosed hne)⟩
    · have hend : triviaLinesLength t = t.length := by
        rw [triviaLinesLength]
        split
        · rename_i hnil
          rw [hnil]
          rfl
        · have hnil : triviaLinesLength [] = 0 := by rw [triviaLinesLength]; rfl
          simp only
          rw [if_pos hline, hlength, List.drop_length, hnil, Nat.add_zero]
      rw [hend, List.take_length, List.drop_length, triviaLinesComments_last hrow hlength hline]
      exact ⟨rfl, fun hne => absurd rfl hne⟩
  · have hnone : triviaLinesComments t = [] := by
      rw [triviaLinesComments]
      split
      · rfl
      · exact if_neg hline
    rw [triviaLinesLength_eq_zero hline, hnone]
    exact ⟨rfl, fun _ => Trivia.closed_nil⟩
termination_by t.length
decreasing_by simp only [List.length_append] at hlength; omega

theorem physicalComments_piece {t piece rest : Text} (h : TriviaPiece piece rest)
    (ht : Trivia.Closed t ∨ AtBreak (piece ++ rest)) :
    Trivia.physicalComments (t ++ piece) =
        Trivia.physicalComments t ++ trimComments (Lexeme.commentAt (piece ++ rest)) ∧
      (Trivia.Closed (t ++ piece) ∨ AtBreak rest) := by
  cases h with
  | @indent c _ hc =>
      have ht := ht.resolve_right fun hbreak => by
        have hbreak := hbreak c rfl
        rw [isLineBreak_of_isIndent hc] at hbreak
        cases hbreak
      obtain ⟨hclosed, hcomments⟩ := ht.cons (Trivia.isBlank_ne (Text.isBlank_of_isIndent hc))
      rw [List.singleton_append,
        Lexeme.commentAt_of_head (Trivia.isBlank_ne (Text.isBlank_of_isIndent hc))]
      exact ⟨by rw [hcomments, trimComments_nil, List.append_nil], .inl hclosed⟩
  | @continuation lb _ hlb =>
      have ht := ht.resolve_right fun hbreak => by cases hbreak '\\' rfl
      obtain ⟨hclosed, hcomments⟩ := ht.cons (c := '\\') (by decide)
      obtain ⟨hclosed', hcomments'⟩ := closed_append_break hlb (t ++ ['\\'])
      rw [List.append_assoc, List.singleton_append] at hclosed' hcomments'
      rw [List.cons_append, Lexeme.commentAt_of_head (by decide)]
      exact ⟨by rw [hcomments', hcomments, trimComments_nil, List.append_nil], .inl hclosed'⟩
  | @comment row _ hrow hrest =>
      have ht := ht.resolve_right fun hbreak => by cases hbreak '#' rfl
      have hw : IsComment ('#' :: row) :=
        ⟨rfl, List.forall_mem_cons.mpr ⟨by decide, hrow⟩⟩
      rw [Lexeme.commentAt_comment hw hrest, ← Lexeme.physicalComments_comment hw]
      exact ⟨ht _, .inr hrest⟩
  | @lineBreak lb _ hlb =>
      obtain ⟨hclosed, hcomments⟩ := closed_append_break hlb t
      have hnone : Lexeme.commentAt (piece ++ rest) = [] := by
        cases hpiece : piece ++ rest with
        | nil => rfl
        | cons c x =>
            apply Lexeme.commentAt_of_head
            apply Trivia.isBlank_ne
            exact Trivia.isBlank_of_isLineBreak (hlb.atBreak rest c (by rw [hpiece]; rfl))
      exact ⟨by rw [hcomments, hnone, trimComments_nil, List.append_nil], .inl hclosed⟩

namespace Cursor

variable {c c' : Cursor} {seen : List Text}

/-- The comments in the trivia taken so far are those that have been skipped. -/
structure Logs (seen : List Text) (c : Cursor) : Prop where
  comments : Trivia.physicalComments c.trivia = trimComments seen
  ends : c.EndsComment
  start : c.lineStart = true → c.trivia = []

theorem logs_nil (c : Cursor) (htrivia : c.trivia = []) : c.Logs [] where
  comments := by rw [htrivia]; rfl
  ends := .inl (by rw [htrivia]; exact Trivia.closed_nil)
  start := fun _ => htrivia

theorem comments_atLine (htrivia : c.trivia = []) (hstart : c.lineStart = true) :
    Trivia.physicalComments c.atLine.trivia = trimComments c.commentsEntering ∧
      (c.atLine.rest ≠ [] → Trivia.Closed c.atLine.trivia) := by
  obtain ⟨hcomments, hclosed⟩ := physicalComments_triviaLines c.rest
  have hbefore : c.beforeLine.trivia = c.rest.take (triviaLinesLength c.rest) := by
    show c.trivia ++ _ = _
    rw [htrivia, List.nil_append]
  rw [commentsEntering, if_pos hstart, ← hcomments, ← hbefore]
  by_cases hrest : c.beforeLine.rest = []
  · rw [atLine_of_nil hrest]
    exact ⟨rfl, fun hne => absurd hrest hne⟩
  · have hblank : ∀ d ∈ c.beforeLine.rest.takeWhile Text.isIndent, Text.isIndent d = true :=
      fun d hd => List.mem_takeWhile_imp hd
    have htrivia : c.atLine.trivia = c.beforeLine.trivia ++ c.beforeLine.rest.takeWhile Text.isIndent := by
      rw [← Text.take_lengthWhile]
      rfl
    obtain ⟨hclosed', hcomments'⟩ := closed_blanks (hbefore ▸ hclosed hrest) hblank
    rw [htrivia]
    exact ⟨hcomments', fun _ => hclosed'⟩

theorem logs_enterLine {markers : List Token} (hc : c.Logs seen)
    (h : c.enterLine = .ok (markers, c')) :
    Trivia.physicalComments c'.trivia = trimComments (seen ++ c.commentsEntering) ∧
      (c'.rest ≠ [] → c'.Logs (seen ++ c.commentsEntering)) := by
  cases hstart : c.lineStart with
  | false =>
      rw [enterLine_of_not_lineStart hstart] at h
      cases h
      rw [commentsEntering, hstart, if_neg (by simp), List.append_nil]
      exact ⟨hc.comments, fun _ => hc⟩
  | true =>
      have htrivia := hc.start hstart
      have hseen : trimComments seen = [] := by
        rw [← hc.comments, htrivia]
        rfl
      obtain ⟨hcomments, hclosed⟩ := comments_atLine htrivia hstart
      rw [trimComments_append, hseen, List.nil_append]
      by_cases hrest : c.atLine.rest = []
      · rw [enterLine_of_end hstart hrest] at h
        cases h
        exact ⟨hcomments, fun hne => absurd hrest hne⟩
      · rw [enterLine_of_line hstart hrest] at h
        obtain ⟨-, htrivia', hline⟩ := brackets_indentTo h
        have htrivia' : c'.trivia = c.atLine.trivia := htrivia'
        have hline : c'.lineStart = false := hline
        rw [htrivia']
        apply And.intro hcomments
        intro _
        constructor
        · rw [htrivia', hcomments, trimComments_append, hseen, List.nil_append]
        · exact .inl (htrivia' ▸ hclosed hrest)
        · simp [hline]

theorem logs_inLine {markers : List Token} (hc : c.Logs seen)
    (h : c.enterLine = .ok (markers, c')) (hrest : c'.rest ≠ []) :
    c'.Logs (seen ++ c.commentsEntering) ∧ c'.lineStart = false := by
  apply And.intro ((logs_enterLine hc h).2 hrest)
  rcases (enterLine_cases h).2 with ⟨hstart, -, rfl⟩ | ⟨-, -, hline, -⟩
  · exact hstart
  · exact hline hrest

theorem Logs.skip {n : Nat} (hc : c.Logs seen) (hstart : c.lineStart = false)
    (hpiece : TriviaPiece (c.rest.take n) (c.rest.drop n)) :
    (c.skip n).Logs (seen ++ Lexeme.commentAt c.rest) := by
  obtain ⟨hcomments, hends⟩ := physicalComments_piece (t := c.trivia) hpiece
    (by rw [List.take_append_drop]; exact hc.ends)
  rw [List.take_append_drop, hc.comments] at hcomments
  constructor
  · rw [trimComments_append]
    exact hcomments
  · exact hends
  · intro hline
    rw [Cursor.skip, hstart] at hline
    cases hline

end Cursor

/-- Every token of a log comes with the comments in its trivia. -/
def IsLog (log : List (Token × List Text)) : Prop :=
  ∀ p ∈ log, Trivia.physicalComments p.1.trivia = trimComments p.2

theorem IsLog.append {log more : List (Token × List Text)} (hlog : IsLog log) (hmore : IsLog more) :
    IsLog (log ++ more) := by
  intro p hp
  rcases List.mem_append.mp hp with hp | hp
  · exact hlog p hp
  · exact hmore p hp

theorem isLog_bare {ts : List Token} (hts : ∀ t ∈ ts, t.trivia = []) :
    IsLog (ts.map fun t => (t, [])) := by
  intro p hp
  obtain ⟨t, ht, rfl⟩ := List.mem_map.mp hp
  simp [hts t ht]

namespace Cursor

variable {c c' : Cursor} {seen : List Text}

/-- The token that takes the trivia gets the comments, behind closing markers without trivia. -/
theorem isLog_handOver {markers ts : List Token} {t : Token}
    (hcomments : Trivia.physicalComments t.trivia = trimComments seen)
    (hmarkers : ∀ u ∈ markers, u.kind = .dedent ∧ u.trivia = []) (ht : t.kind ≠ .dedent)
    (hts : ∀ u ∈ ts, u.trivia = []) : IsLog (handOver seen (markers ++ t :: ts)) := by
  induction markers with
  | nil =>
      rw [List.nil_append, handOver, if_neg (by simpa using ht)]
      exact List.forall_mem_cons.mpr ⟨hcomments, isLog_bare hts⟩
  | cons m markers ih =>
      obtain ⟨⟨hkind, htrivia⟩, hrest⟩ := List.forall_mem_cons.mp hmarkers
      rw [List.cons_append, handOver, if_pos (by simp [hkind])]
      exact List.forall_mem_cons.mpr ⟨by rw [htrivia]; rfl, ih hrest⟩

theorem isLog_finish {ts : List Token}
    (hcomments : Trivia.physicalComments c.trivia = trimComments seen) (h : c.finish = .ok ts) :
    IsLog (handOver seen ts) := by
  have hmarkers (p : Position) :
      ∀ u ∈ c.indents.map fun _ => marker .dedent p, u.kind = .dedent ∧ u.trivia = [] := by
    intro u hu
    obtain ⟨_, _, rfl⟩ := List.mem_map.mp hu
    exact ⟨rfl, rfl⟩
  unfold finish at h
  split at h
  · cases h
  simp only at h
  split at h
  · cases h
    have hnone : ∀ u ∈ ([] : List Token), u.kind = .dedent ∧ u.trivia = [] := by simp
    apply isLog_handOver (t := (c.take .newline 0).1) hcomments hnone (by simp [take])
    intro u hu
    rcases List.mem_append.mp hu with hu | hu
    · exact (hmarkers _ u hu).2
    · rw [List.mem_singleton.mp hu]
      rfl
  · cases h
    exact isLog_handOver (t := (c.take .endMarker 0).1) hcomments (hmarkers c.here) (by simp [take])
      (by simp)

/-- Every token of a run of the lexer comes with the comments in its trivia. -/
theorem isLog_tokensWithComments {log : List (Token × List Text)} (hc : c.Logs seen)
    (h : c.tokensWithComments seen = .ok log) : IsLog log := by
  have hbare {c c₁ : Cursor} {markers : List Token} (hl : c.enterLine = .ok (markers, c₁)) :
      IsLog (markers.map fun t => (t, [])) :=
    isLog_bare fun t ht => (List.append_eq_nil_iff.mp (markers_enterLine hl t ht).1).1
  -- A token is logged with what the cursor in front of it has skipped; behind it the log starts anew.
  fun_induction tokensWithComments c seen generalizing log with
  | case1 c seen e hl => cases h
  | case2 c seen markers c₁ hl hr =>
      obtain ⟨ts, hts, rfl⟩ := exists_of_map_eq_ok h
      exact (hbare hl).append (isLog_finish (logs_enterLine hc hl).1 hts)
  | case3 c seen markers c₁ hl ch cs hr e ha => cases h
  | case4 c seen markers c₁ hl ch cs hr c₂ ha ih =>
      obtain ⟨more, hmore, rfl⟩ := exists_of_map_eq_ok h
      obtain ⟨hc₁, hline⟩ := logs_inLine hc hl (by simp [hr])
      apply (hbare hl).append
      apply ih _ hmore
      unfold advance at ha
      split at ha
      · cases ha
      · rename_i n hscan
        cases ha
        rw [← hr]
        apply hc₁.skip hline
        rw [hr]
        exact Lexeme.triviaPiece_of_scan hscan
      · split at ha <;> cases ha
  | case5 c seen markers c₁ hl ch cs hr t c₂ ha ih =>
      obtain ⟨more, hmore, rfl⟩ := exists_of_map_eq_ok h
      obtain ⟨hc₁, hline⟩ := logs_inLine hc hl (by simp [hr])
      apply (hbare hl).append
      unfold advance at ha
      split at ha
      · cases ha
      · cases ha
      · split at ha
        · cases ha
        · cases ha
          exact List.forall_mem_cons.mpr ⟨hc₁.comments, ih (logs_nil _ rfl) hmore⟩

end Cursor

/-! ## Comments read out of trivia -/

theorem Text.mem_trimEnd_iff {p : Char → Bool} {c : Char} (hc : p c = true) (t : Text) :
    c ∈ trimEnd p t ↔ (t.dropWhile (· != c)).any (!p ·) = true := by
  by_cases hmem : c ∈ t
  · obtain ⟨x, y, rfl, hx⟩ := List.eq_append_cons_of_mem hmem
    have hbefore : ∀ d ∈ x, (d != c) = true := by
      simpa only [bne_iff_ne] using List.forall_mem_ne'.mpr hx
    rw [List.dropWhile_append_of_pos hbefore, List.dropWhile_cons_of_neg (by simp), List.any_cons, hc,
      Bool.not_true, Bool.false_or]
    cases hy : y.any (!p ·) with
    | false =>
        have hall : ∀ d ∈ c :: y, p d = true := by
          rw [List.forall_mem_cons]
          apply And.intro hc
          intro d hd
          simpa using List.any_eq_false.mp hy d hd
        rw [trimEnd_append hall]
        simp only [Bool.false_eq_true, iff_false]
        intro htrimmed
        exact hx (mem_of_mem_trimEnd htrimmed)
    | true =>
        obtain ⟨d, hd, hkept⟩ := List.any_eq_true.mp hy
        obtain ⟨y₁, y₂, rfl, -⟩ := List.eq_append_cons_of_mem hd
        obtain ⟨w, hw⟩ := trimEnd_append_cons (by simpa using hkept) (x ++ c :: y₁) y₂
        rw [List.append_assoc, List.cons_append] at hw
        rw [hw]
        simp
  · have hnone : t.dropWhile (· != c) = [] := by
      simpa only [List.dropWhile_eq_nil_iff, bne_iff_ne] using List.forall_mem_ne'.mpr hmem
    rw [hnone]
    simp only [List.any_nil, Bool.false_eq_true, iff_false]
    intro htrimmed
    exact hmem (mem_of_mem_trimEnd htrimmed)

namespace Trivia

/-- Whether a line holds a comment, a carriage return behind it and more than white space behind
this. -/
def joinsLine (line : Text) : Bool :=
  ((line.dropWhile (· != '#')).dropWhile (· != '\r')).any (!Text.isBlank ·)

/-- Whether comments on lines of their own run together with what follows them, since they are read
from lines that end at `\n` only. -/
def joinsLines (trivia : Text) : Bool :=
  (Text.splitAfter (· == '\n') (splitSameLine trivia).2).any joinsLine

theorem comment?_trimEnd (t : Text) : comment? (Text.trimEnd Text.isBlank t) = comment? t := by
  have hall (a : Text) {b : Text} (hb : ∀ c ∈ b, Text.isBlank c = true) :
      comment? (a ++ b) = comment? a := by
    induction b generalizing a with
    | nil => rw [List.append_nil]
    | cons c b ih =>
        obtain ⟨hc, hrest⟩ := List.forall_mem_cons.mp hb
        have hnext := ih (a ++ [c]) hrest
        rw [List.append_assoc, comment?_concat hc] at hnext
        exact hnext
  obtain ⟨b, hsplit, hb⟩ := Text.exists_trimEnd Text.isBlank t
  have hsame := hall (Text.trimEnd Text.isBlank t) hb
  rw [← hsplit] at hsame
  exact hsame.symm

theorem comment?_dropWhile {p : Char → Bool} (hp : p '#' = false) (t : Text) :
    comment? (t.dropWhile p) = comment? t := by
  induction t with
  | nil => rfl
  | cons c t ih =>
      cases hc : p c with
      | false => rw [List.dropWhile_cons_of_neg (by simp [hc])]
      | true =>
          have hne : c ≠ '#' := by
            rintro rfl
            rw [hp] at hc
            cases hc
          rw [List.dropWhile_cons_of_pos hc, ih, comment?_cons hne]

theorem comment?_of_comment? {l text : Text} (h : comment? l = some text) :
    comment? text = some text := by
  have hsame := (comment?_trimEnd (l.dropWhile (· != '#'))).trans (comment?_dropWhile (by decide) l)
  unfold comment? at h
  split at h
  · rename_i hmem
    obtain rfl := Option.some.inj h
    rw [hsame, comment?, if_pos hmem]
  · cases h

theorem ownLineComments_eq (t : Text) :
    ownLineComments t = (Text.splitAfter (· == '\n') (splitSameLine t).2).filterMap comment? := by
  rw [ownLineComments, lines, List.filterMap_filterMap]
  apply List.filterMap_congr
  intro l _
  have hcontent : comment? (Text.trim Text.isBlank l) = comment? l := by
    rw [Text.trim, comment?_trimEnd, comment?_dropWhile (by decide)]
  rw [line?]
  simp only [hcontent]
  cases comment? l with
  | some text => rfl
  | none =>
      simp only
      split <;> rfl

/-- The lines that run together are those whose comment holds a carriage return. -/
theorem joinsLine_iff (l : Text) :
    joinsLine l = true ↔ ∃ text, comment? l = some text ∧ '\r' ∈ text := by
  have hread := Text.mem_trimEnd_iff (p := Text.isBlank) (c := '\r') (by decide)
    (l.dropWhile (· != '#'))
  by_cases hmem : '#' ∈ l
  · rw [joinsLine, ← hread, comment?, if_pos (List.contains_iff_mem.mpr hmem)]
    constructor
    · intro hreturn
      exact ⟨_, rfl, hreturn⟩
    · rintro ⟨text, htext, hreturn⟩
      obtain rfl := Option.some.inj htext
      exact hreturn
  · have hnone : l.dropWhile (· != '#') = [] := by
      simpa only [List.dropWhile_eq_nil_iff, bne_iff_ne] using List.forall_mem_ne'.mpr hmem
    rw [joinsLine, hnone, comment?, if_neg (by simpa using hmem)]
    simp

theorem joinsLines_iff (t : Text) : joinsLines t = true ↔ ∃ c ∈ comments t, '\r' ∈ c := by
  rw [joinsLines, List.any_eq_true, comments, ownLineComments_eq]
  constructor
  · rintro ⟨l, hl, hjoins⟩
    obtain ⟨text, htext, hreturn⟩ := (joinsLine_iff l).mp hjoins
    exact ⟨text, List.mem_append_right _ (List.mem_filterMap.mpr ⟨l, hl, htext⟩), hreturn⟩
  · rintro ⟨c, hc, hreturn⟩
    rcases List.mem_append.mp hc with hc | hc
    · have hbreak := (isComment_sameLine c hc).2 '\r' hreturn
      cases hbreak
    · obtain ⟨l, hl, htext⟩ := List.mem_filterMap.mp hc
      exact ⟨l, hl, (joinsLine_iff l).mpr ⟨c, htext, hreturn⟩⟩

theorem not_return_of_mem_physicalComments {t c : Text} (h : c ∈ physicalComments t) : '\r' ∉ c := by
  have hrow {row : Text} (hrow : ∀ d ∈ row, Text.isLineBreak d = false)
      (h : c ∈ (comment? row).toList) : '\r' ∉ c := by
    intro hreturn
    have hbreak := hrow '\r' ((head?_comment? (Option.mem_toList.mp h)).2 _ hreturn)
    cases hbreak
  induction t using Text.rows_induction Text.isLineBreak with
  | last row hline =>
      rw [physicalComments_row hline] at h
      exact hrow hline h
  | cons row d t hline hd ih =>
      rw [physicalComments_row_break hline hd] at h
      rcases List.mem_append.mp h with h | h
      · exact hrow hline h
      · exact ih h

theorem physicalComments_of_mem_comments {t c : Text} (hc : c ∈ comments t) (hreturn : '\r' ∉ c) :
    physicalComments c = [c] := by
  obtain ⟨hfeed, l, htext⟩ : '\n' ∉ c ∧ ∃ l, comment? l = some c := by
    rcases List.mem_append.mp hc with hc | hc
    · apply And.intro
      · intro hfeed
        cases (isComment_sameLine c hc).2 '\n' hfeed
      · exact ⟨_, Option.mem_toList.mp hc⟩
    · apply And.intro
      · obtain ⟨line, hline, htext⟩ := List.mem_filterMap.mp hc
        cases line with
        | blank => cases htext
        | comment text =>
            obtain rfl := Option.some.inj htext
            exact (of_mem_lines hline).2.1
      · rw [ownLineComments_eq] at hc
        obtain ⟨l, -, htext⟩ := List.mem_filterMap.mp hc
        exact ⟨l, htext⟩
  have hline : ∀ d ∈ c, Text.isLineBreak d = false := by
    intro d hd
    cases hbreak : Text.isLineBreak d with
    | false => rfl
    | true =>
        have hcases : d = '\n' ∨ d = '\r' := by simpa [Text.isLineBreak] using hbreak
        rcases hcases with rfl | rfl
        · exact absurd hd hfeed
        · exact absurd hd hreturn
  rw [physicalComments_row hline, comment?_of_comment? htext, Option.toList_some]

/-- The comments read out of trivia are its comments exactly if no line is run together with the one
behind it. -/
theorem comments_eq_physicalComments_iff (t : Text) :
    comments t = physicalComments t ↔ joinsLines t = false := by
  constructor
  · intro h
    cases hjoins : joinsLines t with
    | false => rfl
    | true =>
        obtain ⟨c, hc, hreturn⟩ := (joinsLines_iff t).mp hjoins
        rw [h] at hc
        exact absurd hreturn (not_return_of_mem_physicalComments hc)
  · intro h
    have hone : ∀ c ∈ comments t, physicalComments c = [c] := by
      intro c hc
      apply physicalComments_of_mem_comments hc
      intro hreturn
      rw [(joinsLines_iff t).mpr ⟨c, hc, hreturn⟩] at h
      cases h
    calc
      comments t = (comments t).flatMap fun c => [c] := (List.flatMap_singleton' _).symm
      _ = (comments t).flatMap physicalComments := (List.flatMap_congr hone).symm
      _ = physicalComments t := flatMap_comments t

end Trivia

/-- The comments read out of the trivia of a token, cut where the lexer ends a line, are those that the
lexer skipped on its way to the token, in order and without the white space behind them. They are these
themselves exactly if no line that ends at a line feed goes on behind a comment that a carriage return
ends. -/
theorem comments_tokenize {source : Text} {ts : List Token} (h : tokenize source = .ok ts) :
    ∃ log, tokenizeWithComments source = .ok log ∧ log.map Prod.fst = ts ∧
      ∀ p ∈ log, (Trivia.comments p.1.trivia).flatMap Trivia.physicalComments = trimComments p.2 ∧
        (Trivia.comments p.1.trivia = trimComments p.2 ↔ Trivia.joinsLines p.1.trivia = false) := by
  have herase := (Cursor.ofSource source).map_fst_tokensWithComments []
  obtain ⟨log, hlog, hfst⟩ := exists_of_map_eq_ok (herase.trans h)
  have hread := Cursor.isLog_tokensWithComments (Cursor.logs_nil _ rfl) hlog
  refine ⟨log, hlog, hfst, ?_⟩
  intro p hp
  rw [← hread p hp]
  exact ⟨Trivia.flatMap_comments p.1.trivia, Trivia.comments_eq_physicalComments_iff p.1.trivia⟩

/-- Comments inside of brackets, and two above a line that a carriage return divides. -/
def remarkedSource : Text :=
  "x = (  # a \r\n  # b\n\n  1)\n\n# c\r  # d\ny\n".toList

/-- The last two comments are skipped one by one and read as one. -/
theorem comments_tokenize_remarkedSource :
    ∃ ts log, tokenize remarkedSource = .ok ts ∧ tokenizeWithComments remarkedSource = .ok log ∧
      (log.map fun p => (p.2, Trivia.comments p.1.trivia)).filter (!·.1.isEmpty) =
        [(["# a ", "# b"].map String.toList, ["# a", "# b"].map String.toList),
          (["# c", "# d"].map String.toList, ["# c\r  # d".toList])] ∧
      log.map Prod.fst = ts ∧
      ∀ p ∈ log, (Trivia.comments p.1.trivia).flatMap Trivia.physicalComments = trimComments p.2 ∧
        (Trivia.comments p.1.trivia = trimComments p.2 ↔ Trivia.joinsLines p.1.trivia = false) := by
  have hread : (tokenize remarkedSource).toOption.isSome = true ∧
      (tokenizeWithComments remarkedSource).toOption.map (fun log =>
        (log.map fun p => (p.2, Trivia.comments p.1.trivia)).filter (!·.1.isEmpty)) =
        some [(["# a ", "# b"].map String.toList, ["# a", "# b"].map String.toList),
          (["# c", "# d"].map String.toList, ["# c\r  # d".toList])] := by decide +kernel
  cases htokens : tokenize remarkedSource with
  | error e => simp [htokens, Except.toOption] at hread
  | ok ts =>
      obtain ⟨log, hlog, hfst, hcomments⟩ := comments_tokenize htokens
      have hpairs := hread.2
      rw [hlog] at hpairs
      exact ⟨ts, log, rfl, hlog, Option.some.inj hpairs, hfst, hcomments⟩

end SchemaTidy
