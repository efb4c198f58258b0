import SchemaTidy.Proofs.Token.Offset
import SchemaTidy.Proofs.Tree.Woven

/-!
# Indentation of logical lines

A word that begins a logical line stands behind blank and comment lines, the indentation of its line and
line continuations. The width of that indentation is the column of the innermost open block: the markers
in front of the word have opened and closed blocks to make it so, and a block that is opened is deeper
than the one it stands in.
-/

namespace SchemaTidy

/-- Blank and comment lines, with their terminators. -/
inductive TriviaRows : Text → Prop where
  | nil : TriviaRows []
  | row {row lb rest : Text} (hrow : IsTriviaRow row) (hlb : IsBreak lb) (hrest : TriviaRows rest) :
      TriviaRows (row ++ (lb ++ rest))

/-- What stands between the logical line before and the first word of a line: blank and comment lines,
an indentation of the given width, and continuations of the line. -/
def BeginsLine (width : Nat) (before : Text) : Prop :=
  ∃ rows indentation joints, before = rows ++ (indentation ++ joints) ∧ TriviaRows rows ∧
    (∀ c ∈ indentation, Text.isIndent c = true) ∧ Text.indentWidth indentation = width ∧
    isContinued joints = true ∧ ∀ c, joints.head? = some c → Text.isIndent c = false

/-- What has been read since a logical line ended, behind one more token. Inside of a line there is
nothing to tell. -/
def gatheredAfter (gathered : Option Text) (t : Token) : Option Text :=
  match t.kind with
  | .newline => some []
  | .indent | .dedent => gathered.map (· ++ t.source)
  | _ => none

/-- Words that begin lines stand at the column of the innermost open block, and blocks are opened to
the right of it. -/
def LinesOpen : List Nat → Option Text → List Token → Prop
  | _, _, [] => True
  | columns, gathered, t :: ts =>
      (∀ before, gathered = some before → t.kind.isWord = true →
        BeginsLine (columns.headD 0) (before ++ t.trivia)) ∧
      (t.kind = .indent → columns.headD 0 < t.position.column - 1) ∧
      LinesOpen (columnsAfter columns t) (gatheredAfter gathered t) ts

theorem linesOpen_append {columns : List Nat} {gathered : Option Text} {ts us : List Token} :
    LinesOpen columns gathered (ts ++ us) ↔ LinesOpen columns gathered ts ∧
      LinesOpen (ts.foldl columnsAfter columns) (ts.foldl gatheredAfter gathered) us := by
  induction ts generalizing columns gathered with
  | nil => simp [LinesOpen]
  | cons t ts ih => simp only [List.cons_append, LinesOpen, List.foldl_cons, ih, and_assoc]

theorem linesOpen_of_layout {columns : List Nat} {gathered : Option Text} {ts : List Token}
    (hts : ∀ t ∈ ts, t.kind.isWord = false ∧ t.kind ≠ .indent) :
    LinesOpen columns gathered ts := by
  induction ts generalizing columns gathered with
  | nil => trivial
  | cons t ts ih =>
      obtain ⟨hword, hindent⟩ := hts t (by simp)
      refine ⟨fun before _ hkind => ?_, fun hkind => absurd hkind hindent,
        ih fun u hu => hts u (by simp [hu])⟩
      rw [hword] at hkind
      cases hkind

theorem foldl_gatheredAfter_markers {gathered : Option Text} {ts : List Token}
    (hts : ∀ t ∈ ts, t.kind = .indent ∨ t.kind = .dedent) :
    ts.foldl gatheredAfter gathered = gathered.map (· ++ spell ts) := by
  induction ts generalizing gathered with
  | nil => cases gathered <;> simp
  | cons t ts ih =>
      have ht : gatheredAfter gathered t = gathered.map (· ++ t.source) := by
        rcases hts t (by simp) with hkind | hkind <;> simp [gatheredAfter, hkind]
      rw [List.foldl_cons, ih fun u hu => hts u (by simp [hu]), ht, Option.map_map]
      simp [Function.comp_def]

/-! ## Rows and continuations -/

theorem isContinued_append {a b : Text} (ha : isContinued a = true) (hb : isContinued b = true) :
    isContinued (a ++ b) = true := by
  fun_induction isContinued a with
  | case1 => exact hb
  | case2 cs ih => exact ih ha
  | case3 c cs hnext ih =>
      rw [Bool.and_eq_true] at ha
      rw [List.cons_append, List.cons_append, isContinued, ha.1, ih ha.2]
      · rfl
      · intro rest hc hrest
        cases cs with
        | nil =>
            rw [List.nil_append] at hrest
            subst hrest
            simp [isContinued, Text.isIndent] at hb
        | cons d cs => exact hnext cs hc (by simpa using congrArg (List.take 1) hrest)
  | case4 c cs _ _ ih =>
      rw [Bool.and_eq_true] at ha
      have hc : ∀ d ∈ [c], Text.isIndent d = true := by simpa using ha.1
      exact (isContinued_blanks hc _).trans (ih ha.2)

theorem isContinued_break {lb : Text} (hlb : IsBreak lb) : isContinued ('\\' :: lb) = true := by
  rcases hlb with rfl | rfl | rfl <;> decide

/-- Blank and comment lines before a line that goes on are whole. -/
theorem triviaRows_take (t : Text) (h : t.drop (triviaLinesLength t) ≠ []) :
    TriviaRows (t.take (triviaLinesLength t)) := by
  by_cases hline : isTriviaLine (t.take (firstLineLength t)) = true
  · rcases exists_firstLine hline with ⟨row, lb, r, hsplit, hrow, hlb, hr⟩ | ⟨-, hlength⟩
    · have hpos := hlb.length_pos
      have hlength := congrArg List.length hsplit
      rw [hsplit] at h ⊢
      rw [triviaLinesLength_row hrow hlb hr, ← List.append_assoc, ← List.drop_drop,
        List.drop_left] at h
      have hrest := triviaRows_take r h
      rw [triviaLinesLength_row hrow hlb hr, ← List.append_assoc, List.take_length_add_append,
        List.append_assoc]
      exact .row hrow hlb hrest
    · have hne : t ≠ [] := by
        rintro rfl
        simp at h
      rw [triviaLinesLength, dif_neg hne, if_pos hline, hlength, List.drop_length] at h
      simp [triviaLinesLength] at h
  · rw [triviaLinesLength_eq_zero hline]
    exact .nil
termination_by t.length
decreasing_by simp only [List.length_append] at hlength; omega

/-! ## Along a source -/

/-- A line that has begun but holds no word yet: either nothing but its end can follow, or a word may
begin it. -/
def Begun (width : Nat) (trivia rest : Text) : Prop :=
  AtBreak rest ∨ ∃ rows indentation joints, trivia = rows ++ (indentation ++ joints) ∧
    TriviaRows rows ∧ (∀ c ∈ indentation, Text.isIndent c = true) ∧
    Text.indentWidth indentation = width ∧ isContinued joints = true ∧
    ∀ c, (joints ++ rest).head? = some c → Text.isIndent c = false

theorem Begun.beginsLine {width : Nat} {trivia rest : Text} {c : Char}
    (h : Begun width trivia (c :: rest)) (hc : Text.isLineBreak c = false) :
    BeginsLine width trivia := by
  rcases h with hbreak | ⟨rows, indentation, joints, htrivia, hrows, hblank, hwidth, hjoints, hhead⟩
  · rw [hbreak c rfl] at hc
    cases hc
  · refine ⟨rows, indentation, joints, htrivia, hrows, hblank, hwidth, hjoints, fun d hd => ?_⟩
    exact hhead d (by rw [List.head?_append, hd, Option.some_or])

theorem Begun.append {width : Nat} {trivia piece rest : Text}
    (h : Begun width trivia (piece ++ rest)) (hpiece : TriviaPiece piece rest)
    (hbreak : ∀ c, piece.head? = some c → Text.isLineBreak c = false) :
    Begun width (trivia ++ piece) rest := by
  have hne : piece ≠ [] := by
    cases hpiece with
    | indent | continuation | comment => simp
    | lineBreak hlb => exact List.ne_nil_of_length_pos hlb.length_pos
  obtain ⟨d, ds, rfl⟩ := List.exists_cons_of_ne_nil hne
  have hd := hbreak d rfl
  rcases h with hend | ⟨rows, indentation, joints, rfl, hrows, hblank, hwidth, hjoints, hhead⟩
  · rw [hend d rfl] at hd
    cases hd
  cases hpiece with
  | comment hrow hrest => exact .inl hrest
  | lineBreak hlb =>
      rcases hlb with hlb | hlb | hlb <;> · obtain ⟨rfl, -⟩ := List.cons.inj hlb; cases hd
  | indent hc =>
      -- The indentation has been passed over, so a blank belongs to a continued line.
      cases joints with
      | nil =>
          have hc' := hhead d (by simp)
          rw [hc] at hc'
          cases hc'
      | cons e joints =>
          refine .inr ⟨rows, indentation, e :: joints ++ [d], by simp, hrows, hblank, hwidth,
            isContinued_append hjoints ?_, fun c hc' => hhead c (by simpa using hc')⟩
          have hblank : ∀ c ∈ [d], Text.isIndent c = true := by simpa using hc
          exact (isContinued_blanks hblank []).trans rfl
  | continuation hlb =>
      refine .inr ⟨rows, indentation, joints ++ '\\' :: ds, by simp, hrows, hblank, hwidth,
        isContinued_append hjoints (isContinued_break hlb), fun c hc => ?_⟩
      cases joints with
      | nil =>
          obtain rfl : '\\' = c := by simpa using hc
          decide
      | cons e joints => exact hhead c (by simpa using hc)

theorem Lexeme.not_isLineBreak_of_scan {here : Position} {c : Char} {cs : Text} {n : Nat}
    (h : scan false here c cs = .ok (.trivia, n)) : Text.isLineBreak c = false := by
  by_contra hbreak
  rw [Bool.not_eq_false] at hbreak
  have hcases : c = '\n' ∨ c = '\r' := by simpa [Text.isLineBreak] using hbreak
  rcases hcases with rfl | rfl <;> simp [scan, Text.isIndent, Text.isLineBreak] at h

namespace Cursor

variable {c c' : Cursor} {gathered : Option Text} {ts : List Token}

/-- What the lexer knows about a line that holds no word yet. -/
structure OpensLine (gathered : Option Text) (c : Cursor) : Prop where
  start : c.lineStart = true → c.trivia = []
  bare : ∀ before, gathered = some before → before = [] ∧ c.brackets = []
  begun : ∀ before, gathered = some before → c.lineStart = false →
    Begun (c.indents.headD 0) c.trivia c.rest

theorem headD_indentTo {width : Nat} (h : c.indentTo width = .ok (ts, c')) :
    c'.indents.headD 0 = width := by
  simp only [indentTo] at h
  split at h
  · cases h
    rfl
  split at h
  · split at h
    · rename_i hwidth
      cases h
      exact eq_of_beq hwidth
    · cases h
  · cases h
    omega

theorem linesOpen_indentTo {width : Nat} (h : c.indentTo width = .ok (ts, c')) :
    LinesOpen c.indents gathered ts := by
  simp only [indentTo] at h
  split at h
  · rename_i hopens
    cases h
    refine ⟨fun _ _ hword => ?_, fun _ => ?_, trivial⟩
    · cases hword
    · simpa [marker] using hopens
  split at h
  · split at h
    · cases h
      refine linesOpen_of_layout fun t ht => ?_
      obtain ⟨_, _, rfl⟩ := List.mem_map.mp ht
      simp [marker, TokenKind.isWord]
    · cases h
  · cases h
    trivial

theorem brackets_indentTo {width : Nat} (h : c.indentTo width = .ok (ts, c')) :
    c'.brackets = c.brackets ∧ c'.trivia = c.trivia ∧ c'.lineStart = c.lineStart := by
  simp only [indentTo] at h
  split at h
  · cases h
    exact ⟨rfl, rfl, rfl⟩
  split at h
  · split at h
    · cases h
      exact ⟨rfl, rfl, rfl⟩
    · cases h
  · cases h
    exact ⟨rfl, rfl, rfl⟩

/-- A line that is entered has passed over whole lines and over its indentation. -/
theorem begun_atLine (htrivia : c.trivia = []) (hrest : c.atLine.rest ≠ []) :
    Begun (Text.indentWidth c.beforeLine.rest) c.atLine.trivia c.atLine.rest := by
  have htake := Text.take_lengthWhile Text.isIndent c.beforeLine.rest
  have hdrop : c.atLine.rest = c.beforeLine.rest.dropWhile Text.isIndent :=
    Text.drop_lengthWhile Text.isIndent c.beforeLine.rest
  have hlines : c.rest.drop (triviaLinesLength c.rest) ≠ [] := by
    intro hnil
    have hnil : c.beforeLine.rest = [] := hnil
    rw [hdrop, hnil] at hrest
    exact hrest rfl
  have hblank : ∀ d ∈ c.beforeLine.rest.takeWhile Text.isIndent, Text.isIndent d = true :=
    fun d hd => List.mem_takeWhile_imp hd
  refine .inr ⟨_, _, [], ?_, triviaRows_take c.rest hlines, hblank, ?_, rfl, fun d hd => ?_⟩
  · show (c.trivia ++ c.rest.take (triviaLinesLength c.rest)) ++ _ = _
    rw [htrivia, htake, List.nil_append, List.append_nil]
  · unfold Text.indentWidth
    rw [List.takeWhile_eq_self_iff.mpr hblank]
  · have hhead := List.head?_dropWhile_not Text.isIndent c.beforeLine.rest
    rw [List.nil_append, hdrop] at hd
    rw [hd] at hhead
    simpa using hhead

theorem opensLine_enterLine (hc : c.OpensLine gathered) (h : c.enterLine = .ok (ts, c')) :
    LinesOpen c.indents gathered ts ∧
      (c'.rest ≠ [] → c'.lineStart = false ∧ c'.OpensLine (ts.foldl gatheredAfter gathered)) := by
  have hmarkers := markers_enterLine h
  have hgathered : ts.foldl gatheredAfter gathered = gathered := by
    rw [foldl_gatheredAfter_markers fun t ht => (hmarkers t ht).2,
      spell_eq_nil fun t ht => (hmarkers t ht).1]
    cases gathered <;> simp
  rw [hgathered]
  cases hstart : c.lineStart with
  | false =>
      rw [enterLine_of_not_lineStart hstart] at h
      cases h
      exact ⟨trivial, fun _ => ⟨hstart, hc⟩⟩
  | true =>
      by_cases hrest : c.atLine.rest = []
      · rw [enterLine_of_end hstart hrest] at h
        cases h
        exact ⟨trivial, fun hne => absurd hrest hne⟩
      rw [enterLine_of_line hstart hrest] at h
      have hbegun := begun_atLine (hc.start hstart) hrest
      obtain ⟨hbrackets, htrivia, hline⟩ := brackets_indentTo h
      have hline : c'.lineStart = false := hline
      refine ⟨linesOpen_indentTo (c := c.atLine.inLine) h, fun _ => ⟨hline, ?_, ?_, ?_⟩⟩
      · simp [hline]
      · exact fun before hbefore => ⟨(hc.bare before hbefore).1,
          hbrackets.trans (hc.bare before hbefore).2⟩
      · intro _ _ _
        rw [headD_indentTo h, htrivia, rest_indentTo h]
        exact hbegun

theorem opensLine_advance {ch : Char} {cs : Text} {t : Option Token} (hc : c.OpensLine gathered)
    (hstart : c.lineStart = false) (hrest : c.rest = ch :: cs)
    (h : c.advance ch cs = .ok (t, c')) :
    LinesOpen c.indents gathered t.toList ∧
      c'.OpensLine (t.toList.foldl gatheredAfter gathered) := by
  unfold advance at h
  split at h
  · cases h
  · rename_i n hscan
    cases h
    refine ⟨trivial, ⟨fun hstart' => ?_, hc.bare, fun before hbefore _ => ?_⟩⟩
    · exact absurd (hstart'.symm.trans hstart) (by simp)
    obtain ⟨rfl, hbrackets⟩ := hc.bare before hbefore
    have hbegun := hc.begun [] hbefore hstart
    rw [hbrackets] at hscan
    have hpiece := Lexeme.triviaPiece_of_scan hscan
    have hsplit : c.rest = (ch :: cs.take n) ++ cs.drop n := by
      rw [hrest, List.cons_append, List.take_append_drop]
    rw [hsplit] at hbegun
    have hnext := hbegun.append hpiece (by simpa using Lexeme.not_isLineBreak_of_scan hscan)
    simpa [skip, hrest] using hnext
  · rename_i kind n hscan
    split at h
    · cases h
    · rename_i brackets haccount
      cases h
      have hkind := Lexeme.scan_kind hscan
      refine ⟨⟨fun before hbefore hword => ?_, fun hindent => ?_, trivial⟩, ?_⟩
      · -- A word does not begin with a line break.
        have hne : kind ≠ .newline := by
          rintro rfl
          cases hword
        obtain ⟨d, ds, hds, ⟨-, -, hbreak⟩, -⟩ := (Lexeme.cuts_of_scan hscan hne).head
        obtain ⟨rfl, -⟩ := List.cons.inj hds
        obtain ⟨rfl, -⟩ := hc.bare before hbefore
        have hbegun := hc.begun [] hbefore hstart
        rw [hrest] at hbegun
        exact hbegun.beginsLine hbreak
      · have hindent : kind = .indent := hindent
        simp [hindent] at hkind
      · by_cases hnewline : kind = .newline
        · subst hnewline
          obtain ⟨houtside, -⟩ := Lexeme.scan_newline hscan
          have hbrackets : c.brackets = [] := by simpa using houtside
          have hsame : c.brackets = brackets := by simpa using haccount
          refine ⟨fun _ => rfl, fun before hbefore => ?_, fun _ _ hline => by cases hline⟩
          exact ⟨(Option.some.inj hbefore).symm, hsame ▸ hbrackets⟩
        · have hnone : gatheredAfter gathered (c.take kind (n + 1)).1 = none := by
            rcases hkind with rfl | rfl | rfl | rfl | rfl <;> first | rfl | exact absurd rfl hnewline
          refine ⟨fun _ => rfl, fun before hbefore => ?_, fun before hbefore => ?_⟩ <;>
            · have hsome := hnone.symm.trans hbefore
              cases hsome

theorem linesOpen_finish (hrest : c.rest = []) (h : c.finish = .ok ts) :
    LinesOpen c.indents gathered ts := by
  refine linesOpen_of_layout fun t ht => ?_
  have hclosing {columns : List Nat} {place : Position} {trivia : Text}
      (ht : t ∈ closing columns place trivia) : t.kind.isWord = false ∧ t.kind ≠ .indent := by
    rcases List.mem_append.mp ht with ht | ht
    · obtain ⟨_, _, rfl⟩ := List.mem_map.mp ht
      simp [marker, TokenKind.isWord]
    · obtain rfl := List.mem_singleton.mp ht
      simp [TokenKind.isWord]
  rcases (finish_eq_ok hrest h).2 with ⟨-, place, rfl⟩ | ⟨-, rfl⟩
  · rcases List.mem_cons.mp ht with rfl | ht
    · simp [TokenKind.isWord]
    · exact hclosing ht
  · exact hclosing ht

theorem linesOpen_tokens (hc : c.OpensLine gathered) (h : c.tokens = .ok ts) :
    LinesOpen c.indents gathered ts := by
  fun_induction tokens c generalizing gathered ts with
  | case1 c e hl => cases h
  | case2 c markers c₁ hl hr =>
      obtain ⟨us, hus, rfl⟩ := exists_of_map_eq_ok h
      refine linesOpen_append.mpr ⟨(opensLine_enterLine hc hl).1, ?_⟩
      rw [← (follows_enterLine hl).indents]
      exact linesOpen_finish hr hus
  | case3 c markers c₁ hl ch cs hr e ha => cases h
  | case4 c markers c₁ hl ch cs hr t c₂ ha ih =>
      obtain ⟨us, hus, rfl⟩ := exists_of_map_eq_ok h
      obtain ⟨hmarkers, hnext⟩ := opensLine_enterLine hc hl
      obtain ⟨hstart, hc₁⟩ := hnext (by simp [hr])
      obtain ⟨ht, hc₂⟩ := opensLine_advance hc₁ hstart hr ha
      have hrest := ih hc₂ hus
      rw [List.append_assoc]
      refine linesOpen_append.mpr ⟨hmarkers, ?_⟩
      rw [← (follows_enterLine hl).indents]
      refine linesOpen_append.mpr ⟨ht, ?_⟩
      rwa [← (follows_advance ha).indents]

end Cursor

/-- The lines of a source stand at the columns that its markers tell. -/
theorem linesOpen_tokenize {source : Text} {ts : List Token} (h : tokenize source = .ok ts) :
    LinesOpen [] (some []) ts := by
  refine Cursor.linesOpen_tokens (c := .ofSource source) ⟨fun _ => rfl, ?_, ?_⟩ h
  · rintro before hbefore
    exact ⟨(Option.some.inj hbefore).symm, rfl⟩
  · intro _ _ hstart
    cases hstart

end SchemaTidy
