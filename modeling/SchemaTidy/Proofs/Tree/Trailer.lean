import Mathlib.Data.List.TakeWhile
import SchemaTidy.Proofs.Token.FinalLine
import SchemaTidy.Proofs.Tree.Spelling

/-!
# Trailers at the end of a source

What closing markers at the end of a source take of the trivia there. A line feed behind the trivia
changes this in one case only: when the last line is a comment that then trails the outermost block.
-/

namespace SchemaTidy

theorem Text.splitAfter_drop {stop : Char → Bool} {t l : Text} {ls : List Text}
    (h : splitAfter stop t = l :: ls) : splitAfter stop (t.drop l.length) = ls := by
  induction t using rows_induction stop with
  | last row hrow =>
      by_cases hne : row = []
      · simp [hne, splitAfter] at h
      · rw [splitAfter_last hrow hne] at h
        obtain ⟨rfl, rfl⟩ := List.cons.inj h
        simp [splitAfter]
  | cons row d t hrow hd ih =>
      rw [splitAfter_row hrow hd] at h
      obtain ⟨rfl, rfl⟩ := List.cons.inj h
      simp

theorem Text.splitAfter_drop_flatten {stop : Char → Bool} {ls : List Text} {t : Text}
    {ms : List Text} (h : splitAfter stop t = ls ++ ms) :
    splitAfter stop (t.drop ls.flatten.length) = ms := by
  induction ls generalizing t with
  | nil => simpa using h
  | cons l ls ih =>
      have hrest := ih (splitAfter_drop h)
      rwa [List.drop_drop, ← List.length_append, ← List.flatten_cons] at hrest

/-! ## The last line -/

theorem splitAfter_lineFeed {t : Text} (ht : Unterminated t) :
    ∃ (ls : List Text) (row : Text), (∀ c ∈ row, c ≠ '\n') ∧
      Text.splitAfter (· == '\n') t = ls ++ (if row = [] then [] else [row]) ∧
      Text.splitAfter (· == '\n') (t ++ ['\n']) = ls ++ [row ++ ['\n']] := by
  induction t using Text.rows_induction (· == '\n') with
  | last row hrow =>
      refine ⟨[], row, fun c hc => by simpa using hrow c hc, ?_, ?_⟩
      · by_cases hne : row = []
        · simp [hne, Text.splitAfter]
        · simpa [hne] using Text.splitAfter_last hrow hne
      · rw [Text.splitAfter_row hrow rfl]
        rfl
  | cons row d t hrow hd ih =>
      obtain ⟨ls, last, hlast, hsplit, hsplit'⟩ := ih ht.of_append.tail
      refine ⟨(row ++ [d]) :: ls, last, hlast, ?_, ?_⟩
      · rw [Text.splitAfter_row hrow hd, hsplit]
        rfl
      · rw [List.append_assoc, List.cons_append, Text.splitAfter_row hrow hd, hsplit']
        rfl

/-- Whether a line can stand in the trailer of a block. -/
def trails (column : Nat) (line : Text) : Bool := isBlankLine line || isCommentLine column line

/-- The lines of a trailer among the lines of the trivia. -/
def trailerLines (column : Nat) (lines : List Text) : List Text :=
  ((lines.takeWhile (trails column)).reverse.dropWhile isBlankLine).reverse

theorem trailer_eq (column : Nat) (t : Text) :
    trailer column t = (trailerLines column (Text.splitAfter (· == '\n') t)).flatten := rfl

theorem trails_of_unterminated {column : Nat} {row : Text} (hrow : ∀ c ∈ row, c ≠ '\n') :
    trails column row = false := by
  have hlast : (row.getLast? == some '\n') = false := by
    cases h : row.getLast? with
    | none => rfl
    | some c => simpa using hrow c (List.mem_of_getLast? h)
  simp [trails, isBlankLine, isCommentLine, hlast]

theorem isBlankLine_of_isCommentLine {column : Nat} {line : Text}
    (h : isCommentLine column line = true) : isBlankLine line = false := by
  simp only [isCommentLine, Bool.and_eq_true] at h
  unfold isBlankLine
  cases hrest : (Text.trimEnd Text.isLineBreak line).dropWhile Text.isIndent with
  | nil => simp [hrest] at h
  | cons c cs => simp

theorem isCommentLine_of_le {m n : Nat} (h : m ≤ n) {line : Text}
    (hline : isCommentLine n line = true) : isCommentLine m line = true := by
  simp only [isCommentLine, Bool.and_eq_true, decide_eq_true_eq] at hline ⊢
  exact ⟨hline.1, h.trans hline.2⟩

theorem trailerLines_concat_comment {column : Nat} {lines : List Text} {line : Text}
    (hlines : ∀ l ∈ lines, trails column l = true) (hline : isCommentLine column line = true) :
    trailerLines column (lines ++ [line]) = lines ++ [line] := by
  have hall : (lines ++ [line]).takeWhile (trails column) = lines ++ [line] := by
    refine List.takeWhile_eq_self_iff.mpr fun l hl => ?_
    rcases List.mem_append.mp hl with hl | hl
    · exact hlines l hl
    · rw [List.mem_singleton.mp hl, trails, hline, Bool.or_true]
  simp [trailerLines, hall, isBlankLine_of_isCommentLine hline]

theorem trailerLines_concat (column : Nat) (lines : List Text) (line : Text) :
    trailerLines column (lines ++ [line]) = trailerLines column lines ∨
      ((∀ l ∈ lines, trails column l = true) ∧ isCommentLine column line = true) := by
  unfold trailerLines
  rw [List.takeWhile_append]
  split
  · rename_i hlength
    have hall := (List.takeWhile_prefix (trails column)).eq_of_length hlength
    rw [hall]
    cases hcomment : isCommentLine column line with
    | true => exact .inr ⟨List.takeWhile_eq_self_iff.mp hall, rfl⟩
    | false => cases hblank : isBlankLine line <;> simp [trails, hblank, hcomment]
  · exact .inl rfl

theorem trailerLines_concat_of_not {column : Nat} {line : Text} (h : trails column line = false)
    (lines : List Text) : trailerLines column (lines ++ [line]) = trailerLines column lines := by
  rcases trailerLines_concat column lines line with hsame | ⟨-, hcomment⟩
  · exact hsame
  · simp [trails, hcomment] at h

theorem trailerLines_blanks {column : Nat} {lines : List Text}
    (h : ∀ l ∈ lines, isBlankLine l = true) : trailerLines column lines = [] := by
  have htrails : lines.takeWhile (trails column) = lines :=
    List.takeWhile_eq_self_iff.mpr fun l hl => by simp [trails, h l hl]
  rw [trailerLines, htrails, List.reverse_eq_nil_iff, List.dropWhile_eq_nil_iff]
  exact fun l hl => h l (List.mem_reverse.mp hl)

theorem trailerLines_append_blanks {column : Nat} {lines : List Text}
    (h : ∀ l ∈ lines, trails column l = true) :
    ∃ blanks, lines = trailerLines column lines ++ blanks ∧ ∀ l ∈ blanks, isBlankLine l = true := by
  refine ⟨(lines.reverse.takeWhile isBlankLine).reverse, ?_, fun l hl => ?_⟩
  · rw [trailerLines, List.takeWhile_eq_self_iff.mpr h, ← List.reverse_append,
      List.takeWhile_append_dropWhile, List.reverse_reverse]
  · exact List.mem_takeWhile_imp (List.mem_reverse.mp hl)

/-- Only blank lines and an unterminated comment line stand before the end. -/
def Dangles (column : Nat) (t : Text) : Prop :=
  ∃ (blanks : List Text) (row : Text), (∀ l ∈ blanks, isBlankLine l = true) ∧
    (∀ c ∈ row, c ≠ '\n') ∧ Text.splitAfter (· == '\n') t = blanks ++ [row] ∧
    Text.splitAfter (· == '\n') (t ++ ['\n']) = blanks ++ [row ++ ['\n']] ∧
    isCommentLine column (row ++ ['\n']) = true

theorem Dangles.mono {m n : Nat} (h : m ≤ n) {t : Text} (ht : Dangles n t) : Dangles m t := by
  obtain ⟨blanks, row, hblanks, hrow, hsplit, hsplit', hcomment⟩ := ht
  exact ⟨blanks, row, hblanks, hrow, hsplit, hsplit', isCommentLine_of_le h hcomment⟩

theorem Dangles.trailer_eq_nil {column : Nat} {t : Text} (h : Dangles column t) :
    trailer column t = [] := by
  obtain ⟨blanks, row, hblanks, hrow, hsplit, -, -⟩ := h
  rw [trailer_eq, hsplit, trailerLines_concat_of_not (trails_of_unterminated hrow),
    trailerLines_blanks hblanks]
  rfl

theorem Dangles.trailer_lineFeed {column : Nat} {t : Text} (h : Dangles column t) :
    trailer column (t ++ ['\n']) = t ++ ['\n'] := by
  obtain ⟨blanks, row, hblanks, -, -, hsplit, hcomment⟩ := h
  have hflat := Text.flatten_splitAfter (· == '\n') (t ++ ['\n'])
  have hall := trailerLines_concat_comment
    (fun l hl => by rw [trails, hblanks l hl, Bool.true_or]) hcomment
  rw [trailer_eq, hsplit, hall, ← hsplit, hflat]

/-- A line feed leaves a trailer as it is, unless a last comment then ends it. -/
theorem trailer_lineFeed {t : Text} (ht : Unterminated t) (column : Nat) :
    trailer column (t ++ ['\n']) = trailer column t ∨
      Dangles column (t.drop (trailer column t).length) := by
  obtain ⟨ls, row, hrow, hsplit, hsplit'⟩ := splitAfter_lineFeed ht
  have hkept : trailerLines column (Text.splitAfter (· == '\n') t) = trailerLines column ls := by
    rw [hsplit]
    split
    · rw [List.append_nil]
    · exact trailerLines_concat_of_not (trails_of_unterminated hrow) ls
  rcases trailerLines_concat column ls (row ++ ['\n']) with hsame | ⟨htrails, hcomment⟩
  · left
    rw [trailer_eq, hsplit', hsame, trailer_eq, hkept]
  · right
    have hne : row ≠ [] := by
      rintro rfl
      simp [isCommentLine, Text.trimEnd, Text.isLineBreak] at hcomment
    rw [if_neg hne] at hsplit
    obtain ⟨blanks, hls, hblanks⟩ := trailerLines_append_blanks htrails
    have htrailer : trailer column t = (trailerLines column ls).flatten := by rw [trailer_eq, hkept]
    rw [hls, List.append_assoc] at hsplit hsplit'
    have hrest := Text.splitAfter_drop_flatten hsplit
    have hrest' := Text.splitAfter_drop_flatten hsplit'
    rw [← htrailer] at hrest hrest'
    rw [List.drop_append_of_le_length (trailer_isPrefix column t).length_le] at hrest'
    exact ⟨blanks, row, hblanks, hrow, hrest, hrest', hcomment⟩

/-! ## Closing markers -/

/-- The trailers that blocks of the given columns, innermost first, take of some trivia. -/
def trailersOf : List Nat → Text → List Text
  | [], _ => []
  | n :: ns, t => trailer n t :: trailersOf ns (t.drop (trailer n t).length)

def behindTrailers : List Nat → Text → Text
  | [], t => t
  | n :: ns, t => behindTrailers ns (t.drop (trailer n t).length)

theorem Dangles.trailersOf {columns : List Nat} {t : Text} (h : ∀ n ∈ columns, Dangles n t) :
    behindTrailers columns t = t := by
  induction columns with
  | nil => rfl
  | cons n ns ih =>
      rw [behindTrailers, (h n (by simp)).trailer_eq_nil]
      exact ih fun m hm => h m (by simp [hm])

/-- A line feed behind the trivia stays behind all trailers, unless the outermost block would then
take the last comment. -/
theorem trailersOf_lineFeed {columns : List Nat} (hsorted : columns.Pairwise (· > ·)) {t : Text}
    (ht : Unterminated t)
    (hcuts : ∀ n, columns.getLast? = some n →
      trailer n (behindTrailers columns t ++ ['\n']) = []) :
    trailersOf columns (t ++ ['\n']) = trailersOf columns t ∧
      behindTrailers columns (t ++ ['\n']) = behindTrailers columns t ++ ['\n'] := by
  induction columns generalizing t with
  | nil => exact ⟨rfl, rfl⟩
  | cons n ns ih =>
      obtain ⟨hn, hns⟩ := List.pairwise_cons.mp hsorted
      rcases trailer_lineFeed ht n with hsame | hdangles
      · have hdrop : (t ++ ['\n']).drop (trailer n t).length =
            t.drop (trailer n t).length ++ ['\n'] :=
          List.drop_append_of_le_length (trailer_isPrefix n t).length_le
        have hrest := ih hns (ht.drop (trailer n t).length) fun m hm => hcuts m (by
          rw [List.getLast?_cons, hm]
          rfl)
        simp only [trailersOf, behindTrailers, hsame, hdrop]
        exact ⟨by rw [hrest.1], hrest.2⟩
      · -- The last comment dangles below all blocks that are left, so the outermost one takes it.
        exfalso
        have hbehind : behindTrailers (n :: ns) t = t.drop (trailer n t).length := by
          rw [behindTrailers]
          exact Dangles.trailersOf fun m hm => hdangles.mono (hn m hm).le
        obtain ⟨m, hm⟩ : ∃ m, (n :: ns).getLast? = some m := ⟨_, List.getLast?_cons ..⟩
        have hle : m ≤ n := by
          rcases List.mem_cons.mp (List.mem_of_getLast? hm) with rfl | hmem
          · exact le_refl _
          · exact (hn m hmem).le
        have hnil := hcuts m hm
        rw [hbehind, (hdangles.mono hle).trailer_lineFeed] at hnil
        simp at hnil

@[simp] theorem length_trailersOf (columns : List Nat) (t : Text) :
    (trailersOf columns t).length = columns.length := by
  induction columns generalizing t with
  | nil => rfl
  | cons n ns ih => simp [trailersOf, ih]

theorem fillDedents_markers (columns : List Nat) (place : Position) (t : Text) :
    fillDedents (columns.map fun n => (n, Cursor.marker .dedent place)) t =
      ((trailersOf columns t).map fun moved => ⟨.dedent, [], moved, place⟩,
        behindTrailers columns t) := by
  induction columns generalizing t with
  | nil => rfl
  | cons n ns ih =>
      simp only [List.map_cons, fillDedents, ih, trailersOf, behindTrailers, Prod.mk.injEq,
        List.cons.injEq, and_true]
      split
      · rename_i hempty
        rw [List.isEmpty_iff.mp hempty]
        rfl
      · rfl

/-- The markers at the end of a source once they have their trailers. -/
def attachedClosing (columns : List Nat) (place : Position) (t : Text) : List Token :=
  (trailersOf columns t).map (fun moved => ⟨.dedent, [], moved, place⟩) ++
    [⟨.endMarker, [], behindTrailers columns t, place⟩]

theorem attachTrailersFrom_closing (columns : List Nat) (place : Position) (t : Text) :
    attachTrailersFrom columns [] (Cursor.closing columns place t) =
      attachedClosing columns place t := by
  have hrun (opened : List Nat) : ∀ run : List (Nat × Token),
      attachTrailersFrom opened run (opened.map (fun _ => Cursor.marker .dedent place) ++
        [⟨.endMarker, [], t, place⟩]) =
      attachTrailersFrom [] (run ++ opened.map fun n => (n, Cursor.marker .dedent place))
        [⟨.endMarker, [], t, place⟩] := by
    induction opened with
    | nil => simp
    | cons n ns ih =>
        intro run
        have hrest := ih (run ++ [(n, Cursor.marker .dedent place)])
        rw [List.append_assoc] at hrest
        rw [List.map_cons, List.cons_append, attachTrailersFrom, if_pos (by rfl)]
        exact hrest
  rw [Cursor.closing, hrun, List.nil_append]
  simp only [attachTrailersFrom, fillDedents_markers]
  rfl

theorem foldl_columnsAfter_fillDedents (run : List (Nat × Token)) (t : Text) (columns : List Nat) :
    (fillDedents run t).1.foldl columnsAfter columns =
      (run.map Prod.snd).foldl columnsAfter columns := by
  induction run generalizing t columns with
  | nil => rfl
  | cons r run ih =>
      simp only [fillDedents, List.map_cons, List.foldl_cons, ih]
      congr 1
      split <;> rfl

/-- What closing markers in front of some tokens take does not depend on these tokens, except for the
markers `run'` directly before them. -/
theorem attachTrailersFrom_append {before : Option TokenKind} {run : List (Nat × Token)}
    (hrun : before ≠ some .dedent → run = []) (columns : List Nat) (init : List Token) :
    ∃ out run', (kindBehind before init ≠ some .dedent → run' = []) ∧
      (∀ opened, (out ++ run'.map Prod.snd).foldl columnsAfter opened =
        (run.map Prod.snd ++ init).foldl columnsAfter opened) ∧
      ∀ us, attachTrailersFrom columns run (init ++ us) =
        out ++ attachTrailersFrom (init.foldl columnsAfter columns) run' us := by
  induction init generalizing before run columns with
  | nil => exact ⟨[], run, hrun, fun opened => by simp, fun us => rfl⟩
  | cons t ts ih =>
      rw [← List.singleton_append, kindBehind_append]
      cases hdedent : t.kind == .dedent with
      | true =>
          obtain ⟨out, run', hrun', hcolumns, hout⟩ := @ih (some t.kind)
            (run ++ [(columns.headD 0, t)]) (fun h => absurd (by rw [eq_of_beq hdedent]) h)
            columns.tail
          refine ⟨out, run', hrun', fun opened => ?_, fun us => ?_⟩
          · simpa using hcolumns opened
          · rw [List.singleton_append, List.cons_append, attachTrailersFrom, if_pos hdedent, hout,
              List.foldl_cons, columnsAfter, if_pos hdedent]
      | false =>
          obtain ⟨out, run', hrun', hcolumns, hout⟩ := @ih (some t.kind) [] (fun _ => rfl)
            (columnsAfter columns t)
          refine ⟨(fillDedents run t.trivia).1 ++
            { t with trivia := (fillDedents run t.trivia).2 } :: out, run', hrun',
            fun opened => ?_, fun us => ?_⟩
          · have hrest := hcolumns (columnsAfter ((run.map Prod.snd).foldl columnsAfter opened) t)
            simp only [List.map_nil, List.nil_append, List.foldl_append, List.foldl_cons,
              List.foldl_nil, foldl_columnsAfter_fillDedents] at hrest ⊢
            exact hrest
          · rw [List.singleton_append, List.cons_append, attachTrailersFrom, hdedent]
            simp only [Bool.false_eq_true, if_false, List.foldl_cons]
            rw [List.append_assoc, List.cons_append, ← hout]
            simp only [columnsAfter, hdedent, Bool.false_eq_true, if_false]

end SchemaTidy
