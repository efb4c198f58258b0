import SchemaTidy.Diff.Unified

/-!
# Unified diffs are read back

A reader of unified diffs, written without regard to how they are printed: lines are cut at their
terminators, a hint takes the terminator off the line in front of it, ranges are decimal numbers, and
every other line of a hunk starts with its mark. What is printed for a list of hunks is read as these.
-/

namespace SchemaTidy

/-- A hunk as it is read, with its ranges counted from zero and each line apart from its mark. -/
structure PatchHunk where
  old : Nat
  oldLength : Nat
  new : Nat
  newLength : Nat
  lines : List (Char × Text)
deriving DecidableEq

/-- A unified diff as it is read. -/
structure Patch where
  fromLabel : Text
  toLabel : Text
  hunks : List PatchHunk
deriving DecidableEq

namespace Patch

/-- The line that says that the one in front of it has no terminator. -/
def hint : Text := "\\ No newline at end of file\n".toList

/-- The marks of lines in hunks: kept, removed and added. -/
def marks : List Char := [' ', '-', '+']

/-- Lines without hints. The line in front of a hint loses its terminator, which belongs to the diff. -/
def dropHints : List Text → List Text
  | line :: next :: rest =>
      if next = hint then line.dropLast :: dropHints rest else line :: dropHints (next :: rest)
  | lines => lines

def readNumber (t : Text) : Option (Nat × Text) :=
  let digits := t.takeWhile Char.isDigit
  if digits.isEmpty then none
  else some (Nat.ofDigitChars 10 digits 0, t.dropWhile Char.isDigit)

/-- A range and what is behind it: where it starts, counted from zero, and its length, which is one if
it is not there. A range without lines gives the number of the line in front of it. -/
def readRange (t : Text) : Option (Nat × Nat × Text) := do
  let (n, rest) ← readNumber t
  match rest with
  | ',' :: rest =>
      let (length, rest) ← readNumber rest
      return (if length = 0 then n else n - 1, length, rest)
  | _ => return (n - 1, 1, rest)

def readHead (line : Text) : Option PatchHunk := do
  let rest ← Text.after? "@@ -".toList line
  let (old, oldLength, rest) ← readRange rest
  let rest ← Text.after? " +".toList rest
  let (new, newLength, rest) ← readRange rest
  if rest = " @@\n".toList then return ⟨old, oldLength, new, newLength, []⟩ else none

/-- The lines in front of the first head, and the hunks behind them. -/
def readBody : List Text → Option (List (Char × Text) × List PatchHunk)
  | [] => some ([], [])
  | line :: rest => do
      let (lines, hunks) ← readBody rest
      match line with
      | '@' :: _ =>
          let head ← readHead line
          return ([], { head with lines := lines } :: hunks)
      | mark :: line => if mark ∈ marks then return ((mark, line) :: lines, hunks) else none
      | [] => none

def read? (diff : Text) : Option Patch :=
  match dropHints (Text.lines diff) with
  | fromLine :: toLine :: body => do
      let fromLabel ← Text.after? "--- ".toList fromLine
      let toLabel ← Text.after? "+++ ".toList toLine
      let (lines, hunks) ← readBody body
      if lines.isEmpty then return ⟨fromLabel.dropLast, toLabel.dropLast, hunks⟩ else none
  | _ => none

end Patch

/-! ## Lines -/

namespace Text

/-- A line without its terminator, which may be missing. -/
def IsRow (row : Text) : Prop := ∀ c ∈ row, isLineBreak c = false

instance (row : Text) : Decidable (IsRow row) := List.decidableBAll _ row

theorem IsRow.nil : IsRow [] := List.forall_mem_nil _

theorem IsRow.cons {c : Char} {row : Text} (hc : isLineBreak c = false) (h : IsRow row) :
    IsRow (c :: row) :=
  List.forall_mem_cons.mpr ⟨hc, h⟩

theorem IsRow.append {a b : Text} (ha : IsRow a) (hb : IsRow b) : IsRow (a ++ b) :=
  List.forall_mem_append.mpr ⟨ha, hb⟩

def terminators : List Text := [['\n'], ['\r', '\n'], ['\r']]

theorem exists_row_of_mem_lines {t l : Text} (h : l ∈ lines t) :
    ∃ row term, l = row ++ term ∧ IsRow row ∧ (term = [] ∨ term ∈ terminators) := by
  fun_induction lines t generalizing l with
  | case1 => cases h
  | case2 cs ih =>
      rcases List.mem_cons.mp h with rfl | h
      · exact ⟨[], ['\r', '\n'], rfl, .nil, .inr (by simp [terminators])⟩
      · exact ih h
  | case3 c cs _ hc ih =>
      rcases List.mem_cons.mp h with rfl | h
      · refine ⟨[], [c], rfl, .nil, .inr ?_⟩
        simp only [isLineBreak, Bool.or_eq_true, beq_iff_eq] at hc
        rcases hc with rfl | rfl <;> simp [terminators]
      · exact ih h
  | case4 c cs _ hc hnil ih =>
      rw [List.mem_singleton] at h
      refine ⟨[c], [], by rw [h]; rfl, fun d hd => ?_, .inl rfl⟩
      rw [List.mem_singleton.mp hd]
      simpa using hc
  | case5 c cs _ hc l' ls hls ih =>
      rw [hls] at ih
      rcases List.mem_cons.mp h with rfl | h
      · obtain ⟨row, term, rfl, hrow, hterm⟩ := ih (List.mem_cons_self ..)
        exact ⟨c :: row, term, rfl, .cons (by simpa using hc) hrow, hterm⟩
      · exact ih (List.mem_cons_of_mem _ h)

theorem lines_row {row term rest : Text} (hrow : IsRow row) (hterm : term ∈ terminators)
    (hrest : rest.head? ≠ some '\n') : lines (row ++ term ++ rest) = (row ++ term) :: lines rest := by
  induction row with
  | nil =>
      simp only [terminators, List.mem_cons, List.not_mem_nil, or_false] at hterm
      rcases hterm with rfl | rfl | rfl
      · rfl
      · rfl
      · cases rest with
        | nil => rfl
        | cons c rest =>
            rw [List.nil_append, List.singleton_append, lines]
            · rfl
            · rintro rest' - hc
              cases hc
              exact hrest rfl
  | cons c row ih =>
      have hc : isLineBreak c = false := hrow c (by simp)
      have hrest' := ih fun d hd => hrow d (by simp [hd])
      rw [List.cons_append, List.cons_append, lines, hrest', hc]
      · rfl
      · rintro cs rfl
        simp [isLineBreak] at hc

theorem after?_append (lead rest : Text) : after? lead (lead ++ rest) = some rest := by
  rw [after?, if_pos (List.isPrefixOf_iff_prefix.mpr (List.prefix_append ..)), List.drop_left]

end Text

namespace Patch

open Text

/-! ## Lines and hints -/

/-- A line of a diff in front of its hint: a first character that neither ends a line nor starts a
hint, the rest of the row, and a terminator that may be missing. -/
def IsItem (l : Text) : Prop :=
  ∃ c row term, l = c :: row ++ term ∧ c ≠ '\\' ∧ IsRow (c :: row) ∧
    (term = [] ∨ term ∈ terminators)

theorem hint_eq : hint = ('\\' :: hint.tail.dropLast) ++ ['\n'] := rfl

theorem head?_hint_append (rest : Text) : (hint ++ rest).head? = some '\\' := rfl

/-- The lines that a diff has for a line: a hint follows one without a terminator. -/
def hinted (l : Text) : List Text :=
  if l.getLast?.any isLineBreak then [l] else [l ++ ['\n'], hint]

theorem getLast?_any_of_terminators {term : Text} (h : term ∈ terminators) (l : Text) :
    (l ++ term).getLast?.any isLineBreak = true := by
  simp only [terminators, List.mem_cons, List.not_mem_nil, or_false] at h
  rcases h with rfl | rfl | rfl <;> simp [isLineBreak]

theorem getLast?_any_of_isRow {row : Text} (h : IsRow row) :
    row.getLast?.any isLineBreak = false := by
  cases hlast : row.getLast? with
  | none => rfl
  | some c => exact h c (List.mem_of_getLast? hlast)

theorem lines_hinted {l rest : Text} (h : IsItem l) (hrest : rest.head? ≠ some '\n') :
    lines ((hinted l).flatten ++ rest) = hinted l ++ lines rest := by
  obtain ⟨c, row, term, rfl, -, hrow, rfl | hterm⟩ := h
  · have hhint : lines (hint ++ rest) = hint :: lines rest := by
      have hbody : IsRow hint.dropLast := by decide
      have hend : ['\n'] ∈ terminators := by simp [terminators]
      exact lines_row hbody hend hrest
    rw [List.append_nil, hinted, getLast?_any_of_isRow hrow]
    simp only [Bool.false_eq_true, if_false, List.flatten_cons, List.flatten_nil, List.append_nil]
    rw [List.append_assoc, lines_row hrow (by simp [terminators]) (by rw [head?_hint_append]; decide), hhint]
    rfl
  · rw [hinted, getLast?_any_of_terminators hterm]
    simpa using lines_row hrow hterm hrest

theorem head?_hinted {l : Text} (h : IsItem l) (rest : List Text) :
    (hinted l ++ rest).flatten.head? ≠ some '\n' := by
  obtain ⟨c, row, term, rfl, -, hrow, -⟩ := h
  have hc := hrow c (by simp)
  unfold hinted
  split <;>
  · simp only [List.cons_append, List.flatten_cons, List.head?_cons]
    rintro ⟨⟩
    simp [isLineBreak] at hc

theorem lines_flatten_hinted {ls : List Text} (h : ∀ l ∈ ls, IsItem l) :
    lines (ls.flatMap hinted).flatten = ls.flatMap hinted := by
  induction ls with
  | nil => rfl
  | cons l ls ih =>
      have hls := ih fun l' hl' => h l' (by simp [hl'])
      rw [List.flatMap_cons, List.flatten_append, lines_hinted (h l (by simp)), hls]
      cases ls with
      | nil => nofun
      | cons l' ls => exact head?_hinted (h l' (by simp)) _

theorem exists_hinted_cons {l : Text} (h : IsItem l) :
    ∃ next rest, hinted l = next :: rest ∧ next ≠ hint := by
  obtain ⟨c, row, term, rfl, hc, -, -⟩ := h
  have hne (rest : Text) : c :: rest ≠ hint := by
    rw [hint_eq]
    rintro ⟨⟩
    exact hc rfl
  unfold hinted
  split
  · exact ⟨_, _, rfl, hne _⟩
  · exact ⟨_, _, rfl, hne _⟩

theorem dropHints_hinted {ls : List Text} (h : ∀ l ∈ ls, IsItem l) :
    dropHints (ls.flatMap hinted) = ls := by
  induction ls with
  | nil => rfl
  | cons l ls ih =>
      have hls := ih fun l' hl' => h l' (by simp [hl'])
      rw [List.flatMap_cons, hinted]
      split
      · cases ls with
        | nil => rfl
        | cons l' ls =>
            obtain ⟨next, rest, hnext, hne⟩ := exists_hinted_cons (h l' (by simp))
            rw [List.flatMap_cons, hnext] at hls ⊢
            rw [List.singleton_append, List.cons_append, dropHints, if_neg hne, ← List.cons_append, hls]
      · rw [List.cons_append, List.singleton_append, dropHints, if_pos rfl, List.dropLast_concat, hls]

/-! ## Ranges and heads -/

theorem readNumber_toString (n : Nat) {rest : Text} (h : ∀ c ∈ rest.head?, c.isDigit = false) :
    readNumber ((toString n).toList ++ rest) = some (n, rest) := by
  have hdigits : ∀ c ∈ (toString n).toList, c.isDigit = true := by
    rw [Nat.toString_eq_ofList_toDigits, String.toList_ofList]
    exact fun c hc => Nat.isDigit_of_mem_toDigits (by decide) (by decide) hc
  have hne : (toString n).toList ≠ [] := by
    rw [Nat.toString_eq_ofList_toDigits, String.toList_ofList]
    exact Nat.toDigits_ne_nil
  have htake : rest.takeWhile Char.isDigit = [] := by
    cases rest with
    | nil => rfl
    | cons c rest => rw [List.takeWhile_cons, h c rfl]; rfl
  have hdrop : rest.dropWhile Char.isDigit = rest := by
    cases rest with
    | nil => rfl
    | cons c rest => rw [List.dropWhile_cons, h c rfl]; rfl
  rw [readNumber, List.takeWhile_append_of_pos hdigits, List.dropWhile_append_of_pos hdigits, htake,
    hdrop, List.append_nil]
  rw [Nat.toString_eq_ofList_toDigits, String.toList_ofList] at hne ⊢
  simp [hne, Nat.ofDigitChars_ten_toDigits]

theorem readRange_single (n : Nat) {rest : Text}
    (h : ∀ c ∈ rest.head?, c.isDigit = false ∧ c ≠ ',') :
    readRange ((toString n).toList ++ rest) = some (n - 1, 1, rest) := by
  rw [readRange, readNumber_toString n fun c hc => (h c hc).1, Option.bind_eq_bind, Option.bind_some]
  simp only
  split
  · exact absurd rfl (h ',' rfl).2
  · rfl

theorem readRange_pair (n length : Nat) {rest : Text} (h : ∀ c ∈ rest.head?, c.isDigit = false) :
    readRange ((toString n).toList ++ ',' :: ((toString length).toList ++ rest)) =
      some (if length = 0 then n else n - 1, length, rest) := by
  rw [readRange, readNumber_toString n (by rintro _ ⟨⟩; rfl), Option.bind_eq_bind, Option.bind_some]
  simp only
  rw [readNumber_toString length h]
  rfl

theorem readRange_rangeText (start stop : Nat) {rest : Text}
    (h : ∀ c ∈ rest.head?, c.isDigit = false ∧ c ≠ ',') :
    readRange (rangeText start stop ++ rest) = some (start, stop - start, rest) := by
  unfold rangeText
  simp only
  split
  · rename_i hone
    rw [readRange_single _ h, hone, Nat.add_sub_cancel]
  · rw [String.toList_append, String.toList_append, List.append_assoc, List.append_assoc]
    have hpair := readRange_pair (if stop - start = 0 then start else start + 1) (stop - start)
      fun c hc => (h c hc).1
    refine hpair.trans ?_
    split <;> rfl

def headText (start stop newStart newStop : Nat) : Text :=
  "@@ -".toList ++ rangeText start stop ++ " +".toList ++ rangeText newStart newStop ++ " @@\n".toList

theorem readHead_headText (start stop newStart newStop : Nat) :
    readHead (headText start stop newStart newStop) =
      some ⟨start, stop - start, newStart, newStop - newStart, []⟩ := by
  unfold readHead headText
  simp only [List.append_assoc, after?_append, Option.bind_eq_bind, Option.bind_some]
  rw [readRange_rangeText _ _ (by rintro _ ⟨⟩; decide), Option.bind_some]
  simp only [after?_append, Option.bind_some]
  rw [readRange_rangeText _ _ (by rintro _ ⟨⟩; decide), Option.bind_some]
  rfl

/-! ## Bodies -/

theorem readBody_marked {xs : List (Char × Text)} (h : ∀ x ∈ xs, x.1 ∈ marks) {rest : List Text}
    {lines : List (Char × Text)} {hunks : List PatchHunk} (hrest : readBody rest = some (lines, hunks)) :
    readBody (xs.map (fun x => x.1 :: x.2) ++ rest) = some (xs ++ lines, hunks) := by
  induction xs with
  | nil => exact hrest
  | cons x xs ih =>
      obtain ⟨mark, line⟩ := x
      have hmark : mark ∈ marks := h (mark, line) (by simp)
      rw [List.map_cons, List.cons_append, readBody, ih fun y hy => h y (by simp [hy])]
      simp only [Option.bind_eq_bind, Option.bind_some]
      split
      · rename_i hat
        cases hat
        exact absurd hmark (by decide)
      · rename_i hcons
        cases hcons
        rw [if_pos hmark]
        rfl
      · rename_i hcons
        cases hcons

theorem headText_eq (start stop newStart newStop : Nat) :
    headText start stop newStart newStop = '@' :: (headText start stop newStart newStop).tail := rfl

theorem readBody_head (start stop newStart newStop : Nat) {rest : List Text}
    {lines : List (Char × Text)} {hunks : List PatchHunk} (hrest : readBody rest = some (lines, hunks)) :
    readBody (headText start stop newStart newStop :: rest) =
      some ([], ⟨start, stop - start, newStart, newStop - newStart, lines⟩ :: hunks) := by
  have hhead := readHead_headText start stop newStart newStop
  rw [headText_eq] at hhead ⊢
  rw [readBody, hrest]
  simp only [Option.bind_eq_bind, Option.bind_some, hhead]
  rfl

def changeLines (old new : List Text) (c : Change) : List (Char × Text) :=
  if c.isEqual then (stretch old c.old c.oldLength).map (' ', ·)
  else (stretch old c.old c.oldLength).map ('-', ·) ++ (stretch new c.new c.newLength).map ('+', ·)

def hunkOf (old new : List Text) (hunk : List Change) : PatchHunk :=
  match hunk.head?, hunk.getLast? with
  | some first, some last =>
      ⟨first.old, last.old + last.oldLength - first.old, first.new,
        last.new + last.newLength - first.new, hunk.flatMap (changeLines old new)⟩
  | _, _ => ⟨0, 0, 0, 0, []⟩

/-- The lines of a hunk as it is printed, without hints. -/
def hunkItems (old new : List Text) (hunk : List Change) : List Text :=
  match hunk.head?, hunk.getLast? with
  | some first, some last =>
      headText first.old (last.old + last.oldLength) first.new (last.new + last.newLength) ::
        (hunk.flatMap (changeLines old new)).map fun x => x.1 :: x.2
  | _, _ => []

theorem mem_marks_of_changeLines {old new : List Text} {c : Change} {x : Char × Text}
    (h : x ∈ changeLines old new c) :
    x.1 ∈ marks ∧ (x.2 ∈ stretch old c.old c.oldLength ∨ x.2 ∈ stretch new c.new c.newLength) := by
  unfold changeLines at h
  split at h
  · obtain ⟨line, hline, rfl⟩ := List.mem_map.mp h
    exact ⟨by simp [marks], .inl hline⟩
  · rcases List.mem_append.mp h with h | h
    · obtain ⟨line, hline, rfl⟩ := List.mem_map.mp h
      exact ⟨by simp [marks], .inl hline⟩
    · obtain ⟨line, hline, rfl⟩ := List.mem_map.mp h
      exact ⟨by simp [marks], .inr hline⟩

theorem mem_marks_of_flatMap (old new : List Text) (hunk : List Change) :
    ∀ x ∈ hunk.flatMap (changeLines old new), x.1 ∈ marks := by
  intro x h
  obtain ⟨c, -, hxc⟩ := List.mem_flatMap.mp h
  exact (mem_marks_of_changeLines hxc).1

theorem readBody_hunkItems {old new : List Text} {hs : List (List Change)}
    (h : ∀ hunk ∈ hs, hunk ≠ []) :
    readBody (hs.flatMap (hunkItems old new)) = some ([], hs.map (hunkOf old new)) := by
  induction hs with
  | nil => rfl
  | cons hunk hs ih =>
      have hhs := ih fun h' hh' => h h' (by simp [hh'])
      have hne := h hunk (by simp)
      rw [List.flatMap_cons, List.map_cons, hunkItems, hunkOf, List.head?_eq_some_head hne,
        List.getLast?_eq_some_getLast hne]
      simp only
      have hmarked := readBody_marked (mem_marks_of_flatMap old new hunk) hhs
      rw [List.append_nil] at hmarked
      exact readBody_head _ _ _ _ hmarked

/-! ## The printed diff -/

theorem markedLine_eq {mark : Char} (hmark : mark ∈ marks) (line : Text) :
    markedLine mark line = (hinted (mark :: line)).flatten := by
  have hbreak : isLineBreak mark = false := by
    simp only [marks, List.mem_cons, List.not_mem_nil, or_false] at hmark
    rcases hmark with rfl | rfl | rfl <;> rfl
  have hlast : (mark :: line).getLast?.any isLineBreak = line.getLast?.any isLineBreak := by
    cases line with
    | nil => simpa using hbreak
    | cons c line => rfl
  rw [markedLine, hinted, hlast]
  split
  · simp
  · rw [List.flatten_cons, List.flatten_singleton, List.append_assoc]
    rfl

theorem text_eq (old new : List Text) (c : Change) :
    c.text old new = (changeLines old new c).flatMap fun x => markedLine x.1 x.2 := by
  unfold Change.text changeLines
  split
  · rw [List.flatMap_map]
  · rw [List.flatMap_append, List.flatMap_map, List.flatMap_map]

theorem hinted_headText (start stop newStart newStop : Nat) :
    hinted (headText start stop newStart newStop) = [headText start stop newStart newStop] := by
  have hterm : ['\n'] ∈ terminators := by simp [terminators]
  have hlast := getLast?_any_of_terminators hterm ("@@ -".toList ++ rangeText start stop ++
    " +".toList ++ rangeText newStart newStop ++ " @@".toList)
  rw [List.append_assoc] at hlast
  exact if_pos hlast

theorem flatten_hinted_marked {xs : List (Char × Text)} (h : ∀ x ∈ xs, x.1 ∈ marks) :
    ((xs.map fun x => x.1 :: x.2).flatMap hinted).flatten = xs.flatMap fun x => markedLine x.1 x.2 := by
  induction xs with
  | nil => rfl
  | cons x xs ih =>
      rw [List.map_cons, List.flatMap_cons, List.flatMap_cons, List.flatten_append,
        ih fun y hy => h y (by simp [hy]), markedLine_eq (h x (by simp))]

theorem hunkText_eq (old new : List Text) (hunk : List Change) :
    hunkText old new hunk = ((hunkItems old new hunk).flatMap hinted).flatten := by
  by_cases hne : hunk = []
  · rw [hne]
    rfl
  · have htext : hunk.flatMap (Change.text old new) =
        (hunk.flatMap (changeLines old new)).flatMap fun x => markedLine x.1 x.2 := by
      rw [List.flatMap_assoc]
      exact congrArg hunk.flatMap (funext (text_eq old new))
    rw [hunkText, hunkItems, List.head?_eq_some_head hne, List.getLast?_eq_some_getLast hne]
    simp only
    rw [List.flatMap_cons, hinted_headText, List.flatten_append, List.flatten_singleton,
      flatten_hinted_marked (mem_marks_of_flatMap old new hunk), ← htext]
    rfl

theorem isRow_rangeText (start stop : Nat) : IsRow (rangeText start stop) := by
  have hnumber (n : Nat) : IsRow (toString n).toList := by
    intro c hc
    rw [Nat.toString_eq_ofList_toDigits, String.toList_ofList] at hc
    have hdigit := Nat.isDigit_of_mem_toDigits (by decide) (by decide) hc
    cases hbreak : isLineBreak c with
    | false => rfl
    | true =>
        simp only [isLineBreak, Bool.or_eq_true, beq_iff_eq] at hbreak
        rcases hbreak with rfl | rfl <;> cases hdigit
  unfold rangeText
  simp only
  split
  · exact hnumber _
  · rw [String.toList_append, String.toList_append]
    exact .append (.append (hnumber _) (by decide)) (hnumber _)

theorem flatMap_hunkText (old new : List Text) (hs : List (List Change)) :
    hs.flatMap (hunkText old new) = ((hs.flatMap (hunkItems old new)).flatMap hinted).flatten := by
  induction hs with
  | nil => rfl
  | cons hunk hs ih =>
      rw [List.flatMap_cons, List.flatMap_cons, List.flatMap_append, List.flatten_append, ih,
        hunkText_eq]

theorem isItem_row {lead row : Text} (hlead : IsRow lead) (hhead : ∃ c ∈ lead.head?, c ≠ '\\')
    (hrow : IsRow row) : IsItem (lead ++ row ++ ['\n']) := by
  obtain ⟨c, hc, hne⟩ := hhead
  cases lead with
  | nil => cases hc
  | cons c lead =>
      cases hc
      exact ⟨c, lead ++ row, ['\n'], rfl, hne, hlead.append hrow, .inr (by simp [terminators])⟩

theorem isItem_headText (start stop newStart newStop : Nat) :
    IsItem (headText start stop newStart newStop) := by
  have hlead : IsRow "@@ -".toList := by decide
  have hrow := isItem_row hlead ⟨'@', rfl, by decide⟩
    (.append (.append (.append (isRow_rangeText start stop) (by decide : IsRow " +".toList))
      (isRow_rangeText newStart newStop)) (by decide : IsRow " @@".toList))
  unfold headText
  simp only [List.append_assoc] at hrow ⊢
  exact hrow

theorem isItem_marked {mark : Char} (hmark : mark ∈ marks) {t line : Text} (hline : line ∈ lines t) :
    IsItem (mark :: line) := by
  obtain ⟨row, term, rfl, hrow, hterm⟩ := exists_row_of_mem_lines hline
  simp only [marks, List.mem_cons, List.not_mem_nil, or_false] at hmark
  refine ⟨mark, row, term, rfl, ?_, .cons ?_ hrow, hterm⟩ <;> rcases hmark with rfl | rfl | rfl <;>
    decide

theorem isItem_of_mem_hunkItems {old new : Text} {hunk : List Change} {l : Text}
    (h : l ∈ hunkItems (lines old) (lines new) hunk) : IsItem l := by
  unfold hunkItems at h
  split at h
  · rcases List.mem_cons.mp h with rfl | h
    · exact isItem_headText _ _ _ _
    · obtain ⟨x, hx, rfl⟩ := List.mem_map.mp h
      obtain ⟨c, -, hxc⟩ := List.mem_flatMap.mp hx
      obtain ⟨hmark, hline | hline⟩ := mem_marks_of_changeLines hxc
      · exact isItem_marked hmark (List.mem_of_mem_drop (List.mem_of_mem_take hline))
      · exact isItem_marked hmark (List.mem_of_mem_drop (List.mem_of_mem_take hline))
  · cases h

/-- The text of a diff with some hunks is read as these hunks. -/
theorem read?_printed {fromLabel toLabel old new : Text} (hfrom : IsRow fromLabel)
    (hto : IsRow toLabel) {hs : List (List Change)} (hne : ∀ hunk ∈ hs, hunk ≠ []) :
    read? ("--- ".toList ++ fromLabel ++ "\n+++ ".toList ++ toLabel ++ ['\n'] ++
        hs.flatMap (hunkText (lines old) (lines new))) =
      some ⟨fromLabel, toLabel, hs.map (hunkOf (lines old) (lines new))⟩ := by
  have hitems : ∀ l ∈ ("--- ".toList ++ fromLabel ++ ['\n']) :: ("+++ ".toList ++ toLabel ++ ['\n']) ::
      hs.flatMap (hunkItems (lines old) (lines new)), IsItem l := by
    intro l hl
    rcases List.mem_cons.mp hl with rfl | hl
    · exact isItem_row (by decide) ⟨'-', rfl, by decide⟩ hfrom
    rcases List.mem_cons.mp hl with rfl | hl
    · exact isItem_row (by decide) ⟨'+', rfl, by decide⟩ hto
    · obtain ⟨hunk, -, hl⟩ := List.mem_flatMap.mp hl
      exact isItem_of_mem_hunkItems hl
  have hlabel (lead : Text) : hinted (lead ++ ['\n']) = [lead ++ ['\n']] :=
    if_pos (getLast?_any_of_terminators (by simp [terminators]) lead)
  have htext : "--- ".toList ++ fromLabel ++ "\n+++ ".toList ++ toLabel ++ ['\n'] ++
      hs.flatMap (hunkText (lines old) (lines new)) =
      ((("--- ".toList ++ fromLabel ++ ['\n']) :: ("+++ ".toList ++ toLabel ++ ['\n']) ::
        hs.flatMap (hunkItems (lines old) (lines new))).flatMap hinted).flatten := by
    have hlead : "\n+++ ".toList = ['\n'] ++ "+++ ".toList := rfl
    rw [List.flatMap_cons, List.flatMap_cons, hlabel, hlabel, flatMap_hunkText, hlead]
    simp only [List.flatten_append, List.flatten_cons, List.flatten_nil, List.append_nil,
      List.append_assoc]
  rw [read?, htext, lines_flatten_hinted hitems, dropHints_hinted hitems]
  simp only [List.append_assoc, after?_append, Option.bind_eq_bind, Option.bind_some,
    readBody_hunkItems hne]
  simp

end Patch

end SchemaTidy
