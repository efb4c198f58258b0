import SchemaTidy.Proofs.Token.Lexing
import SchemaTidy.Trivia

/-!
# Comments that are printed

A comment that is taken from trivia starts with its number sign. Trivia is cut into lines behind line
feeds only, and the lexer ends a comment at a carriage return too: behind one, a comment may go on with
blank rows and comments, or with a line that a backslash continues.
-/

namespace SchemaTidy

namespace Text

theorem dropWhile_concat {p : Char → Bool} {c : Char} (hc : p c = false) (t : Text) :
    (t ++ [c]).dropWhile p = t.dropWhile p ++ [c] := by
  rw [List.dropWhile_append]
  split <;> simp_all

theorem head?_trimEnd {p : Char → Bool} {c : Char} (hc : p c = false) (t : Text) :
    (trimEnd p (c :: t)).head? = some c := by
  simp [trimEnd, dropWhile_concat hc]

theorem mem_of_mem_trimEnd {p : Char → Bool} {c : Char} {t : Text} (h : c ∈ trimEnd p t) : c ∈ t := by
  have hmem : c ∈ t.reverse.dropWhile p := by simpa [trimEnd] using h
  simpa using (List.dropWhile_suffix p).mem hmem

theorem getLast?_trimEnd {p : Char → Bool} {c : Char} {t : Text}
    (h : (trimEnd p t).getLast? = some c) : p c = false := by
  rw [trimEnd, List.getLast?_reverse] at h
  have hhead := List.head?_dropWhile_not p t.reverse
  rwa [h] at hhead

theorem mem_dropLast_of_mem_trimEnd {p : Char → Bool} {c : Char} (hc : p c = true) {t : Text}
    (h : c ∈ trimEnd p t) : c ∈ t.dropLast := by
  have hmem : c ∈ t.reverse.dropWhile p := by simpa [trimEnd] using h
  have htail : c ∈ t.reverse.tail := by
    cases hrev : t.reverse with
    | nil => simp [hrev] at hmem
    | cons d ds =>
        rw [hrev, List.dropWhile_cons] at hmem
        split at hmem
        · exact (List.dropWhile_suffix p).mem hmem
        · rename_i hd
          rcases List.mem_cons.mp hmem with rfl | hmem
          · exact absurd hc hd
          · exact hmem
  rw [List.tail_reverse] at htail
  simpa using htail

theorem mem_dropLast_of_suffix {s t : Text} (h : s <:+ t) {c : Char} (hc : c ∈ s.dropLast) :
    c ∈ t.dropLast := by
  obtain ⟨r, rfl⟩ := h
  have hs : s ≠ [] := by
    rintro rfl
    simp at hc
  rw [List.dropLast_append_of_ne_nil hs]
  exact List.mem_append_right r hc

theorem stop_of_mem_splitAfter {stop : Char → Bool} {t l : Text} (hl : l ∈ splitAfter stop t) :
    ∀ c ∈ l.dropLast, stop c = false := by
  induction t generalizing l with
  | nil => simp [splitAfter] at hl
  | cons d t ih =>
      rw [splitAfter] at hl
      split at hl
      · rcases List.mem_cons.mp hl with rfl | hl
        · simp
        · exact ih hl
      · rename_i hd
        split at hl
        · obtain rfl := List.mem_singleton.mp hl
          simp
        · rename_i m ms hsplit
          rcases List.mem_cons.mp hl with rfl | hl
          · intro c hc
            cases m with
            | nil => simp at hc
            | cons e m =>
                rw [List.dropLast_cons_cons] at hc
                rcases List.mem_cons.mp hc with rfl | hc
                · simpa using hd
                · exact ih (by rw [hsplit]; exact List.mem_cons_self ..) c hc
          · exact ih (by rw [hsplit]; exact List.mem_cons_of_mem _ hl)

theorem exists_row {t : Text} (h : '\n' ∉ t) : ∃ row rest, t = row ++ rest ∧
    (∀ c ∈ row, isLineBreak c = false) ∧ (rest = [] ∨ ∃ t', rest = '\r' :: t') := by
  induction t with
  | nil => exact ⟨[], [], rfl, by simp, .inl rfl⟩
  | cons c t ih =>
      obtain ⟨hc, ht⟩ : '\n' ≠ c ∧ '\n' ∉ t := by simpa using h
      by_cases hreturn : c = '\r'
      · exact ⟨[], c :: t, rfl, by simp, .inr ⟨t, by rw [hreturn]⟩⟩
      · obtain ⟨row, rest, rfl, hrow, hrest⟩ := ih ht
        refine ⟨c :: row, rest, rfl, ?_, hrest⟩
        simpa [isLineBreak, hreturn, Ne.symm hc] using hrow

end Text

theorem triviaLines_split {row rest : Text} (hrow : ∀ c ∈ row, Text.isLineBreak c = false)
    (hrest : rest = [] ∨ ∃ t, rest = '\r' :: t)
    (hlines : ∀ l ∈ Text.splitAfter Text.isLineBreak (row ++ rest), isTriviaLine l = true) :
    IsTriviaRow row ∧ ∀ l ∈ Text.splitAfter Text.isLineBreak rest.tail, isTriviaLine l = true := by
  rcases hrest with rfl | ⟨t, rfl⟩
  · refine ⟨?_, by simp [Text.splitAfter]⟩
    by_cases hne : row = []
    · exact ⟨[], by simp, .inl hne⟩
    · rw [List.append_nil, Text.splitAfter_last hrow hne] at hlines
      have hline : isTriviaLine (row ++ []) = true := by simpa using hlines
      exact isTriviaRow_of_isTriviaLine hrow hline
  · rw [Text.splitAfter_row hrow rfl] at hlines
    refine ⟨isTriviaRow_of_isTriviaLine hrow (hlines (row ++ ['\r']) (by simp)), fun l hl => ?_⟩
    exact hlines l (List.mem_cons_of_mem _ hl)

theorem rowsBehind_return {t : Text} (hnewline : '\n' ∉ t)
    (hlast : ∀ c, ('\r' :: t).getLast? = some c → Text.isBlank c = false)
    (hlines : ∀ l ∈ Text.splitAfter Text.isLineBreak t, isTriviaLine l = true) :
    RowsBehind ('\r' :: t) := by
  obtain ⟨row, rest, rfl, hrow, hrest⟩ := Text.exists_row hnewline
  obtain ⟨⟨ws, hws, hkind⟩, hlines'⟩ := triviaLines_split hrow hrest hlines
  have hbehind : RowsBehind rest := by
    rcases hrest with rfl | ⟨t, rfl⟩
    · exact .nil
    · refine rowsBehind_return (fun hmem => hnewline (by simp [hmem])) (fun c hc => ?_) hlines'
      refine hlast c ?_
      rw [← List.cons_append, List.getLast?_append, hc]
      rfl
  rcases hkind with rfl | ⟨w, hw, rfl⟩
  · refine .blank hws ?_ hbehind
    rintro rfl
    obtain ⟨d, hd⟩ : ∃ d, ('\r' :: (row ++ [])).getLast? = some d :=
      ⟨_, List.getLast?_eq_some_getLast (by simp)⟩
    have hblank := hlast d hd
    rw [List.append_nil] at hd
    rcases List.mem_cons.mp (List.mem_of_getLast? hd) with rfl | hmem
    · cases hblank
    · rw [Text.isBlank_of_isIndent (hws d hmem)] at hblank
      cases hblank
  · rw [List.append_assoc]
    exact .comment hws hw hbehind
termination_by t.length
decreasing_by
  subst_vars
  simp
  omega

namespace Trivia

/-- Whether a comment holds a line that is neither blank nor a comment: one that a backslash
continues. -/
def holdsCode (comment : Text) : Bool :=
  !(Text.splitAfter Text.isLineBreak comment).all isTriviaLine

/-- Whether a comment that is printed from trivia holds a line that a backslash continues. -/
def hidesCode (trivia : Text) : Bool :=
  (comments trivia).any holdsCode ||
    (lines trivia).any fun
      | .comment text => holdsCode text
      | .blank => false

theorem head?_comment? {fragment c : Text} (h : comment? fragment = some c) :
    c.head? = some '#' ∧ ∀ d ∈ c, d ∈ fragment := by
  unfold comment? at h
  split at h
  · rename_i hmem
    obtain rfl := Option.some.inj h
    have hdrop : ∃ r, fragment.dropWhile (· != '#') = '#' :: r := by
      have hmem' : '#' ∈ fragment := by simpa using hmem
      clear h hmem
      induction fragment with
      | nil => simp at hmem'
      | cons d ds ih =>
          by_cases hd : d = '#'
          · exact ⟨ds, by simp [hd]⟩
          · obtain ⟨r, hr⟩ := ih (by simpa [Ne.symm hd] using hmem')
            exact ⟨r, by simpa [hd] using hr⟩
    obtain ⟨r, hr⟩ := hdrop
    refine ⟨?_, fun d hd => ?_⟩
    · rw [hr]
      exact Text.head?_trimEnd (by decide) r
    · exact (List.dropWhile_suffix _).mem (Text.mem_of_mem_trimEnd hd)
  · cases h

theorem getLast?_comment? {fragment c : Text} (h : comment? fragment = some c) :
    ∀ d, c.getLast? = some d → Text.isBlank d = false := by
  unfold comment? at h
  split at h
  · obtain rfl := Option.some.inj h
    exact fun d => Text.getLast?_trimEnd
  · cases h

theorem isComment_sameLine {trivia : Text} :
    ∀ c ∈ (sameLineComment? trivia).toList, IsComment c := by
  intro c hc
  have hc : comment? (splitSameLine trivia).1 = some c := by simpa [sameLineComment?] using hc
  obtain ⟨hhead, hmem⟩ := head?_comment? hc
  refine ⟨hhead, fun d hd => ?_⟩
  have hfirst := hmem d hd
  simp only [splitSameLine] at hfirst
  split at hfirst
  · simpa using List.all_eq_true.mp List.all_takeWhile d hfirst
  · simp at hfirst

theorem of_mem_lines {trivia c : Text} (h : .comment c ∈ lines trivia) :
    c.head? = some '#' ∧ '\n' ∉ c ∧ ∀ d, c.getLast? = some d → Text.isBlank d = false := by
  obtain ⟨l, hl, hline⟩ := List.mem_filterMap.mp h
  unfold line? at hline
  simp only at hline
  split at hline
  · rename_i text htext
    obtain rfl : text = c := by simpa using hline
    obtain ⟨hhead, hmem⟩ := head?_comment? htext
    refine ⟨hhead, fun hnl => ?_, getLast?_comment? htext⟩
    have hcontent := Text.mem_dropLast_of_mem_trimEnd (by decide) (hmem _ hnl)
    have hlast := Text.mem_dropLast_of_suffix (List.dropWhile_suffix _) hcontent
    have := Text.stop_of_mem_splitAfter hl '\n' hlast
    simp at this
  · split at hline <;> simp at hline

theorem isRemark_of_line {trivia c : Text} (h : .comment c ∈ lines trivia)
    (hcode : holdsCode c = false) : IsRemark c := by
  obtain ⟨hhead, hnewline, hlast⟩ := of_mem_lines h
  have hlines : ∀ l ∈ Text.splitAfter Text.isLineBreak c, isTriviaLine l = true := by
    simpa [holdsCode] using hcode
  obtain ⟨row, rest, rfl, hrow, hrest⟩ := Text.exists_row hnewline
  obtain ⟨-, hlines'⟩ := triviaLines_split hrow hrest hlines
  have hcomment : IsComment row := by
    refine ⟨?_, hrow⟩
    cases row with
    | nil => rcases hrest with rfl | ⟨t, rfl⟩ <;> simp at hhead
    | cons d row => exact hhead
  refine ⟨row, rest, hcomment, ?_, rfl⟩
  rcases hrest with rfl | ⟨t, rfl⟩
  · exact .nil
  · refine rowsBehind_return (fun hmem => hnewline (by simp [hmem])) (fun c hc => ?_) hlines'
    refine hlast c ?_
    rw [List.getLast?_append, hc]
    rfl

theorem isRemark_lines {trivia : Text} (h : hidesCode trivia = false) {c : Text}
    (hc : .comment c ∈ lines trivia) : IsRemark c := by
  simp only [hidesCode, Bool.or_eq_false_iff, List.any_eq_false] at h
  exact isRemark_of_line hc (by simpa using h.2 _ hc)

/-- Comments that hide no code are read as trivia. -/
theorem isRemark_comments {trivia : Text} (h : hidesCode trivia = false) :
    ∀ c ∈ comments trivia, IsRemark c := by
  intro c hc
  rcases List.mem_append.mp hc with hsame | hown
  · exact (isComment_sameLine c hsame).isRemark
  · obtain ⟨l, hl, htext⟩ := List.mem_filterMap.mp hown
    cases l with
    | blank => cases htext
    | comment text =>
        obtain rfl := Option.some.inj htext
        simp only [hidesCode, Bool.or_eq_false_iff, List.any_eq_false] at h
        exact isRemark_of_line hl (by simpa using h.1 _ hc)

theorem isRemark_ownLine {trivia : Text} (h : hidesCode trivia = false) :
    ∀ c ∈ ownLineComments trivia, IsRemark c :=
  fun c hc => isRemark_comments h c (List.mem_append_right _ hc)

end Trivia

end SchemaTidy
