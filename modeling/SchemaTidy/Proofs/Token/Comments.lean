import Mathlib.Data.List.TakeWhile
import SchemaTidy.Token.Basic
import SchemaTidy.Trivia

/-!
# Comments between tokens

A comment goes from a number sign to the end of its physical line. The comments of a text are told
from its physical lines, so they can be put together when the text is cut where no comment is open.
-/

namespace SchemaTidy

namespace Text

theorem splitAfter_row {stop : Char → Bool} {row : Text} (hrow : ∀ c ∈ row, stop c = false)
    {d : Char} (hd : stop d = true) (t : Text) :
    splitAfter stop (row ++ d :: t) = (row ++ [d]) :: splitAfter stop t := by
  induction row with
  | nil => rw [List.nil_append, splitAfter, if_pos hd, List.nil_append]
  | cons c row ih =>
      have hrest := ih fun e he => hrow e (by simp [he])
      rw [List.cons_append, splitAfter, if_neg (by simp [hrow c (by simp)]), hrest]
      rfl

theorem splitAfter_last {stop : Char → Bool} {row : Text} (hrow : ∀ c ∈ row, stop c = false)
    (hne : row ≠ []) : splitAfter stop row = [row] := by
  induction row with
  | nil => exact absurd rfl hne
  | cons c row ih =>
      rw [splitAfter, if_neg (by simp [hrow c (by simp)])]
      cases row with
      | nil => rfl
      | cons d row => rw [ih (fun e he => hrow e (by simp [he])) (by simp)]

/-- A statement about texts by their rows, which end at a character that satisfies `stop`. -/
theorem rows_induction (stop : Char → Bool) {motive : Text → Prop}
    (last : ∀ row, (∀ c ∈ row, stop c = false) → motive row)
    (cons : ∀ row d t, (∀ c ∈ row, stop c = false) → stop d = true → motive t →
      motive (row ++ d :: t)) (t : Text) : motive t := by
  have hfrom (row : Text) (hrow : ∀ c ∈ row, stop c = false) : motive (row ++ t) := by
    induction t generalizing row with
    | nil => simpa using last row hrow
    | cons c t ih =>
        cases hc : stop c with
        | true => exact cons row c t hrow hc (by simpa using ih [] (by simp))
        | false =>
            have hnext := ih (row ++ [c]) (by simpa [or_imp, forall_and, hc] using hrow)
            simpa using hnext
  simpa using hfrom [] (by simp)

theorem trimEnd_concat {p : Char → Bool} {c : Char} (hc : p c = true) (t : Text) :
    trimEnd p (t ++ [c]) = trimEnd p t := by
  simp [trimEnd, hc]

end Text

namespace Trivia

/-- The comments of a text between tokens, one for each physical line that holds one. -/
def physicalComments (t : Text) : List Text :=
  (Text.splitAfter Text.isLineBreak t).filterMap comment?

@[simp] theorem physicalComments_nil : physicalComments [] = [] := rfl

theorem isBlank_ne {c : Char} (h : Text.isBlank c = true) : c ≠ '#' := by
  rintro rfl
  cases h

theorem isBlank_of_isLineBreak {c : Char} (h : Text.isLineBreak c = true) :
    Text.isBlank c = true := by
  have hc : c = '\n' ∨ c = '\r' := by simpa [Text.isLineBreak] using h
  rcases hc with rfl | rfl <;> decide

theorem comment?_cons {c : Char} (hc : c ≠ '#') (t : Text) : comment? (c :: t) = comment? t := by
  simp [comment?, hc, Ne.symm hc]

theorem comment?_concat {c : Char} (hc : Text.isBlank c = true) (t : Text) :
    comment? (t ++ [c]) = comment? t := by
  have hne := isBlank_ne hc
  by_cases hmem : '#' ∈ t
  · have hdrop : (t ++ [c]).dropWhile (· != '#') = t.dropWhile (· != '#') ++ [c] := by
      rw [List.dropWhile_append, if_neg]
      rw [List.isEmpty_iff, List.dropWhile_eq_nil_iff]
      exact fun hall => by simpa using hall '#' hmem
    simp [comment?, hmem, hdrop, Text.trimEnd_concat hc]
  · simp [comment?, hmem, Ne.symm hne]

section Rows

variable {row : Text} (hrow : ∀ c ∈ row, Text.isLineBreak c = false)

include hrow in
theorem physicalComments_row : physicalComments row = (comment? row).toList := by
  by_cases hne : row = []
  · subst hne
    rfl
  · rw [physicalComments, Text.splitAfter_last hrow hne]
    cases hc : comment? row <;> simp [hc]

include hrow in
theorem physicalComments_row_break {d : Char} (hd : Text.isLineBreak d = true) (t : Text) :
    physicalComments (row ++ d :: t) = (comment? row).toList ++ physicalComments t := by
  have hcomment := comment?_concat (isBlank_of_isLineBreak hd) row
  rw [physicalComments, Text.splitAfter_row hrow hd]
  cases hc : comment? row with
  | none => rw [List.filterMap_cons_none (hcomment.trans hc)]; rfl
  | some c => rw [List.filterMap_cons_some (hcomment.trans hc)]; rfl

end Rows

theorem physicalComments_append_break (a : Text) {d : Char} (hd : Text.isLineBreak d = true)
    (b : Text) : physicalComments (a ++ d :: b) = physicalComments a ++ physicalComments b := by
  induction a using Text.rows_induction Text.isLineBreak with
  | last row hrow => rw [physicalComments_row_break hrow hd, physicalComments_row hrow]
  | cons row e a hrow he ih =>
      rw [List.append_assoc, List.cons_append, physicalComments_row_break hrow he,
        physicalComments_row_break hrow he, ih, List.append_assoc]

theorem physicalComments_cons {c : Char} (hc : c ≠ '#') (t : Text) :
    physicalComments (c :: t) = physicalComments t := by
  cases hbreak : Text.isLineBreak c with
  | true => exact physicalComments_append_break [] hbreak t
  | false =>
      have hcons {row : Text} (hrow : ∀ d ∈ row, Text.isLineBreak d = false) :
          ∀ d ∈ c :: row, Text.isLineBreak d = false :=
        List.forall_mem_cons.mpr ⟨hbreak, hrow⟩
      induction t using Text.rows_induction Text.isLineBreak with
      | last row hrow =>
          rw [physicalComments_row (hcons hrow), physicalComments_row hrow, comment?_cons hc]
      | cons row d t hrow hd ih =>
          rw [← List.cons_append, physicalComments_row_break (hcons hrow) hd,
            physicalComments_row_break hrow hd, comment?_cons hc]

theorem physicalComments_concat {c : Char} (hc : Text.isBlank c = true) (t : Text) :
    physicalComments (t ++ [c]) = physicalComments t := by
  induction t using Text.rows_induction Text.isLineBreak with
  | last row hrow =>
      cases hbreak : Text.isLineBreak c with
      | true =>
          rw [physicalComments_row_break hrow hbreak, physicalComments_row hrow,
            physicalComments_nil, List.append_nil]
      | false =>
          rw [physicalComments_row (by simpa [or_imp, forall_and, hbreak] using hrow),
            physicalComments_row hrow, comment?_concat hc]
  | cons row d t hrow hd ih =>
      rw [List.append_assoc, List.cons_append, physicalComments_row_break hrow hd,
        physicalComments_row_break hrow hd, ih]

theorem physicalComments_append_of_forall {a : Text} (ha : ∀ c ∈ a, c ≠ '#') (t : Text) :
    physicalComments (a ++ t) = physicalComments t := by
  induction a with
  | nil => rfl
  | cons c a ih =>
      rw [List.cons_append, physicalComments_cons (ha c (by simp)), ih fun d hd => ha d (by simp [hd])]

theorem physicalComments_trimEnd (t : Text) :
    physicalComments (Text.trimEnd Text.isBlank t) = physicalComments t := by
  have hreverse (r : Text) :
      physicalComments (r.dropWhile Text.isBlank).reverse = physicalComments r.reverse := by
    induction r with
    | nil => rfl
    | cons c r ih =>
        cases hc : Text.isBlank c with
        | true =>
            rw [List.dropWhile_cons_of_pos hc, List.reverse_cons, physicalComments_concat hc, ih]
        | false => rw [List.dropWhile_cons_of_neg (by simp [hc])]
  simpa [Text.trimEnd] using hreverse t.reverse

theorem physicalComments_dropWhile {p : Char → Bool} (hp : p '#' = false) (t : Text) :
    physicalComments (t.dropWhile p) = physicalComments t := by
  have htaken : ∀ c ∈ t.takeWhile p, c ≠ '#' := by
    rintro c hc rfl
    simpa [hp] using List.mem_takeWhile_imp hc
  rw [← physicalComments_append_of_forall htaken, List.takeWhile_append_dropWhile]

theorem flatMap_comment? (fragment : Text) :
    (comment? fragment).toList.flatMap physicalComments = physicalComments fragment := by
  unfold comment?
  split
  · simp [physicalComments_trimEnd, physicalComments_dropWhile]
  · rename_i hnone
    have hfree : ∀ c ∈ fragment, c ≠ '#' := by
      rintro c hc rfl
      simp [hc] at hnone
    simpa using (physicalComments_append_of_forall hfree []).symm

theorem physicalComments_splitAfter (t : Text) :
    (Text.splitAfter (· == '\n') t).flatMap physicalComments = physicalComments t := by
  induction t using Text.rows_induction (· == '\n') with
  | last row hrow =>
      by_cases hne : row = []
      · subst hne
        rfl
      · rw [Text.splitAfter_last hrow hne, List.flatMap_singleton]
  | cons row d t hrow hd ih =>
      obtain rfl : d = '\n' := by simpa using hd
      rw [Text.splitAfter_row hrow hd, List.flatMap_cons, ih,
        physicalComments_concat (by decide), physicalComments_append_break row (by decide)]

def TriviaLine.comments : TriviaLine → List Text
  | .blank => []
  | .comment text => physicalComments text

theorem flatMap_line? (l : Text) :
    (line? l).toList.flatMap TriviaLine.comments = physicalComments l := by
  have hcontent : physicalComments (Text.trim Text.isBlank l) = physicalComments l := by
    rw [Text.trim, physicalComments_trimEnd, physicalComments_dropWhile (by decide)]
  have hcomment := flatMap_comment? (Text.trim Text.isBlank l)
  rw [hcontent] at hcomment
  rw [← hcomment, line?]
  cases comment? (Text.trim Text.isBlank l) with
  | some text => rfl
  | none =>
      simp only
      split <;> rfl

theorem flatMap_lines (t : Text) : (lines t).flatMap TriviaLine.comments = physicalComments t := by
  rw [← physicalComments_splitAfter t, lines]
  induction Text.splitAfter (· == '\n') t with
  | nil => rfl
  | cons l ls ih =>
      rw [List.flatMap_cons, ← ih, ← flatMap_line? l]
      cases hl : line? l with
      | none => rw [List.filterMap_cons_none hl]; rfl
      | some line => rw [List.filterMap_cons_some hl]; simp

theorem flatMap_ownLineComments (t : Text) :
    (ownLineComments t).flatMap physicalComments = physicalComments (splitSameLine t).2 := by
  rw [ownLineComments, ← flatMap_lines]
  induction lines (splitSameLine t).2 with
  | nil => rfl
  | cons l ls ih =>
      cases l with
      | blank => simpa [TriviaLine.comments] using ih
      | comment text => simp [TriviaLine.comments, ih]

theorem physicalComments_splitSameLine (t : Text) :
    physicalComments (splitSameLine t).1 ++ physicalComments (splitSameLine t).2 =
      physicalComments t := by
  simp only [splitSameLine]
  split
  · have hsplit := List.takeWhile_append_dropWhile (p := (!Text.isLineBreak ·)) (l := t)
    have hhead := List.head?_dropWhile_not (!Text.isLineBreak ·) t
    cases hrest : t.dropWhile (!Text.isLineBreak ·) with
    | nil =>
        rw [hrest, List.append_nil] at hsplit
        rw [hsplit, physicalComments_nil, List.append_nil]
    | cons d rest =>
        rw [hrest] at hhead hsplit
        have hd : Text.isLineBreak d = true := by simpa using hhead
        rw [← List.nil_append (d :: rest), physicalComments_append_break [] hd, ← List.append_assoc,
          physicalComments_nil, List.append_nil, ← physicalComments_append_break _ hd, hsplit]
  · rfl

/-- The comments taken from trivia have all its comments. -/
theorem flatMap_comments (t : Text) : (comments t).flatMap physicalComments = physicalComments t := by
  rw [comments, List.flatMap_append, sameLineComment?, flatMap_comment?, flatMap_ownLineComments,
    physicalComments_splitSameLine]

/-- No comment is open at the end of a text: what follows it has comments of its own. -/
def Closed (a : Text) : Prop :=
  ∀ b, physicalComments (a ++ b) = physicalComments a ++ physicalComments b

theorem closed_nil : Closed [] := fun _ => rfl

theorem closed_break (a : Text) {d : Char} (hd : Text.isLineBreak d = true) : Closed (a ++ [d]) := by
  intro b
  rw [List.append_assoc, List.singleton_append, physicalComments_append_break a hd,
    physicalComments_concat (isBlank_of_isLineBreak hd)]

theorem Closed.append {a b : Text} (ha : Closed a) (hb : Closed b) : Closed (a ++ b) := by
  intro c
  rw [List.append_assoc, ha, hb, ha, List.append_assoc]

theorem closed_of_getLast? {l : Text} (h : l.getLast? = some '\n') : Closed l := by
  obtain ⟨a, rfl⟩ := List.getLast?_eq_some_iff.mp h
  exact closed_break a (by decide)

theorem Closed.cons {a : Text} (h : Closed a) {c : Char} (hc : c ≠ '#') :
    Closed (a ++ [c]) ∧ physicalComments (a ++ [c]) = physicalComments a := by
  have hown : physicalComments (a ++ [c]) = physicalComments a := by
    rw [h, physicalComments_cons hc, physicalComments_nil, List.append_nil]
  refine ⟨fun b => ?_, hown⟩
  rw [hown, List.append_assoc, List.singleton_append, h, physicalComments_cons hc]

end Trivia

/-- The comments in front of tokens, outside and inside of brackets. -/
def commentsOf (ts : List Token) : List Text :=
  ts.flatMap fun t => Trivia.physicalComments t.trivia

@[simp] theorem commentsOf_nil : commentsOf [] = [] := rfl

@[simp] theorem commentsOf_cons (t : Token) (ts : List Token) :
    commentsOf (t :: ts) = Trivia.physicalComments t.trivia ++ commentsOf ts := rfl

@[simp] theorem commentsOf_append (ts us : List Token) :
    commentsOf (ts ++ us) = commentsOf ts ++ commentsOf us :=
  List.flatMap_append

end SchemaTidy
