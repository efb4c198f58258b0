import SchemaTidy.Proofs.Token.Spelling

/-!
# Where a literal ends

A string literal ends where its own characters say, whatever follows it and wherever it stands. A scan
looks at most as far ahead as the open frames need to be closed, so the characters behind the
literal are never read.
-/

namespace SchemaTidy

namespace Text

theorem take_lengthWhile (p : Char → Bool) (t : Text) : t.take (lengthWhile p t) = t.takeWhile p :=
  (List.prefix_iff_eq_take.mp (List.takeWhile_prefix p)).symm

theorem drop_lengthWhile (p : Char → Bool) (t : Text) :
    t.drop (lengthWhile p t) = t.dropWhile p := by
  have hsplit := List.take_append_drop (lengthWhile p t) t
  rw [take_lengthWhile] at hsplit
  exact List.append_cancel_left (hsplit.trans List.takeWhile_append_dropWhile.symm)

theorem lengthWhile_append_of_lt {p : Char → Bool} {a z : Text} (y : Text)
    (h : lengthWhile p (a ++ z) < a.length) : lengthWhile p (a ++ y) = lengthWhile p (a ++ z) := by
  induction a with
  | nil => simp at h
  | cons c a ih =>
      unfold lengthWhile at ih h ⊢
      by_cases hc : p c = true
      · simp only [List.cons_append, List.takeWhile_cons, hc, if_true, List.length_cons] at h ⊢
        rw [ih (by omega)]
      · simp [hc]

theorem lineBreakLength_le (cs : Text) : lineBreakLength cs ≤ cs.length := by
  unfold lineBreakLength
  split
  · simp
  · split <;> simp
  · simp

theorem lineBreakLength_cons_cons (c d : Char) (cs : Text) :
    lineBreakLength (c :: d :: cs) =
      if c = '\r' ∧ d = '\n' then 2 else if isLineBreak c then 1 else 0 := by
  by_cases h : c = '\r' ∧ d = '\n'
  · obtain ⟨rfl, rfl⟩ := h
    rfl
  · rw [if_neg h]
    unfold lineBreakLength
    split
    · simp_all
    · simp_all
    · simp_all

theorem lineBreakLength_append {a : Text} (y z : Text) (h : 2 ≤ a.length) :
    lineBreakLength (a ++ y) = lineBreakLength (a ++ z) := by
  match a, h with
  | c :: d :: b, _ => simp only [List.cons_append, lineBreakLength_cons_cons]

theorem lineBreakLength_pos {c : Char} (cs : Text) (h : isLineBreak c = true) :
    0 < lineBreakLength (c :: cs) := by
  unfold lineBreakLength
  split
  · omega
  · simp_all
  · simp_all

end Text

namespace Lexeme

theorem isTriple_append (quote : Char) {a : Text} (y z : Text) (h : 3 ≤ a.length) :
    isTriple quote (a ++ y) = isTriple quote (a ++ z) := by
  match a, h with
  | c :: d :: e :: b, _ => simp only [isTriple, List.cons_append, List.isPrefixOf]

theorem isTriple_cons_cons {quote c d : Char} {y : Text} :
    isTriple quote (c :: d :: y) = true ↔ c = quote ∧ d = quote ∧ y.head? = some quote := by
  cases y with
  | nil => simp [isTriple, List.isPrefixOf]
  | cons e y =>
      simp only [isTriple, List.isPrefixOf, Bool.and_true, Bool.and_eq_true, beq_iff_eq,
        List.head?_cons, Option.some.injEq]
      constructor
      · rintro ⟨rfl, rfl, rfl⟩
        exact ⟨rfl, rfl, rfl⟩
      · rintro ⟨rfl, rfl, rfl⟩
        exact ⟨rfl, rfl, rfl⟩

theorem le_length_of_isTriple {quote : Char} {cs : Text} (h : isTriple quote cs = true) :
    3 ≤ cs.length := by
  have := (List.isPrefixOf_iff_prefix.mp h).length_le
  simpa using this

/-- A frame without the place of its literal, which only errors show. -/
def Frame.bare : Frame → Frame
  | .body quote triple formatted _ => .body quote triple formatted .nowhere
  | .field triple depth inSpec _ => .field triple depth inSpec .nowhere

def closingLength : List Frame → Nat
  | [] => 0
  | .body _ triple _ _ :: outer => (if triple then 3 else 1) + closingLength outer
  | .field _ _ _ _ :: outer => 1 + closingLength outer

theorem closingLength_pos {frames : List Frame} (h : frames ≠ []) : 0 < closingLength frames := by
  match frames, h with
  | .body _ triple _ _ :: outer, _ =>
      rw [closingLength]
      split <;> omega
  | .field _ _ _ _ :: outer, _ =>
      rw [closingLength]
      omega

theorem literalStep_body {here : Position} {c : Char} {a z : Text} {outer frames' : List Frame}
    {quote : Char} {triple formatted : Bool} {start : Position} {n : Nat}
    (h : literalStep here c (a ++ z) (.body quote triple formatted start :: outer) =
      .ok (n, frames'))
    (hlong : n + closingLength frames' ≤ a.length) (here₂ start₂ : Position) {outer₂ : List Frame}
    (houter : outer₂.map Frame.bare = outer.map Frame.bare) (y : Text) :
    ∃ frames₂', literalStep here₂ c (a ++ y) (.body quote triple formatted start₂ :: outer₂) =
        .ok (n, frames₂') ∧
      frames₂'.map Frame.bare = frames'.map Frame.bare ∧
      closingLength (.body quote triple formatted start :: outer) ≤ n + 1 + closingLength frames' := by
  have htop : Frame.bare (.body quote triple formatted start₂) =
      Frame.bare (.body quote triple formatted start) := rfl
  have hpos : 0 < closingLength (.body quote triple formatted start :: outer) :=
    closingLength_pos (by simp)
  simp only [literalStep] at h ⊢
  by_cases hescape : (c == '\\') = true
  · simp only [hescape, if_true] at h ⊢
    cases a with
    | nil =>
        exfalso
        cases z with
        | nil => simp_all
        | cons d z =>
            simp only [List.nil_append] at h
            split at h <;> simp_all
    | cons d a =>
        simp only [List.cons_append] at h ⊢
        by_cases hd : Text.isLineBreak d = true
        · simp only [hd, if_true, Except.ok.injEq, Prod.mk.injEq] at h ⊢
          obtain ⟨rfl, rfl⟩ := h
          have := Text.lineBreakLength_pos (a ++ z) hd
          refine ⟨_, ⟨?_, rfl⟩, by simp [houter, htop], by omega⟩
          simp only [List.length_cons] at hlong
          exact Text.lineBreakLength_append (a := d :: a) y z (by simp; omega)
        · simp only [hd, Bool.false_eq_true, if_false, Except.ok.injEq, Prod.mk.injEq] at h ⊢
          obtain ⟨rfl, rfl⟩ := h
          exact ⟨_, ⟨rfl, rfl⟩, by simp [houter, htop], by omega⟩
  simp only [hescape, Bool.false_eq_true, if_false] at h ⊢
  by_cases hbreak : Text.isLineBreak c = true
  · simp only [hbreak, if_true] at h ⊢
    cases triple with
    | false => simp at h
    | true =>
        simp only [if_true, Except.ok.injEq, Prod.mk.injEq] at h ⊢
        obtain ⟨rfl, rfl⟩ := h
        refine ⟨_, ⟨?_, rfl⟩, by simp [houter, htop], by omega⟩
        have hlength := Text.lineBreakLength_append (a := c :: a) y z
          (by simp only [List.length_cons]; omega)
        simp only [List.cons_append] at hlength
        rw [hlength]
  simp only [hbreak, Bool.false_eq_true, if_false] at h ⊢
  by_cases hquote : (c == quote) = true
  · simp only [hquote, if_true] at h ⊢
    cases triple with
    | false =>
        simp only [Bool.false_eq_true, if_false, Except.ok.injEq, Prod.mk.injEq] at h ⊢
        obtain ⟨rfl, rfl⟩ := h
        exact ⟨_, ⟨rfl, rfl⟩, houter, by simp [closingLength]⟩
    | true =>
        simp only [if_true] at h ⊢
        by_cases htriple : isTriple quote (c :: (a ++ z)) = true
        · simp only [htriple, if_true, Except.ok.injEq, Prod.mk.injEq] at h
          obtain ⟨rfl, rfl⟩ := h
          have hsame : isTriple quote (c :: (a ++ y)) = true := by
            rw [← htriple]
            exact isTriple_append quote (a := c :: a) y z (by simp only [List.length_cons]; omega)
          simp only [hsame, if_true]
          exact ⟨_, rfl, houter, by simp [closingLength]⟩
        · simp only [htriple, Bool.false_eq_true, if_false, Except.ok.injEq, Prod.mk.injEq] at h
          obtain ⟨rfl, rfl⟩ := h
          have hthree : 3 ≤ a.length := by
            simp only [closingLength, if_true] at hlong
            omega
          have hsame : ¬ isTriple quote (c :: (a ++ y)) = true := by
            have := isTriple_append quote (a := c :: a) y z
              (by simp only [List.length_cons]; omega)
            simp only [List.cons_append] at this
            rwa [this]
          simp only [hsame, Bool.false_eq_true, if_false]
          exact ⟨_, rfl, by simp [houter, htop], by omega⟩
  simp only [hquote, Bool.false_eq_true, if_false] at h ⊢
  by_cases hfield : (c == '{' && formatted) = true
  · simp only [hfield, if_true] at h ⊢
    cases a with
    | nil =>
        exfalso
        cases z with
        | nil =>
            cases h
            simp [closingLength] at hlong
        | cons d z =>
            simp only [List.nil_append] at h
            split at h
            · cases h
              simp at hlong
            · cases h
              simp [closingLength] at hlong
    | cons d a =>
        simp only [List.cons_append] at h ⊢
        by_cases hd : d = '{'
        · subst hd
          simp only [Except.ok.injEq, Prod.mk.injEq] at h ⊢
          obtain ⟨rfl, rfl⟩ := h
          exact ⟨_, ⟨rfl, rfl⟩, by simp [houter, htop], by omega⟩
        · split at h
          · simp_all
          · cases h
            split
            · simp_all
            · refine ⟨_, rfl, by simp [houter, Frame.bare], ?_⟩
              simp only [closingLength]
              omega
  simp only [hfield, Bool.false_eq_true, if_false, Except.ok.injEq, Prod.mk.injEq] at h ⊢
  obtain ⟨rfl, rfl⟩ := h
  exact ⟨_, ⟨rfl, rfl⟩, by simp [houter, htop], by omega⟩

theorem literalStep_field {here : Position} {c : Char} {a z : Text} {outer frames' : List Frame}
    {triple inSpec : Bool} {depth : Nat} {start : Position} {n : Nat}
    (h : literalStep here c (a ++ z) (.field triple depth inSpec start :: outer) = .ok (n, frames'))
    (hlong : n + closingLength frames' ≤ a.length) (here₂ start₂ : Position) {outer₂ : List Frame}
    (houter : outer₂.map Frame.bare = outer.map Frame.bare) (y : Text) :
    ∃ frames₂', literalStep here₂ c (a ++ y) (.field triple depth inSpec start₂ :: outer₂) =
        .ok (n, frames₂') ∧
      frames₂'.map Frame.bare = frames'.map Frame.bare ∧
      closingLength (.field triple depth inSpec start :: outer) ≤ n + 1 + closingLength frames' := by
  simp only [literalStep] at h ⊢
  by_cases hbreak : Text.isLineBreak c = true
  · simp only [hbreak, if_true] at h ⊢
    cases triple with
    | false => simp at h
    | true =>
        simp only [if_true, Except.ok.injEq, Prod.mk.injEq] at h ⊢
        obtain ⟨rfl, rfl⟩ := h
        refine ⟨_, ⟨?_, rfl⟩, by simp [houter, Frame.bare], by omega⟩
        have hlength := Text.lineBreakLength_append (a := c :: a) y z (by
          simp only [List.length_cons, closingLength] at hlong ⊢
          omega)
        simp only [List.cons_append] at hlength
        rw [hlength]
  simp only [hbreak, Bool.false_eq_true, if_false] at h ⊢
  by_cases hclose : (c == '}' && depth == 0) = true
  · simp only [hclose, if_true, Except.ok.injEq, Prod.mk.injEq] at h ⊢
    obtain ⟨rfl, rfl⟩ := h
    exact ⟨_, ⟨rfl, rfl⟩, houter, by simp [closingLength]⟩
  simp only [hclose, Bool.false_eq_true, if_false] at h ⊢
  by_cases hopen : (c == '{' && inSpec) = true
  · simp only [hopen, if_true, Except.ok.injEq, Prod.mk.injEq] at h ⊢
    obtain ⟨rfl, rfl⟩ := h
    refine ⟨_, ⟨rfl, rfl⟩, by simp [houter, Frame.bare], ?_⟩
    simp only [closingLength]
    omega
  simp only [hopen, Bool.false_eq_true, if_false] at h ⊢
  by_cases hcolon : (c == ':' && depth == 0 && !inSpec) = true
  · simp only [hcolon, if_true, Except.ok.injEq, Prod.mk.injEq] at h ⊢
    obtain ⟨rfl, rfl⟩ := h
    refine ⟨_, ⟨rfl, rfl⟩, by simp [houter, Frame.bare], ?_⟩
    simp only [closingLength]
    omega
  simp only [hcolon, Bool.false_eq_true, if_false] at h ⊢
  by_cases hspec : inSpec = true
  · simp only [hspec, if_true, Except.ok.injEq, Prod.mk.injEq] at h ⊢
    obtain ⟨rfl, rfl⟩ := h
    refine ⟨_, ⟨rfl, rfl⟩, by simp [houter, Frame.bare], ?_⟩
    simp only [closingLength]
    omega
  simp only [hspec, Bool.false_eq_true, if_false] at h ⊢
  by_cases hquote : (c == '"' || c == '\'') = true
  · simp only [hquote, if_true, Except.ok.injEq, Prod.mk.injEq] at h ⊢
    obtain ⟨rfl, rfl⟩ := h
    have hsame : isTriple c (c :: (a ++ y)) = isTriple c (c :: (a ++ z)) := by
      refine isTriple_append c (a := c :: a) y z ?_
      simp only [closingLength, List.length_cons] at hlong ⊢
      split at hlong <;> omega
    refine ⟨_, ⟨?_, rfl⟩, ?_, ?_⟩
    · rw [quoteLength, quoteLength, hsame]
    · simp [houter, Frame.bare, hsame]
    · simp only [closingLength]
      omega
  simp only [hquote, Bool.false_eq_true, if_false] at h ⊢
  by_cases hword : Text.isAlphabetic c = true
  · simp only [hword, if_true] at h ⊢
    have hk : Text.lengthWhile Text.isWord (a ++ z) < a.length := by
      split at h
      · split at h
        · cases h
          simp only [closingLength] at hlong
          omega
        · cases h
          simp only [closingLength] at hlong
          omega
      · cases h
        simp only [closingLength] at hlong
        omega
    rw [Text.lengthWhile_append_of_lt y hk]
    generalize Text.lengthWhile Text.isWord (a ++ z) = k at h hk ⊢
    obtain ⟨q, b, hb⟩ : ∃ q b, a.drop k = q :: b :=
      List.exists_cons_of_ne_nil (by simpa using hk)
    have hlength : b.length + 1 = a.length - k := by
      rw [← List.length_drop, hb, List.length_cons]
    simp only [List.take_append_of_le_length (Nat.le_of_lt hk), List.drop_append_of_le_length (Nat.le_of_lt hk), hb,
      List.cons_append] at h ⊢
    by_cases hmark : ((q == '"' || q == '\'') &&
        literalMarks.contains (Text.lower (c :: a.take k))) = true
    · simp only [hmark, if_true, Except.ok.injEq, Prod.mk.injEq] at h ⊢
      obtain ⟨rfl, rfl⟩ := h
      have hsame : isTriple q (q :: (b ++ y)) = isTriple q (q :: (b ++ z)) := by
        refine isTriple_append q (a := q :: b) y z ?_
        simp only [closingLength, quoteLength, List.length_cons] at hlong ⊢
        split at hlong <;> omega
      refine ⟨_, ⟨?_, rfl⟩, ?_, ?_⟩
      · rw [quoteLength, quoteLength, hsame]
      · simp [houter, Frame.bare, hsame]
      · simp only [closingLength]
        omega
    · simp only [hmark, Bool.false_eq_true, if_false, Except.ok.injEq, Prod.mk.injEq] at h ⊢
      obtain ⟨rfl, rfl⟩ := h
      refine ⟨_, ⟨rfl, rfl⟩, by simp [houter, Frame.bare], ?_⟩
      simp only [closingLength]
      omega
  simp only [hword, Bool.false_eq_true, if_false] at h ⊢
  by_cases hopening : (c == '(' || c == '[' || c == '{') = true
  · simp only [hopening, if_true, Except.ok.injEq, Prod.mk.injEq] at h ⊢
    obtain ⟨rfl, rfl⟩ := h
    refine ⟨_, ⟨rfl, rfl⟩, by simp [houter, Frame.bare], ?_⟩
    simp only [closingLength]
    omega
  simp only [hopening, Bool.false_eq_true, if_false] at h ⊢
  by_cases hclosing : (c == ')' || c == ']' || c == '}') = true
  · simp only [hclosing, if_true, Except.ok.injEq, Prod.mk.injEq] at h ⊢
    obtain ⟨rfl, rfl⟩ := h
    refine ⟨_, ⟨rfl, rfl⟩, by simp [houter, Frame.bare], ?_⟩
    simp only [closingLength]
    omega
  simp only [hclosing, Bool.false_eq_true, if_false, Except.ok.injEq, Prod.mk.injEq] at h ⊢
  obtain ⟨rfl, rfl⟩ := h
  refine ⟨_, ⟨rfl, rfl⟩, by simp [houter, Frame.bare], ?_⟩
  simp only [closingLength]
  omega

/-- What a step does does not depend on places, nor on characters behind those that it takes and
those that the remaining frames need. -/
theorem literalStep_append {here : Position} {c : Char} {a z : Text} {frames frames' : List Frame}
    {n : Nat} (h : literalStep here c (a ++ z) frames = .ok (n, frames'))
    (hlong : n + closingLength frames' ≤ a.length) (here₂ : Position) {frames₂ : List Frame}
    (hframes : frames₂.map Frame.bare = frames.map Frame.bare) (y : Text) :
    ∃ frames₂', literalStep here₂ c (a ++ y) frames₂ = .ok (n, frames₂') ∧
      frames₂'.map Frame.bare = frames'.map Frame.bare ∧
      closingLength frames ≤ n + 1 + closingLength frames' := by
  match frames, frames₂, hframes with
  | [], [], _ =>
      cases h
      exact ⟨[], rfl, rfl, by simp [closingLength]⟩
  | .body quote triple formatted start :: outer, .body quote₂ triple₂ formatted₂ start₂ :: outer₂,
      hframes =>
      simp only [List.map_cons, List.cons.injEq, Frame.bare, Frame.body.injEq] at hframes
      obtain ⟨⟨rfl, rfl, rfl, -⟩, houter⟩ := hframes
      exact literalStep_body h hlong here₂ start₂ houter y
  | .field triple depth inSpec start :: outer, .field triple₂ depth₂ inSpec₂ start₂ :: outer₂,
      hframes =>
      simp only [List.map_cons, List.cons.injEq, Frame.bare, Frame.field.injEq] at hframes
      obtain ⟨⟨rfl, rfl, rfl, -⟩, houter⟩ := hframes
      exact literalStep_field h hlong here₂ start₂ houter y

theorem literalStep_le {here : Position} {c : Char} {cs : Text} {frames frames' : List Frame}
    {n : Nat} (h : literalStep here c cs frames = .ok (n, frames')) : n ≤ cs.length := by
  have hbreak := Text.lineBreakLength_le (c :: cs)
  have hquotes : ∀ q rest, quoteLength q (q :: rest) ≤ rest.length + 1 := by
    intro q rest
    unfold quoteLength
    split
    · rename_i htriple
      exact le_length_of_isTriple htriple
    · omega
  simp only [List.length_cons] at hbreak
  match frames with
  | [] =>
      cases h
      omega
  | .body quote triple formatted start :: outer =>
      simp only [literalStep] at h
      split at h
      · split at h
        · cases h
          omega
        · split at h <;> cases h
          · exact Text.lineBreakLength_le _
          · simp
      split at h
      · split at h <;> cases h
        omega
      split at h
      · split at h
        · split at h <;> cases h
          · rename_i htriple
            simpa using le_length_of_isTriple htriple
          · omega
        · cases h
          omega
      split at h
      · split at h <;> cases h <;> simp
      · cases h
        omega
  | .field triple depth inSpec start :: outer =>
      simp only [literalStep] at h
      split at h
      · split at h <;> cases h
        omega
      split at h
      · cases h
        omega
      split at h
      · cases h
        omega
      split at h
      · cases h
        omega
      split at h
      · cases h
        omega
      split at h
      · cases h
        have := hquotes c cs
        omega
      split at h
      · have hword : Text.lengthWhile Text.isWord cs ≤ cs.length := (List.takeWhile_prefix _).length_le
        split at h
        · rename_i q rest hdrop
          have hlength := congrArg List.length hdrop
          rw [List.length_drop, List.length_cons] at hlength
          split at h <;> cases h
          · have := hquotes q rest
            omega
          · omega
        · cases h
          omega
      split at h
      · cases h
        omega
      split at h <;> cases h <;> omega

theorem literalTail_append {here : Position} {frames : List Frame} {cs : Text} {n : Nat}
    (h : literalTail here frames cs = .ok n) :
    closingLength frames ≤ n ∧ n ≤ cs.length ∧
      ∀ here₂ frames₂ y, frames₂.map Frame.bare = frames.map Frame.bare →
        literalTail here₂ frames₂ (cs.take n ++ y) = .ok n := by
  fun_induction literalTail here frames cs generalizing n with
  | case1 here cs =>
      cases h
      refine ⟨by simp [closingLength], by omega, ?_⟩
      intro here₂ frames₂ y hframes
      rw [List.map_nil, List.map_eq_nil_iff] at hframes
      rw [hframes, literalTail]
  | case2 => cases h
  | case3 => cases h
  | case4 => cases h
  | case5 here top outer c rest k frames' hstep m htail ih =>
      cases h
      obtain ⟨hclosing, hm, hsame⟩ := ih htail
      have hk := literalStep_le hstep
      rw [List.length_drop] at hm
      have hsplit : rest.take (m + k) ++ rest.drop (m + k) = rest := List.take_append_drop _ _
      have hlength : (rest.take (m + k)).length = m + k := by
        rw [List.length_take]
        omega
      rw [← hsplit] at hstep
      have hlong : k + closingLength frames' ≤ (rest.take (m + k)).length := by omega
      refine ⟨?_, by simp only [List.length_cons]; omega, ?_⟩
      · obtain ⟨-, -, -, hle⟩ := literalStep_append hstep hlong here rfl []
        omega
      · intro here₂ frames₂ y hframes
        obtain ⟨frames₂', hstep₂, hframes', -⟩ := literalStep_append hstep hlong here₂ hframes y
        cases frames₂ with
        | nil => simp at hframes
        | cons top₂ outer₂ =>
            rw [List.take_succ_cons, List.cons_append, literalTail, hstep₂]
            simp only
            have hdrop : (rest.take (m + k) ++ y).drop k = (rest.drop k).take m ++ y := by
              rw [List.drop_append_of_le_length (by omega), List.drop_take, Nat.add_sub_cancel]
            rw [hdrop, hsame _ _ _ hframes']

/-- The length of a literal depends on its own characters only, except that a third quote behind an
empty literal would open a long one. -/
theorem literalLength_append {formatted : Bool} {start here : Position} {quote : Char}
    {cs : Text} {n : Nat} (h : literalLength formatted start here quote (quote :: cs) = .ok n) :
    2 ≤ n ∧ n ≤ cs.length + 1 ∧
      ∀ start₂ here₂ y,
        (n = 2 → y.head? = ((quote :: cs).drop n).head? ∨ y.head? ≠ some quote) →
        literalLength formatted start₂ here₂ quote ((quote :: cs).take n ++ y) = .ok n := by
  unfold literalLength at h
  obtain ⟨m, htail, rfl⟩ := exists_of_map_eq_ok h
  obtain ⟨hclosing, hm, hsame⟩ := literalTail_append htail
  have hquotes : quoteLength quote (quote :: cs) =
      if isTriple quote (quote :: cs) then 3 else 1 := rfl
  have hpos : 1 ≤ quoteLength quote (quote :: cs) := by
    rw [hquotes]
    split <;> omega
  simp only [closingLength] at hclosing
  rw [List.length_drop, List.length_cons] at hm
  generalize hk : quoteLength quote (quote :: cs) = k at *
  have hn : 2 ≤ m + k := by
    split at hclosing <;> omega
  have hfits : k ≤ cs.length + 1 := by
    rw [← hk]
    unfold quoteLength
    split
    · rename_i htriple
      exact le_length_of_isTriple htriple
    · omega
  refine ⟨hn, by omega, ?_⟩
  intro start₂ here₂ y hy
  have htake : ((quote :: cs).take (m + k)).length = m + k := by
    rw [List.length_take, List.length_cons]
    omega
  have htriple : isTriple quote ((quote :: cs).take (m + k) ++ y) =
      isTriple quote (quote :: cs) := by
    by_cases hlong : 3 ≤ m + k
    · have happ := isTriple_append quote y ((quote :: cs).drop (m + k))
        (a := (quote :: cs).take (m + k)) (by omega)
      rwa [List.take_append_drop] at happ
    · -- Two characters are an empty literal, and the next one is no quote.
      have hshort : isTriple quote (quote :: cs) = false := by
        cases hopen : isTriple quote (quote :: cs) with
        | false => rfl
        | true =>
            simp only [hopen, if_true] at hclosing
            omega
      have htwo : m + k = 2 := by omega
      rw [hshort, htwo, ← Bool.not_eq_true]
      rw [htwo] at htake hy
      rw [← Bool.not_eq_true, ← List.take_append_drop 2 (quote :: cs)] at hshort
      obtain ⟨c, d, hcd⟩ : ∃ c d, (quote :: cs).take 2 = [c, d] := by
        match (quote :: cs).take 2, htake with
        | [c, d], _ => exact ⟨c, d, rfl⟩
      rw [hcd] at hshort ⊢
      intro hlong
      obtain ⟨hc, hd, hhead⟩ := isTriple_cons_cons.mp hlong
      rcases hy rfl with hsame | hne
      · exact hshort (isTriple_cons_cons.mpr ⟨hc, hd, hsame ▸ hhead⟩)
      · exact hne hhead
  have hdrop : ((quote :: cs).take (m + k) ++ y).drop k = ((quote :: cs).drop k).take m ++ y := by
    rw [List.drop_append_of_le_length (by omega), List.drop_take, Nat.add_sub_cancel]
  have hframes : ([Frame.body quote (isTriple quote (quote :: cs)) formatted start₂]).map Frame.bare =
      [Frame.body quote (isTriple quote (quote :: cs)) formatted start].map Frame.bare := rfl
  have hlength : quoteLength quote ((quote :: cs).take (m + k) ++ y) = k := by
    rw [quoteLength, htriple, ← hquotes]
  unfold literalLength
  simp only [hlength, htriple, hdrop, hsame _ _ y hframes]
  rfl

end Lexeme

end SchemaTidy
