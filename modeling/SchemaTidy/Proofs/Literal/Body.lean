import SchemaTidy.Proofs.Literal.Value
import SchemaTidy.Proofs.Token.Cut

/-!
# Bodies of literals

What can stand between single quotes, and that the scanner takes a literal as one token exactly if
such a text stands between its quotes.
-/

namespace SchemaTidy

open Lexeme

/-- A text between quotes `q`. A backslash takes the character behind it, or a line break of two
characters. Elsewhere neither the quote nor a line break can stand. -/
inductive IsBody (q : Char) : Text → Prop
  | nil : IsBody q []
  | char {c : Char} {cs : Text} (hescape : c ≠ '\\') (hquote : c ≠ q)
      (hbreak : Text.isLineBreak c = false) (hcs : IsBody q cs) : IsBody q (c :: cs)
  | escape (c : Char) {cs : Text} (hcs : IsBody q cs) : IsBody q ('\\' :: c :: cs)
  | lineBreak {cs : Text} (hcs : IsBody q cs) : IsBody q ('\\' :: '\r' :: '\n' :: cs)

theorem isQuote_iff {c : Char} : isQuote c = true ↔ c = '"' ∨ c = '\'' := by
  simp [isQuote]

theorem quote_facts {q : Char} (hq : isQuote q = true) :
    q ≠ '\\' ∧ Text.isLineBreak q = false ∧ Text.isIndent q = false ∧ q ≠ '#' ∧
      Text.isWordStart q = false ∧ Text.isWord q = false := by
  rcases isQuote_iff.mp hq with rfl | rfl <;> decide

namespace IsBody

variable {q : Char} {body : Text}

theorem head?_ne_lineFeed (h : IsBody q body) : body.head? ≠ some '\n' := by
  cases h with
  | nil => simp
  | char hescape hquote hbreak hcs =>
      rw [List.head?_cons, Ne, Option.some.injEq]
      rintro rfl
      cases hbreak
  | escape c hcs => simp
  | lineBreak hcs => simp

theorem head?_ne_quote (hq : q ≠ '\\') (h : IsBody q body) : body.head? ≠ some q := by
  cases h with
  | nil => simp
  | char hescape hquote hbreak hcs => simpa using hquote
  | escape c hcs => simpa using hq.symm
  | lineBreak hcs => simpa using hq.symm

theorem not_splitsBreak (h : IsBody q body) (c : Char) : ¬ splitsBreak c body :=
  fun hsplits => h.head?_ne_lineFeed hsplits.2

theorem append {other : Text} (h : IsBody q body) (hother : IsBody q other) :
    IsBody q (body ++ other) := by
  induction h with
  | nil => exact hother
  | char hescape hquote hbreak hcs ih => exact .char hescape hquote hbreak ih
  | escape c hcs ih => exact .escape c ih
  | lineBreak hcs ih => exact .lineBreak ih

theorem flatten {bodies : List Text} (h : ∀ body ∈ bodies, IsBody q body) :
    IsBody q bodies.flatten := by
  induction bodies with
  | nil => exact .nil
  | cons body bodies ih =>
      rw [List.flatten_cons]
      exact (h body (by simp)).append (ih fun b hb => h b (by simp [hb]))

end IsBody

/-! ## The closing quote -/

theorem lineBreakLength_of_not_splitsBreak {c : Char} {cs : Text} (hc : Text.isLineBreak c = true)
    (h : ¬ splitsBreak c cs) : Text.lineBreakLength (c :: cs) = 1 := by
  cases cs with
  | nil => simp [Text.lineBreakLength, hc]
  | cons d cs =>
      rw [Text.lineBreakLength_cons_cons, if_neg (by simpa [splitsBreak] using h), if_pos hc]

theorem literalStep_escape (here : Position) (c q : Char) (cs : Text) (start : Position)
    (h : ¬ splitsBreak c cs) :
    literalStep here '\\' (c :: cs) [.body q false false start] =
      .ok (1, [.body q false false start]) := by
  simp only [literalStep, beq_self_eq_true, if_true]
  split
  · rename_i hc
    rw [lineBreakLength_of_not_splitsBreak hc h]
  · rfl

theorem literalTail_cons {here : Position} {top : Frame} {outer frames : List Frame} {c : Char}
    {cs : Text} {n m total : Nat} (hstep : literalStep here c cs (top :: outer) = .ok (n, frames))
    (hrest : literalTail (here.after (c :: cs.take n)) frames (cs.drop n) = .ok m)
    (htotal : m + n + 1 = total) : literalTail here (top :: outer) (c :: cs) = .ok total := by
  rw [literalTail, hstep]
  simp only [hrest, htotal]

theorem exists_of_literalTail_cons {here : Position} {top : Frame} {outer : List Frame} {c : Char}
    {cs : Text} {total : Nat} (h : literalTail here (top :: outer) (c :: cs) = .ok total) :
    ∃ n frames m, literalStep here c cs (top :: outer) = .ok (n, frames) ∧
      literalTail (here.after (c :: cs.take n)) frames (cs.drop n) = .ok m ∧ m + n + 1 = total := by
  rw [literalTail] at h
  split at h
  · cases h
  rename_i n frames hstep
  split at h
  · cases h
  rename_i m hrest
  cases h
  exact ⟨n, frames, m, hstep, hrest, rfl⟩

theorem literalTail_nil (here : Position) (cs : Text) : literalTail here [] cs = .ok 0 := by
  rw [literalTail]

theorem literalTail_of_isBody {q : Char} (hq : isQuote q = true) {body : Text} (h : IsBody q body)
    (here start : Position) (rest : Text) :
    literalTail here [.body q false false start] (body ++ q :: rest) = .ok (body.length + 1) := by
  obtain ⟨hescape, hbreak, -⟩ := quote_facts hq
  induction h generalizing here with
  | nil =>
      have hstep : literalStep here q rest [.body q false false start] = .ok (0, []) := by
        simp [literalStep, hescape, hbreak]
      exact literalTail_cons hstep (literalTail_nil _ _) rfl
  | @char c cs hc hquote hline hcs ih =>
      have hstep : literalStep here c (cs ++ q :: rest) [.body q false false start] =
          .ok (0, [.body q false false start]) := by
        simp [literalStep, hc, hline, hquote]
      exact literalTail_cons hstep (ih _) rfl
  | @escape c cs hcs ih =>
      have hsplits : ¬ splitsBreak c (cs ++ q :: rest) := by
        rintro ⟨-, hhead⟩
        cases cs with
        | nil =>
            have hfeed : q = '\n' := by simpa using hhead
            rw [hfeed] at hbreak
            cases hbreak
        | cons d cs => exact hcs.head?_ne_lineFeed hhead
      exact literalTail_cons (literalStep_escape here c q _ start hsplits) (ih _) rfl
  | @lineBreak cs hcs ih =>
      have hstep : literalStep here '\\' ('\r' :: '\n' :: (cs ++ q :: rest))
          [.body q false false start] = .ok (2, [.body q false false start]) := by
        simp [literalStep, Text.isLineBreak, Text.lineBreakLength]
      exact literalTail_cons hstep (ih _) rfl

/-- The moves of the scanner in a body: it ends at the quote, or goes over a character or an escape. -/
theorem literalStep_body_cases {here start : Position} {c q : Char} {cs : Text} {k : Nat}
    {frames : List Frame}
    (h : literalStep here c cs [.body q false false start] = .ok (k, frames)) :
    (c = q ∧ k = 0 ∧ frames = []) ∨
      frames = [.body q false false start] ∧
        ((c ≠ '\\' ∧ c ≠ q ∧ Text.isLineBreak c = false ∧ k = 0) ∨
          (c = '\\' ∧ cs = [] ∧ k = 0) ∨
          (c = '\\' ∧ ∃ d ds, cs = d :: ds ∧ k = 1) ∨
          (c = '\\' ∧ ∃ ds, cs = '\r' :: '\n' :: ds ∧ k = 2)) := by
  by_cases hescape : c = '\\'
  · subst hescape
    cases cs with
    | nil =>
        simp only [literalStep, beq_self_eq_true, if_true, Except.ok.injEq, Prod.mk.injEq] at h
        exact .inr ⟨h.2.symm, .inr (.inl ⟨rfl, rfl, h.1.symm⟩)⟩
    | cons d ds =>
        by_cases hsplits : splitsBreak d ds
        · obtain ⟨rfl, hhead⟩ := hsplits
          obtain ⟨ds, rfl⟩ := List.head?_eq_some_iff.mp hhead
          simp only [literalStep, beq_self_eq_true, Text.isLineBreak, Text.lineBreakLength,
            Bool.or_true, if_true, Except.ok.injEq, Prod.mk.injEq] at h
          exact .inr ⟨h.2.symm, .inr (.inr (.inr ⟨rfl, ds, rfl, h.1.symm⟩))⟩
        · rw [literalStep_escape here d q ds start hsplits, Except.ok.injEq, Prod.mk.injEq] at h
          exact .inr ⟨h.2.symm, .inr (.inr (.inl ⟨rfl, d, ds, rfl, h.1.symm⟩))⟩
  · by_cases hbreak : Text.isLineBreak c = true
    · simp [literalStep, hescape, hbreak] at h
    · by_cases hquote : c = q
      · subst hquote
        simp only [literalStep, beq_iff_eq, hescape, hbreak, if_true, if_false,
          Bool.false_eq_true, Except.ok.injEq, Prod.mk.injEq] at h
        exact .inl ⟨rfl, h.1.symm, h.2.symm⟩
      · simp only [literalStep, beq_iff_eq, hescape, hbreak, hquote, Bool.and_false, if_false,
          Bool.false_eq_true, Except.ok.injEq, Prod.mk.injEq] at h
        rw [Bool.not_eq_true] at hbreak
        exact .inr ⟨h.2.symm, .inl ⟨hescape, hquote, hbreak, h.1.symm⟩⟩

/-- What the scanner goes over to the closing quote is a body. -/
theorem exists_isBody_of_literalTail {q : Char} {here start : Position} {cs : Text} {n : Nat}
    (h : literalTail here [.body q false false start] cs = .ok n) :
    ∃ body rest, cs = body ++ q :: rest ∧ n = body.length + 1 ∧ IsBody q body := by
  induction hlength : cs.length using Nat.strongRecOn generalizing here cs n with
  | ind length ih =>
      cases cs with
      | nil =>
          rw [literalTail] at h
          cases h
      | cons c cs =>
          obtain ⟨k, frames, m, hstep, hrest, rfl⟩ := exists_of_literalTail_cons h
          rw [List.length_cons] at hlength
          rcases literalStep_body_cases hstep with ⟨rfl, rfl, rfl⟩ | ⟨rfl, hcases⟩
          · rw [literalTail, Except.ok.injEq] at hrest
            subst hrest
            exact ⟨[], cs, rfl, rfl, .nil⟩
          obtain ⟨body, rest, hdrop, rfl, hbody⟩ := ih (cs.drop k).length
            (by rw [List.length_drop]; omega) hrest rfl
          rcases hcases with ⟨hescape, hquote, hbreak, rfl⟩ | ⟨rfl, rfl, rfl⟩ |
            ⟨rfl, d, ds, rfl, rfl⟩ | ⟨rfl, ds, rfl, rfl⟩
          · rw [List.drop_zero] at hdrop
            subst hdrop
            exact ⟨c :: body, rest, rfl, by simp, .char hescape hquote hbreak hbody⟩
          · simp at hdrop
          · rw [List.drop_succ_cons, List.drop_zero] at hdrop
            subst hdrop
            exact ⟨'\\' :: d :: body, rest, rfl, by simp, .escape d hbody⟩
          · rw [List.drop_succ_cons, List.drop_succ_cons, List.drop_zero] at hdrop
            subst hdrop
            exact ⟨'\\' :: '\r' :: '\n' :: body, rest, rfl, by simp, .lineBreak hbody⟩

/-! ## One token -/

/-- Marks of a literal that is neither raw nor formatted. -/
def plainMarks : List Text := [[], ['u'], ['U'], ['b'], ['B']]

/-- A body between single quotes does not open long ones. -/
theorem IsBody.isTriple_eq_false {q : Char} (hq : isQuote q = true) {body : Text}
    (h : IsBody q body) : isTriple q (q :: (body ++ [q])) = false := by
  rw [← Bool.not_eq_true]
  cases body with
  | nil => simp [isTriple, List.isPrefixOf]
  | cons c cs =>
      intro htriple
      have hhead := (isTriple_cons_cons.mp htriple).2.1
      exact h.head?_ne_quote (quote_facts hq).1 (by rw [List.head?_cons, hhead])

theorem literalLength_of_isBody {q : Char} (hq : isQuote q = true) {body : Text} (h : IsBody q body)
    (start here : Position) :
    literalLength false start here q (q :: (body ++ [q])) = .ok (body.length + 2) := by
  simp only [literalLength, quoteLength, h.isTriple_eq_false hq, Bool.false_eq_true, if_false,
    List.drop_succ_cons, List.drop_zero, literalTail_of_isBody hq h, Except.map]

theorem cuts_of_isBody {marks : Text} (hmarks : marks ∈ plainMarks) {q : Char}
    (hq : isQuote q = true) {body : Text} (h : IsBody q body) :
    Cuts .string (marks ++ q :: (body ++ [q])) [] := by
  obtain ⟨hescape, hbreak, hindent, hcomment, hstart, hword⟩ := quote_facts hq
  have hquote : (q == '"' || q == '\'') = true := hq
  have hlength := literalLength_of_isBody hq h
  refine ⟨by simp, ?_⟩
  have hcases : marks = [] ∨ ∃ m ∈ "uUbB".toList, marks = [m] := by
    simp only [plainMarks, List.mem_cons, List.not_mem_nil, or_false] at hmarks
    rcases hmarks with rfl | rfl | rfl | rfl | rfl <;> simp
  rcases hcases with rfl | ⟨m, hm, rfl⟩
  · refine ⟨q, body ++ [q], rfl, ?_⟩
    intro inBrackets here
    rw [List.append_nil]
    simp [scan, hescape, hbreak, hindent, hcomment, hstart, hquote, hlength, Except.map]
  · refine ⟨m, q :: (body ++ [q]), rfl, ?_⟩
    intro inBrackets here
    have hletter : ∀ m ∈ "uUbB".toList, Text.isIndent m = false ∧ m ≠ '\\' ∧ m ≠ '#' ∧
        Text.isLineBreak m = false ∧ Text.isWordStart m = true ∧
        literalMarks.contains (Text.lower [m]) = true ∧ (Text.lower [m]).contains 'f' = false :=
      forall_mem_of_all (by decide)
    obtain ⟨h₁, h₂, h₃, h₄, h₅, h₆, h₇⟩ := hletter m hm
    have hzero : Text.lengthWhile Text.isWord (q :: (body ++ [q])) = 0 := by
      simp [Text.lengthWhile, hword]
    rw [List.append_nil]
    simp only [scan, h₁, h₂, h₃, h₄, h₅, hzero, List.take_zero, List.drop_zero, hquote, h₆, h₇, hlength,
      beq_iff_eq, Bool.false_eq_true, if_false, if_true, Bool.and_true, Except.map]
    simp

theorem eq_of_toLower_eq (upper : Char) {c lower : Char} (hcase : upper.toNat + 32 = lower.toNat)
    (h : c.toLower = lower) : c = lower ∨ c = upper := by
  unfold Char.toLower at h
  split at h
  · right
    rename_i hrange
    subst h
    have hsum : (c.val + ('a'.val - 'A'.val)).toNat = c.val.toNat + 32 := by
      have hle := UInt32.le_iff_toNat_le.mp hrange.2
      have hz : 'Z'.val.toNat = 90 := rfl
      have hstep : ('a'.val - 'A'.val).toNat = 32 := rfl
      rw [UInt32.toNat_add, hstep]
      omega
    have hvalues : upper.val.toNat + 32 = c.val.toNat + 32 := hcase.trans hsum
    exact Char.ext (UInt32.toNat_inj.mp (by omega))
  · exact .inl h

theorem mem_plainMarks {marks : Text} (h : literalMarks.contains (Text.lower marks) = true)
    (hraw : isRaw marks = false) (hformatted : isFormatted marks = false) : marks ∈ plainMarks := by
  have hr {c : Char} (hc : c ∈ marks) : c.toLower ≠ 'r' := by
    intro hlower
    rcases eq_of_toLower_eq 'R' rfl hlower with rfl | rfl <;> simp [isRaw, hc] at hraw
  have hf {c : Char} (hc : c ∈ marks) : c.toLower ≠ 'f' := by
    intro hlower
    rcases eq_of_toLower_eq 'F' rfl hlower with rfl | rfl <;>
      simp [isFormatted, hc] at hformatted
  have hmem : ∀ mark ∈ literalMarks, 'r' ∈ mark ∨ 'f' ∈ mark ∨ mark = ['u'] ∨ mark = ['b'] := by
    decide
  have hlower (d : Char) (hd : d ∈ Text.lower marks) : ∃ c ∈ marks, c.toLower = d :=
    List.mem_map.mp hd
  have hletter {d : Char} (hd : Text.lower marks = [d]) : ∃ c, marks = [c] ∧ c.toLower = d := by
    obtain ⟨c, rest, rfl, hc, hrest⟩ := List.map_eq_cons_iff.mp hd
    rw [List.map_eq_nil_iff] at hrest
    exact ⟨c, by rw [hrest], hc⟩
  rcases hmem _ (List.contains_iff_mem.mp h) with hd | hd | hd | hd
  · obtain ⟨c, hc, hclower⟩ := hlower _ hd
    exact absurd hclower (hr hc)
  · obtain ⟨c, hc, hclower⟩ := hlower _ hd
    exact absurd hclower (hf hc)
  · obtain ⟨c, rfl, hc⟩ := hletter hd
    rcases eq_of_toLower_eq 'U' rfl hc with rfl | rfl <;> decide
  · obtain ⟨c, rfl, hc⟩ := hletter hd
    rcases eq_of_toLower_eq 'B' rfl hc with rfl | rfl <;> decide

theorem startsTriple_eq_isTriple {q : Char} (hq : isQuote q = true) (cs : Text) :
    startsTriple (q :: cs) = isTriple q (q :: cs) := by
  match cs with
  | [] => simp [startsTriple, isTriple, List.isPrefixOf]
  | [c] => simp [startsTriple, isTriple, List.isPrefixOf]
  | c :: d :: cs =>
      rw [Bool.eq_iff_iff, isTriple_cons_cons]
      simp only [startsTriple, hq, Bool.true_and, Bool.and_eq_true, beq_iff_eq, List.head?_cons,
        Option.some.injEq, true_and]
      constructor
      · rintro ⟨rfl, rfl⟩
        exact ⟨rfl, rfl⟩
      · rintro ⟨rfl, rfl⟩
        exact ⟨rfl, rfl⟩

theorem exists_isBody_of_literalLength {q : Char} (hq : isQuote q = true) {start here : Position}
    {cs : Text} (htriple : startsTriple (q :: cs) = false)
    (h : literalLength false start here q (q :: cs) = .ok (cs.length + 1)) :
    ∃ body, cs = body ++ [q] ∧ IsBody q body := by
  rw [startsTriple_eq_isTriple hq] at htriple
  simp only [literalLength, quoteLength, htriple, Bool.false_eq_true, if_false, List.drop_succ_cons,
    List.drop_zero] at h
  obtain ⟨n, htail, hn⟩ := exists_of_map_eq_ok h
  obtain ⟨body, rest, rfl, rfl, hbody⟩ := exists_isBody_of_literalTail htail
  rw [List.length_append, List.length_cons] at hn
  have hrest : rest = [] := List.length_eq_zero_iff.mp (by omega)
  exact ⟨body, by rw [hrest], hbody⟩

theorem takeWhile_marks {marks : Text} (hmarks : ∀ d ∈ marks, isQuote d = false) {q : Char}
    (hq : isQuote q = true) (rest : Text) :
    (marks ++ q :: rest).takeWhile (!isQuote ·) = marks ∧
      (marks ++ q :: rest).dropWhile (!isQuote ·) = q :: rest := by
  have hmarks' : ∀ d ∈ marks, (!isQuote d) = true := fun d hd => by simp [hmarks d hd]
  constructor
  · rw [List.takeWhile_append_of_pos hmarks', List.takeWhile_cons_of_neg (by simp [hq]),
      List.append_nil]
  · rw [List.dropWhile_append_of_pos hmarks', List.dropWhile_cons_of_neg (by simp [hq])]

theorem scan_string_cases {inBrackets : Bool} {here : Position} {c : Char} {cs : Text} {n : Nat}
    (h : scan inBrackets here c cs = .ok (.token .string, n)) :
    ∃ marks q rest, c :: cs = marks ++ q :: rest ∧ (∀ d ∈ marks, isQuote d = false) ∧
      isQuote q = true ∧ (marks = [] ∨ literalMarks.contains (Text.lower marks) = true) ∧
      ∃ behind m, literalLength ((Text.lower marks).contains 'f') here behind q (q :: rest) = .ok m ∧
        marks.length + m = n + 1 := by
  unfold scan at h
  split at h
  · cases h
  split at h
  · split at h
    · cases h
    · split at h <;> cases h
  split at h
  · cases h
  split at h
  · cases inBrackets <;> cases h
  split at h
  · rename_i hstart
    simp only at h
    split at h
    · rename_i q rest hdrop
      split at h
      · rename_i hmarks
        rw [Bool.and_eq_true] at hmarks
        obtain ⟨m, hlength, hpair⟩ := exists_of_map_eq_ok h
        simp only [Prod.mk.injEq, true_and] at hpair
        refine ⟨c :: cs.take (Text.lengthWhile Text.isWord cs), q, rest, ?_, ?_, hmarks.1,
          .inr hmarks.2, _, m, hlength, ?_⟩
        · rw [← hdrop, List.cons_append, List.take_append_drop]
        · intro d hd
          rw [← Bool.not_eq_true]
          intro hquote
          obtain ⟨-, -, -, -, hnotStart, hnotWord⟩ := quote_facts hquote
          rcases List.mem_cons.mp hd with rfl | hd
          · exact absurd (hstart.symm.trans hnotStart) (by simp)
          · rw [Text.take_lengthWhile] at hd
            have hword := List.all_eq_true.mp List.all_takeWhile d hd
            exact absurd (hword.symm.trans hnotWord) (by simp)
        · rw [List.length_cons, Text.take_lengthWhile]
          rw [Text.lengthWhile] at hpair
          omega
      · cases h
    · cases h
  split at h
  · rename_i hquote
    obtain ⟨m, hlength, hpair⟩ := exists_of_map_eq_ok h
    simp only [Prod.mk.injEq, true_and] at hpair
    have hm := (literalLength_append hlength).1
    exact ⟨[], c, cs, rfl, by simp, hquote, .inl rfl, here, m, hlength, by simp; omega⟩
  split at h
  · cases h
  · split at h <;> cases h

theorem exists_isBody_of_cuts {text : Text} (h : Cuts .string text [])
    (hraw : isRaw (text.takeWhile (!isQuote ·)) = false)
    (hformatted : isFormatted (text.takeWhile (!isQuote ·)) = false)
    (htriple : startsTriple (text.dropWhile (!isQuote ·)) = false) :
    ∃ marks q body, text = marks ++ q :: (body ++ [q]) ∧ marks ∈ plainMarks ∧ isQuote q = true ∧
      IsBody q body := by
  obtain ⟨-, c, cs, rfl, hscan⟩ := h
  have hscan := hscan true .start
  rw [List.append_nil] at hscan
  obtain ⟨marks, q, rest, hsplit, hmarks, hquote, hletters, behind, m, hlength, hm⟩ :=
    scan_string_cases hscan
  have hcut := takeWhile_marks hmarks hquote rest
  rw [hsplit, hcut.1] at hraw hformatted
  rw [hsplit, hcut.2] at htriple
  have hplain : marks ∈ plainMarks := by
    rcases hletters with rfl | hletters
    · decide
    · exact mem_plainMarks hletters hraw hformatted
  have hunformatted : ∀ marks ∈ plainMarks, (Text.lower marks).contains 'f' = false := by decide
  rw [hunformatted _ hplain] at hlength
  have hsize := congrArg List.length hsplit
  rw [List.length_append, List.length_cons, List.length_cons] at hsize
  rw [show m = rest.length + 1 by omega] at hlength
  obtain ⟨body, rfl, hbody⟩ := exists_isBody_of_literalLength hquote htriple hlength
  exact ⟨marks, q, body, hsplit, hplain, hquote, hbody⟩

end SchemaTidy
