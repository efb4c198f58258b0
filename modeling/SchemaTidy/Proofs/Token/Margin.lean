import SchemaTidy.Proofs.Token.Lexing

/-!
# What may stand between two words

Blanks, line breaks, comments and continuations stand between two words inside of brackets. A text is
judged character by character: a word may follow it unless it ends in an open comment or behind a
backslash. So texts can be judged when they are put together from parts of others.
-/

namespace SchemaTidy

/-- How far a text between two words has got. -/
inductive Margin where
  /-- A word may follow. -/
  | clear
  /-- A comment is open. -/
  | comment
  /-- A backslash waits for the end of its line. -/
  | escaped

namespace Margin

def step : Margin → Char → Option Margin
  | clear, c =>
      if Text.isIndent c || Text.isLineBreak c then some clear
      else if c == '#' then some comment
      else if c == '\\' then some escaped
      else none
  | comment, c => some (if Text.isLineBreak c then clear else comment)
  | escaped, c => if Text.isLineBreak c then some clear else none

def run (m : Margin) (t : Text) : Option Margin := t.foldlM step m

@[simp] theorem run_nil (m : Margin) : m.run [] = some m := rfl

theorem run_cons (m : Margin) (c : Char) (t : Text) :
    m.run (c :: t) = (m.step c).bind (·.run t) := rfl

theorem run_append (m : Margin) (a b : Text) : m.run (a ++ b) = (m.run a).bind (·.run b) :=
  List.foldlM_append

theorem step_break (m : Margin) {c : Char} (hc : Text.isLineBreak c = true) :
    m.step c = some clear := by
  cases m <;> simp [step, hc]

theorem run_break (m : Margin) {c : Char} (hc : Text.isLineBreak c = true) (t : Text) :
    m.run (c :: t) = clear.run t := by
  rw [run_cons, step_break m hc]
  rfl

theorem run_indent {c : Char} (hc : Text.isIndent c = true) (t : Text) :
    clear.run (c :: t) = clear.run t := by
  rw [run_cons, step, if_pos (by simp [hc])]
  rfl

theorem run_comment {row : Text} (hrow : ∀ c ∈ row, Text.isLineBreak c = false) (t : Text) :
    comment.run (row ++ t) = comment.run t := by
  induction row with
  | nil => rfl
  | cons c row ih =>
      rw [List.cons_append, run_cons, step, if_neg (by simp [hrow c (by simp)]), Option.bind_some]
      exact ih fun d hd => hrow d (by simp [hd])

theorem run_numberSign {row : Text} (hrow : ∀ c ∈ row, Text.isLineBreak c = false) (t : Text) :
    clear.run ('#' :: (row ++ t)) = comment.run t := by
  rw [run_cons, show clear.step '#' = some comment from rfl, Option.bind_some, run_comment hrow]

theorem run_comment_of_break {m m' : Margin} {t : Text} (h : m.run t = some m')
    (hbreak : t.any Text.isLineBreak = true) : comment.run t = some m' := by
  induction t generalizing m with
  | nil => cases hbreak
  | cons c t ih =>
      cases hc : Text.isLineBreak c with
      | true => rwa [run_break _ hc, ← run_break m hc]
      | false =>
          rw [List.any_cons, hc, Bool.false_or] at hbreak
          obtain ⟨m₁, -, hrest⟩ := Option.bind_eq_some_iff.mp (run_cons m c t ▸ h)
          rw [run_cons, step, if_neg (by simp [hc]), Option.bind_some]
          exact ih hrest hbreak

theorem ne_comment_of_run {m m' : Margin} {t : Text} (ht : '#' ∉ t) (hm : m ≠ comment)
    (h : m.run t = some m') : m' ≠ comment := by
  induction t generalizing m with
  | nil =>
      obtain rfl := Option.some.inj h
      exact hm
  | cons c t ih =>
      obtain ⟨m₁, hstep, hrest⟩ := Option.bind_eq_some_iff.mp (run_cons m c t ▸ h)
      refine ih (fun hc => ht (by simp [hc])) ?_ hrest
      have hc : c ≠ '#' := fun hc => ht (by simp [hc])
      cases m with
      | clear =>
          simp only [step, beq_iff_eq, hc, if_false] at hstep
          split at hstep
          · cases hstep
            simp
          · split at hstep <;> cases hstep
            simp
      | comment => exact absurd rfl hm
      | escaped =>
          simp only [step] at hstep
          split at hstep <;> cases hstep
          simp

/-- A number sign can only be read where a word could follow, or inside of a comment. -/
theorem run_beforeComment {m m' : Margin} {a t : Text} (ha : '#' ∉ a) (hm : m ≠ comment)
    (h : m.run (a ++ '#' :: t) = some m') : m.run a = some clear := by
  rw [run_append] at h
  obtain ⟨m₁, ha', hrest⟩ := Option.bind_eq_some_iff.mp h
  have hne := ne_comment_of_run ha hm ha'
  cases m₁ with
  | clear => exact ha'
  | comment => exact absurd rfl hne
  | escaped => cases hrest

end Margin

/-- A text after which a word may follow. -/
def IsMargin (t : Text) : Prop := Margin.clear.run t = some .clear

/-- A leading part of a text that may stand between words. -/
def IsMarginPart (t : Text) : Prop := (Margin.clear.run t).isSome = true

/-- A comment that ends a line, with what stands before it, or nothing. -/
def IsLineTail (t : Text) : Prop := t = [] ∨ Margin.clear.run t = some .comment

theorem isMargin_nil : IsMargin [] := rfl

theorem isMargin_blanks {ws : Text} (hws : ∀ c ∈ ws, Text.isIndent c = true) : IsMargin ws := by
  induction ws with
  | nil => rfl
  | cons c ws ih =>
      rw [IsMargin, Margin.run_indent (hws c (by simp))]
      exact ih fun d hd => hws d (by simp [hd])

theorem IsMargin.append {a b : Text} (ha : IsMargin a) (hb : IsMargin b) : IsMargin (a ++ b) := by
  rw [IsMargin, Margin.run_append, ha]
  exact hb

theorem IsMargin.of_append {a b : Text} (h : IsMargin (a ++ b)) (ha : IsMargin a) : IsMargin b := by
  rw [IsMargin, Margin.run_append, ha] at h
  exact h

theorem isMarginPart_of_append {a b : Text} (h : IsMarginPart (a ++ b)) : IsMarginPart a := by
  rw [IsMarginPart, Margin.run_append] at h
  obtain ⟨m, hm⟩ := Option.isSome_iff_exists.mp h
  obtain ⟨m', hm', -⟩ := Option.bind_eq_some_iff.mp hm
  rw [IsMarginPart, hm']
  rfl

theorem IsMargin.isMarginPart {t : Text} (h : IsMargin t) : IsMarginPart t := by
  rw [IsMarginPart, h]
  rfl

theorem IsLineTail.isMarginPart {t : Text} (h : IsLineTail t) : IsMarginPart t := by
  rcases h with rfl | h
  · rfl
  · rw [IsMarginPart, h]
    rfl

theorem IsMarginPart.concat_break {t : Text} (h : IsMarginPart t) {c : Char}
    (hc : Text.isLineBreak c = true) : IsMargin (t ++ [c]) := by
  obtain ⟨m, hm⟩ := Option.isSome_iff_exists.mp h
  rw [IsMargin, Margin.run_append, hm, Option.bind_some, Margin.run_break _ hc, Margin.run_nil]

theorem IsLineTail.append_break {t : Text} (h : IsLineTail t) {rest : Text} (hrest : IsMargin rest)
    (hbreak : rest.any Text.isLineBreak = true) : IsMargin (t ++ rest) := by
  rcases h with rfl | h
  · exact hrest
  · rw [IsMargin, Margin.run_append, h]
    exact Margin.run_comment_of_break hrest hbreak

/-! ## Parts of trivia -/

theorem run_row {a b : Text} (ha : Margin.clear.run a = some .clear)
    (hb : ∀ c ∈ b, Text.isLineBreak c = false) (t : Text) :
    Margin.clear.run (a ++ '#' :: (b ++ t)) = Margin.comment.run t := by
  rw [Margin.run_append, ha, Option.bind_some, Margin.run_numberSign hb]

theorem IsComment.run {t : Text} (h : IsComment t) : Margin.clear.run t = some .comment := by
  obtain ⟨w, rfl⟩ := h.exists_cons
  have hrow := run_row (a := []) rfl (fun c hc => h.2 c (List.mem_cons_of_mem _ hc)) []
  rwa [List.append_nil] at hrow

theorem IsMargin.splitSameLine {t : Text} (h : IsMargin t) :
    IsLineTail (Trivia.splitSameLine t).1 ∧ IsMargin (Trivia.splitSameLine t).2 := by
  have hrow : ∀ c ∈ t.takeWhile (!Text.isLineBreak ·), Text.isLineBreak c = false := by
    intro c hc
    simpa using (List.mem_takeWhile_imp hc :)
  have hhead := List.head?_dropWhile_not (!Text.isLineBreak ·) t
  have hsplit := List.takeWhile_append_dropWhile (p := (!Text.isLineBreak ·)) (l := t)
  simp only [Trivia.splitSameLine]
  split
  · rename_i hcomment
    generalize t.takeWhile (!Text.isLineBreak ·) = row at hrow hsplit hcomment ⊢
    generalize t.dropWhile (!Text.isLineBreak ·) = rest at hhead hsplit ⊢
    obtain ⟨a, b, rfl, ha⟩ := List.eq_append_cons_of_mem (by simpa using hcomment)
    have hb : ∀ c ∈ b, Text.isLineBreak c = false := fun c hc => hrow c (by simp [hc])
    rw [← hsplit, IsMargin, List.append_assoc, List.cons_append] at h
    have hclear := Margin.run_beforeComment ha (by simp) h
    rw [run_row hclear hb] at h
    have hown := run_row hclear hb []
    rw [List.append_nil] at hown
    refine ⟨.inr hown, ?_⟩
    cases rest with
    | nil => cases h
    | cons d rest =>
        have hd : Text.isLineBreak d = true := by simpa using hhead
        rwa [IsMargin, Margin.run_break _ hd, ← Margin.run_break .comment hd]
  · exact ⟨.inl rfl, h⟩

/-! ## Comments -/

theorem Text.exists_trimEnd (p : Char → Bool) (t : Text) :
    ∃ b, t = trimEnd p t ++ b ∧ ∀ c ∈ b, p c = true := by
  refine ⟨(t.reverse.takeWhile p).reverse, ?_, ?_⟩
  · rw [trimEnd, ← List.reverse_append, List.takeWhile_append_dropWhile, List.reverse_reverse]
  · intro c hc
    exact List.mem_takeWhile_imp (List.mem_reverse.mp hc)

theorem Text.trimEnd_cons {p : Char → Bool} {c : Char} (hc : p c = false) (t : Text) :
    ∃ w, trimEnd p (c :: t) = c :: w := by
  obtain ⟨b, hb, -⟩ := exists_trimEnd p (c :: t)
  cases h : trimEnd p (c :: t) with
  | nil =>
      rw [trimEnd, List.reverse_eq_nil_iff, List.dropWhile_eq_nil_iff] at h
      simp [h c (by simp)] at hc
  | cons d w =>
      rw [h] at hb
      obtain ⟨rfl, -⟩ := List.cons.inj hb
      exact ⟨w, rfl⟩

theorem Text.trimEnd_append {p : Char → Bool} {b : Text} (hb : ∀ c ∈ b, p c = true) (a : Text) :
    trimEnd p (a ++ b) = trimEnd p a := by
  have hall : ∀ c ∈ b.reverse, p c = true := by
    intro c hc
    exact hb c (List.mem_reverse.mp hc)
  rw [trimEnd, List.reverse_append, List.dropWhile_append_of_pos hall, trimEnd]

theorem Text.trimEnd_append_cons {p : Char → Bool} {c : Char} (hc : p c = false) (a t : Text) :
    ∃ w, trimEnd p (a ++ c :: t) = a ++ c :: w := by
  obtain ⟨w, hw⟩ := trimEnd_cons hc t
  refine ⟨w, ?_⟩
  rw [trimEnd, List.reverse_eq_iff] at hw
  have hne : ((c :: t).reverse.dropWhile p).isEmpty = false := by
    rw [hw]
    simp
  rw [trimEnd, List.reverse_append, List.dropWhile_append, hne]
  simp only [Bool.false_eq_true, if_false]
  rw [List.reverse_append, hw, List.reverse_reverse, List.reverse_reverse]

theorem exists_of_comment? {t text : Text} (h : Trivia.comment? t = some text) :
    ∃ a w b, t = a ++ '#' :: (w ++ b) ∧ '#' ∉ a ∧ text = '#' :: w := by
  unfold Trivia.comment? at h
  split at h
  · rename_i hmem
    cases h
    obtain ⟨a, r, rfl, ha⟩ := List.eq_append_cons_of_mem (by simpa using hmem)
    have hbefore : ∀ c ∈ a, (c != '#') = true := by
      simpa only [bne_iff_ne] using List.forall_mem_ne'.mpr ha
    have hdrop : (a ++ '#' :: r).dropWhile (· != '#') = '#' :: r := by
      rw [List.dropWhile_append_of_pos hbefore]
      rfl
    obtain ⟨w, hw⟩ := Text.trimEnd_cons (show Text.isBlank '#' = false by decide) r
    obtain ⟨b, hb, -⟩ := Text.exists_trimEnd Text.isBlank ('#' :: r)
    rw [hw] at hb
    rw [hdrop]
    exact ⟨a, w, b, by rw [hb]; rfl, ha, hw⟩
  · cases h

theorem isMarginPart_comment? {t text : Text} (ht : IsMarginPart t)
    (h : Trivia.comment? t = some text) : IsMarginPart text := by
  obtain ⟨a, w, b, rfl, ha, rfl⟩ := exists_of_comment? h
  obtain ⟨m, hm⟩ := Option.isSome_iff_exists.mp ht
  have hclear := Margin.run_beforeComment ha (by simp) hm
  rw [Margin.run_append, hclear, Option.bind_some, ← List.cons_append] at hm
  exact isMarginPart_of_append (by rw [IsMarginPart, hm]; rfl)

theorem isMarginPart_trim {t : Text} (ht : IsMarginPart t) :
    IsMarginPart (Text.trim Text.isBlank t) := by
  have hdrop : IsMarginPart (t.dropWhile Text.isBlank) := by
    induction t with
    | nil => exact ht
    | cons c t ih =>
        by_cases hc : Text.isBlank c = true
        · rw [List.dropWhile_cons_of_pos hc]
          refine ih ?_
          obtain ⟨m, hm⟩ := Option.isSome_iff_exists.mp ht
          obtain ⟨m₁, hstep, hrest⟩ := Option.bind_eq_some_iff.mp (Margin.run_cons _ c t ▸ hm)
          have hclear : m₁ = .clear := by
            have hslash : c ≠ '\\' := by
              rintro rfl
              revert hc
              decide
            simp only [Margin.step, beq_iff_eq, Trivia.isBlank_ne hc, hslash, if_false] at hstep
            split at hstep <;> cases hstep
            rfl
          rw [IsMarginPart, ← hclear, hrest]
          rfl
        · rwa [List.dropWhile_cons_of_neg hc]
  obtain ⟨b, hb, -⟩ := Text.exists_trimEnd Text.isBlank (t.dropWhile Text.isBlank)
  rw [hb] at hdrop
  exact isMarginPart_of_append hdrop

theorem isMarginPart_splitAfter {t l : Text} (ht : IsMarginPart t)
    (hl : l ∈ Text.splitAfter (· == '\n') t) : IsMarginPart l := by
  induction t using Text.rows_induction (· == '\n') with
  | last row hrow =>
      by_cases hne : row = []
      · subst hne
        cases hl
      · rw [Text.splitAfter_last hrow hne, List.mem_singleton] at hl
        rwa [hl]
  | cons row d t hrow hd ih =>
      obtain rfl : d = '\n' := by simpa using hd
      rw [← List.singleton_append, ← List.append_assoc] at ht
      have hline := isMarginPart_of_append ht
      rw [Text.splitAfter_row hrow hd] at hl
      rcases List.mem_cons.mp hl with rfl | hl
      · exact hline
      · have hclosed := (isMarginPart_of_append hline).concat_break
          (show Text.isLineBreak '\n' = true by decide)
        rw [IsMarginPart, Margin.run_append, hclosed] at ht
        exact ih ht hl

theorem IsMargin.ownLineComments {t : Text} (h : IsMargin t) :
    ∀ c ∈ Trivia.ownLineComments t, IsMarginPart c := by
  intro c hc
  simp only [Trivia.ownLineComments, Trivia.lines, List.mem_filterMap] at hc
  obtain ⟨line, ⟨l, hl, hline⟩, hcomment⟩ := hc
  have hpart := isMarginPart_trim (isMarginPart_splitAfter h.splitSameLine.2.isMarginPart hl)
  cases line with
  | blank => cases hcomment
  | comment text =>
      cases hcomment
      unfold Trivia.line? at hline
      simp only at hline
      split at hline
      · rename_i text hfound
        cases hline
        exact isMarginPart_comment? hpart hfound
      · split at hline <;> cases hline

theorem IsMargin.comments {t : Text} (h : IsMargin t) :
    ∀ c ∈ Trivia.comments t, IsMarginPart c := by
  intro c hc
  rcases List.mem_append.mp hc with hc | hc
  · exact isMarginPart_comment? h.splitSameLine.1.isMarginPart (Option.mem_toList.mp hc)
  · exact h.ownLineComments c hc

/-! ## Reading -/

theorem lexes_continuation {lb x : Text} {indents : List Nat} {brackets : List Char}
    {last : Option TokenKind} {us : List Shape} {rs : List Text} (hlb : IsBreak lb)
    (hx : lb = ['\r'] → x.head? ≠ some '\n') (h : Lexes ⟨x, indents, brackets, false, last⟩ us rs) :
    Lexes ⟨'\\' :: (lb ++ x), indents, brackets, false, last⟩ us rs := by
  have hscan (here : Position) : Lexeme.scan (!brackets.isEmpty) here '\\' (lb ++ x) =
      .ok (.trivia, lb.length) := by
    have hlength := lineBreakLength_of_isBreak hlb hx
    rcases hlb with rfl | rfl | rfl <;>
      simpa [Lexeme.scan, Text.isIndent, Text.isLineBreak] using hlength
  have hcomments (t : Text) (ht : Trivia.Closed t ∨ Text.isLineBreak '\\' = true) :
      Trivia.physicalComments (t ++ '\\' :: lb) = Trivia.physicalComments t ++ [] ∧
        (Trivia.Closed (t ++ '\\' :: lb) ∨ AtBreak x) := by
    obtain ⟨-, hown⟩ := (ht.resolve_right (by decide)).cons (show '\\' ≠ '#' by decide)
    have hclosed := closed_append_break hlb (t ++ ['\\'])
    rw [List.append_assoc, List.singleton_append, hown] at hclosed
    exact ⟨by rw [hclosed.2, List.append_nil], .inl hclosed.1⟩
  exact lexes_trivia hscan hcomments h

theorem exists_row (t : Text) : ∃ row rest, t = row ++ rest ∧
    (∀ c ∈ row, Text.isLineBreak c = false) ∧ AtBreak rest := by
  refine ⟨t.takeWhile (!Text.isLineBreak ·), t.dropWhile (!Text.isLineBreak ·),
    List.takeWhile_append_dropWhile.symm, fun c hc => ?_, fun c hc => ?_⟩
  · simpa using (List.mem_takeWhile_imp hc :)
  · have hhead := List.head?_dropWhile_not (!Text.isLineBreak ·) t
    rw [hc] at hhead
    simpa using hhead

theorem lengthWhile_row {row rest : Text} (hrow : ∀ c ∈ row, Text.isLineBreak c = false)
    (hrest : AtBreak rest) : Text.lengthWhile (!Text.isLineBreak ·) (row ++ rest) = row.length := by
  refine Text.lengthWhile_append_eq.mpr ⟨fun c hc => ?_, fun c hc => ?_⟩
  · simp [hrow c hc]
  · simp [hrest c hc]

theorem exists_break {c : Char} (hc : Text.isLineBreak c = true) (t : Text) :
    ∃ lb r, c :: t = lb ++ r ∧ IsBreak lb ∧ (lb = ['\r'] → r.head? ≠ some '\n') := by
  have hcases : c = '\n' ∨ c = '\r' := by simpa [Text.isLineBreak] using hc
  rcases hcases with rfl | rfl
  · exact ⟨['\n'], t, rfl, .inl rfl, by simp⟩
  · by_cases ht : t.head? = some '\n'
    · obtain ⟨t, rfl⟩ := List.head?_eq_some_iff.mp ht
      exact ⟨['\r', '\n'], t, rfl, .inr (.inl rfl), by simp⟩
    · exact ⟨['\r'], t, rfl, .inr (.inr rfl), fun _ => ht⟩

theorem Margin.run_isBreak (m : Margin) {lb : Text} (hlb : IsBreak lb) (t : Text) :
    m.run (lb ++ t) = clear.run t := by
  rcases hlb with rfl | rfl | rfl
  · exact run_break m (by decide) t
  · exact (run_break m (by decide) _).trans (run_break clear (by decide) t)
  · exact run_break m (by decide) t

theorem head?_append_ne {r x : Text} {lb : Text} (hr : lb = ['\r'] → r.head? ≠ some '\n')
    (hx : x.head? ≠ some '\n') : lb = ['\r'] → (r ++ x).head? ≠ some '\n' := by
  intro hlb
  cases r with
  | nil => exact hx
  | cons c r => exact hr hlb

/-- What stands between two words, piece by piece. -/
inductive MarginPieces : Text → Prop where
  | nil : MarginPieces []
  | indent {c : Char} {t : Text} (hc : Text.isIndent c = true) (ht : MarginPieces t) :
      MarginPieces (c :: t)
  | lineBreak {lb t : Text} (hlb : IsBreak lb) (hnext : lb = ['\r'] → t.head? ≠ some '\n')
      (ht : MarginPieces t) : MarginPieces (lb ++ t)
  | comment {w t : Text} (hw : IsComment w) (hnext : ∃ d r, t = d :: r ∧ Text.isLineBreak d = true)
      (ht : MarginPieces t) : MarginPieces (w ++ t)
  | continuation {lb t : Text} (hlb : IsBreak lb) (hnext : lb = ['\r'] → t.head? ≠ some '\n')
      (ht : MarginPieces t) : MarginPieces ('\\' :: (lb ++ t))

theorem IsBreak.length_pos {lb : Text} (h : IsBreak lb) : 0 < lb.length := by
  rcases h with rfl | rfl | rfl <;> simp

theorem IsMargin.pieces (t : Text) (ht : IsMargin t) : MarginPieces t := by
  match t with
  | [] => exact .nil
  | c :: t =>
      by_cases hindent : Text.isIndent c = true
      · rw [IsMargin, Margin.run_indent hindent] at ht
        exact .indent hindent (IsMargin.pieces t ht)
      by_cases hbreak : Text.isLineBreak c = true
      · obtain ⟨lb, r, hsplit, hlb, hr⟩ := exists_break hbreak t
        have hpos := hlb.length_pos
        have hlength := congrArg List.length hsplit
        rw [IsMargin, hsplit, Margin.run_isBreak _ hlb] at ht
        rw [hsplit]
        exact .lineBreak hlb hr (IsMargin.pieces r ht)
      by_cases hcomment : c = '#'
      · subst hcomment
        obtain ⟨w, rest, hsplit, hline, hrest⟩ := exists_row t
        have hlength := congrArg List.length hsplit
        rw [IsMargin, hsplit, Margin.run_numberSign hline] at ht
        rw [hsplit]
        cases rest with
        | nil => cases ht
        | cons d rest =>
            have hd : Text.isLineBreak d = true := hrest d rfl
            rw [Margin.run_break _ hd, ← Margin.run_break .clear hd] at ht
            exact .comment (w := '#' :: w) ⟨rfl, List.forall_mem_cons.mpr ⟨by decide, hline⟩⟩
              ⟨d, rest, rfl, hd⟩ (IsMargin.pieces (d :: rest) ht)
      by_cases hslash : c = '\\'
      · subst hslash
        have hstep : Margin.clear.step '\\' = some .escaped := rfl
        rw [IsMargin, Margin.run_cons, hstep, Option.bind_some] at ht
        cases t with
        | nil => cases ht
        | cons d t =>
            by_cases hd : Text.isLineBreak d = true
            · obtain ⟨lb, r, hsplit, hlb, hr⟩ := exists_break hd t
              have hpos := hlb.length_pos
              have hlength := congrArg List.length hsplit
              rw [hsplit, Margin.run_isBreak _ hlb] at ht
              rw [hsplit]
              exact .continuation hlb hr (IsMargin.pieces r ht)
            · rw [Margin.run_cons, Margin.step, if_neg hd] at ht
              cases ht
      · simp [IsMargin, Margin.run_cons, Margin.step, hindent, hbreak, hcomment, hslash] at ht
termination_by t.length
decreasing_by all_goals subst_vars; simp only [List.length_cons, List.length_append] at *; omega

/-- Reading what stands between two words inside of brackets. -/
theorem lexes_margin {t x : Text} {indents : List Nat} {brackets : List Char}
    {last : Option TokenKind} {us : List Shape} (ht : IsMargin t) (hx : x.head? ≠ some '\n')
    (hbrackets : brackets ≠ []) (h : Lexes ⟨x, indents, brackets, false, last⟩ us []) :
    Lexes ⟨t ++ x, indents, brackets, false, last⟩ us [] := by
  have hpieces := ht.pieces
  clear ht
  induction hpieces with
  | nil => exact h
  | @indent c t hc _ ih => exact lexes_blanks (w := [c]) (by simpa using hc) ih
  | lineBreak hlb hnext _ ih =>
      rw [List.append_assoc]
      exact lexes_break hlb (head?_append_ne hnext hx) hbrackets ih
  | @comment w t hw hnext _ ih =>
      obtain ⟨d, r, rfl, hd⟩ := hnext
      rw [List.append_assoc]
      exact (lexes_comment hw (by simpa [AtBreak] using hd) ih).mono (List.nil_sublist _)
  | continuation hlb hnext _ ih =>
      rw [List.cons_append, List.append_assoc]
      exact lexes_continuation hlb (head?_append_ne hnext hx) ih

/-! ## The start of a text -/

/-- Whether a text holds nothing but blanks and continuations. -/
def isContinued : Text → Bool
  | [] => true
  | '\\' :: '\r' :: '\n' :: cs => isContinued cs
  | '\\' :: c :: cs => Text.isLineBreak c && isContinued cs
  | c :: cs => Text.isIndent c && isContinued cs

/-- Whether a text is read as trivia where it stands before the first word of a source: blank and
comment lines, and then no line break that is not continued. -/
def startsLine (t : Text) : Bool := isContinued (t.drop (triviaLinesLength t))

theorem isBreak_singleton {c : Char} (hc : Text.isLineBreak c = true) : IsBreak [c] := by
  have hcases : c = '\n' ∨ c = '\r' := by simpa [Text.isLineBreak] using hc
  rcases hcases with rfl | rfl
  · exact .inl rfl
  · exact .inr (.inr rfl)

theorem lexes_continued {t x : Text} {indents : List Nat} {brackets : List Char}
    {last : Option TokenKind} {us : List Shape} {rs : List Text} (ht : isContinued t = true)
    (hx : x.head? ≠ some '\n') (h : Lexes ⟨x, indents, brackets, false, last⟩ us rs) :
    Lexes ⟨t ++ x, indents, brackets, false, last⟩ us rs := by
  fun_induction isContinued t with
  | case1 => exact h
  | case2 cs ih =>
      have hbreak : IsBreak ['\r', '\n'] := .inr (.inl rfl)
      have hread := lexes_continuation hbreak (by simp) (ih ht)
      exact hread
  | case3 c cs hnext ih =>
      rw [Bool.and_eq_true] at ht
      have hhead : [c] = ['\r'] → cs.head? ≠ some '\n' := by
        intro hc hhead
        obtain ⟨cs, rfl⟩ := List.head?_eq_some_iff.mp hhead
        exact hnext cs (by simpa using hc) rfl
      have hread := lexes_continuation (isBreak_singleton ht.1) (head?_append_ne hhead hx) (ih ht.2)
      exact hread
  | case4 c cs _ _ ih =>
      rw [Bool.and_eq_true] at ht
      exact lexes_blanks (w := [c]) (by simpa using ht.1) (ih ht.2)

theorem isContinued_blanks {ws : Text} (hws : ∀ c ∈ ws, Text.isIndent c = true) (t : Text) :
    isContinued (ws ++ t) = isContinued t := by
  induction ws with
  | nil => rfl
  | cons c ws ih =>
      have hc := hws c (by simp)
      have hslash : c ≠ '\\' := by
        rintro rfl
        cases hc
      rw [List.cons_append, isContinued, hc, Bool.true_and, ih fun d hd => hws d (by simp [hd])]
      · simp [hslash]
      · simp [hslash]

theorem exists_firstLine {t : Text} (hline : isTriviaLine (t.take (firstLineLength t)) = true) :
    (∃ row lb r, t = row ++ (lb ++ r) ∧ IsTriviaRow row ∧ IsBreak lb ∧
      (lb = ['\r'] → r.head? ≠ some '\n')) ∨ IsTriviaRow t ∧ firstLineLength t = t.length := by
  obtain ⟨row, rest, rfl, hrow, hrest⟩ := exists_row t
  cases rest with
  | nil =>
      have hlength : firstLineLength (row ++ []) = (row ++ []).length := by
        simp only [firstLineLength, lengthWhile_row hrow hrest, List.drop_left]
        simp [Text.lineBreakLength]
      rw [hlength, List.take_length] at hline
      refine .inr ⟨?_, hlength⟩
      rw [List.append_nil]
      exact isTriviaRow_of_isTriviaLine hrow hline
  | cons d rest =>
      obtain ⟨lb, r, hbreak, hlb, hr⟩ := exists_break (hrest d rfl) rest
      rw [hbreak, firstLineLength_row hrow hlb hr, ← List.append_assoc, List.take_left] at hline
      rw [hbreak]
      exact .inl ⟨row, lb, r, rfl, isTriviaRow_of_isTriviaLine hrow hline, hlb, hr⟩

theorem triviaLinesLength_eq_zero {t : Text}
    (h : ¬ isTriviaLine (t.take (firstLineLength t)) = true) : triviaLinesLength t = 0 := by
  rw [triviaLinesLength]
  split
  · rfl
  · exact if_neg h

/-- A text that is a margin begins with a blank or comment line, or is blank, or has no such line. -/
theorem IsMargin.firstLine {t : Text} (h : IsMargin t) :
    (∃ row lb r, t = row ++ (lb ++ r) ∧ IsTriviaRow row ∧ IsBreak lb ∧
      (lb = ['\r'] → r.head? ≠ some '\n')) ∨ (∀ c ∈ t, Text.isIndent c = true) ∨
        triviaLinesLength t = 0 := by
  by_cases hline : isTriviaLine (t.take (firstLineLength t)) = true
  · rcases exists_firstLine hline with hended | ⟨⟨ws, hws, rfl | ⟨w, hw, rfl⟩⟩, -⟩
    · exact .inl hended
    · exact .inr (.inl hws)
    · -- The comment is open, so no word may follow it.
      rw [IsMargin, Margin.run_append, isMargin_blanks hws, Option.bind_some, hw.run] at h
      cases h
  · exact .inr (.inr (triviaLinesLength_eq_zero hline))

theorem IsTriviaRow.isMarginPart {row : Text} (h : IsTriviaRow row) : IsMarginPart row := by
  obtain ⟨ws, hws, rfl | ⟨w, hw, rfl⟩⟩ := h
  · exact (isMargin_blanks hws).isMarginPart
  · rw [IsMarginPart, Margin.run_append, isMargin_blanks hws, Option.bind_some, hw.run]
    rfl

theorem isMargin_triviaLines (t : Text) (h : t.drop (triviaLinesLength t) ≠ []) :
    IsMargin (t.take (triviaLinesLength t)) := by
  by_cases hline : isTriviaLine (t.take (firstLineLength t)) = true
  · rcases exists_firstLine hline with ⟨row, lb, r, hsplit, hrow, hlb, hr⟩ | ⟨-, hlength⟩
    · have hpos := hlb.length_pos
      have hlength := congrArg List.length hsplit
      rw [hsplit] at h ⊢
      rw [triviaLinesLength_row hrow hlb hr, ← List.append_assoc, ← List.drop_drop,
        List.drop_left] at h
      have hrest := isMargin_triviaLines r h
      obtain ⟨m, hm⟩ := Option.isSome_iff_exists.mp hrow.isMarginPart
      rw [triviaLinesLength_row hrow hlb hr, ← List.append_assoc, List.take_length_add_append,
        List.append_assoc, IsMargin, Margin.run_append, hm, Option.bind_some,
        Margin.run_isBreak m hlb]
      exact hrest
    · have hne : t ≠ [] := by
        rintro rfl
        simp at h
      rw [triviaLinesLength, dif_neg hne, if_pos hline, hlength, List.drop_length] at h
      simp [triviaLinesLength] at h
  · rw [triviaLinesLength_eq_zero hline]
    exact isMargin_nil
termination_by t.length
decreasing_by simp only [List.length_append] at hlength; omega

theorem markersTo_first (width : Nat) : ∃ ms indents, markersTo width [] = some (ms, indents) ∧
    ∀ u ∈ ms, u = (.indent, []) := by
  by_cases hwidth : 0 < width
  · exact ⟨[(.indent, [])], [width], by simp [markersTo, hwidth], by simp⟩
  · exact ⟨[], [], by simp [markersTo, hwidth], by simp⟩

section Start

variable {ch : Char} {x : Text} {us : List Nat → List Shape}
  (hch : Text.isIndent ch = false ∧ ch ≠ '#' ∧ Text.isLineBreak ch = false)
  (h : ∀ indents last, Lexes ⟨ch :: x, indents, [], false, last⟩ (us indents) [])

include hch

theorem head?_ne_of_not_isLineBreak : (ch :: x).head? ≠ some '\n' := by
  intro hhead
  obtain rfl : ch = '\n' := by simpa using hhead
  cases hch.2.2

include h

theorem lexes_firstLine {ws r : Text} (hws : ∀ c ∈ ws, Text.isIndent c = true)
    (hr : isContinued r = true) (hhead : ∀ c, r.head? = some c → Text.isIndent c = false) :
    ∃ ms indents, (∀ u ∈ ms, u = (.indent, [])) ∧
      Lexes ⟨ws ++ (r ++ ch :: x), [], [], true, none⟩ (ms ++ us indents) [] := by
  obtain ⟨ms, indents, hms, hkinds⟩ := markersTo_first (Text.indentWidth ws)
  refine ⟨ms, indents, hkinds, ?_⟩
  have hrest (last : Option TokenKind) :=
    lexes_continued hr (head?_ne_of_not_isLineBreak hch) (h indents last)
  cases r with
  | nil => exact lexes_lineStart hws hch hms hrest
  | cons c r =>
      have hc : c = '\\' := by
        have hindent := hhead c rfl
        unfold isContinued at hr
        split at hr <;> simp_all
      subst hc
      exact lexes_lineStart hws (by decide) hms hrest

theorem lexes_start (t : Text) (ht : IsMargin t) (hstarts : startsLine t = true) :
    ∃ ms indents, (∀ u ∈ ms, u = (.indent, [])) ∧
      Lexes ⟨t ++ ch :: x, [], [], true, none⟩ (ms ++ us indents) [] := by
  match t, ht.firstLine with
  | _, .inl ⟨row, lb, r, rfl, hrow, hlb, hr⟩ =>
      have hpos := hlb.length_pos
      have hrest : IsMargin r := by
        rw [IsMargin, Margin.run_append] at ht
        obtain ⟨m, -, hrest⟩ := Option.bind_eq_some_iff.mp ht
        rwa [Margin.run_isBreak _ hlb] at hrest
      rw [startsLine, triviaLinesLength_row hrow hlb hr, ← List.append_assoc, ← List.drop_drop,
        List.drop_left] at hstarts
      obtain ⟨ms, indents, hkinds, hread⟩ := lexes_start r hrest hstarts
      refine ⟨ms, indents, hkinds, ?_⟩
      rw [List.append_assoc, List.append_assoc]
      have hnewline : (ch :: x).head? ≠ some '\n' := head?_ne_of_not_isLineBreak hch
      exact (lexes_row hrow hlb (head?_append_ne hr hnewline) hread).mono (List.nil_sublist _)
  | t, .inr (.inl hblanks) => simpa using lexes_firstLine hch h (r := []) hblanks rfl (by simp)
  | t, .inr (.inr hnone) =>
      rw [startsLine, hnone, List.drop_zero] at hstarts
      have hsplit := List.takeWhile_append_dropWhile (p := Text.isIndent) (l := t)
      have hws : ∀ c ∈ t.takeWhile Text.isIndent, Text.isIndent c = true :=
        fun c hc => List.mem_takeWhile_imp hc
      have hhead := List.head?_dropWhile_not Text.isIndent t
      generalize t.takeWhile Text.isIndent = ws at hsplit hws
      generalize t.dropWhile Text.isIndent = r at hsplit hhead
      rw [← hsplit, isContinued_blanks hws] at hstarts
      rw [← hsplit, List.append_assoc]
      refine lexes_firstLine hch h hws hstarts fun c hc => ?_
      rw [hc] at hhead
      simpa using hhead
termination_by t.length

end Start

/-- The end of a text behind a word: the line is ended, and all blocks are closed. -/
theorem lexes_unfinished {kind : TokenKind} (hkind : kind.isWord = true) (indents : List Nat) :
    Lexes ⟨[], indents, [], false, some kind⟩
      ((.newline, []) :: (indents.map (fun _ => (.dedent, [])) ++ [(.endMarker, [])])) [] := by
  intro c hc _
  simp only [Cursor.state, LexState.mk.injEq, List.map_eq_nil_iff] at hc
  obtain ⟨hrest, rfl, hb, hstart, hlast⟩ := hc
  have henter : c.enterLine = .ok ([], c) := by
    unfold Cursor.enterLine
    rw [if_neg (by simp [hstart])]
  have hunfinished : (some kind).any (fun kind => kind != .newline && kind != .dedent) = true := by
    cases kind <;> first | rfl | cases hkind
  have hfinish : c.finish = .ok ((c.take .newline 0).1 ::
      (c.indents.map (fun _ => Cursor.marker .dedent (c.take .newline 0).2.here) ++
        [((c.take .newline 0).2.take .endMarker 0).1])) := by
    unfold Cursor.finish
    rw [hb, hlast, hunfinished]
    rfl
  refine ⟨_, by rw [Cursor.tokens_eq, henter]; simp only [hrest, hfinish]; rfl, ?_, ?_⟩
  · simp only [List.nil_append, List.map_cons, List.map_append, List.map_map]
    rfl
  · simp [commentsOf, Cursor.take]

end SchemaTidy
