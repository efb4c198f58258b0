import SchemaTidy.Proofs.Token.Chain
import SchemaTidy.Proofs.Tree.Comments

/-!
# Words in their source

In a source each word is cut off before the text behind it, and the text before it is a margin. This
holds of every part of the source that is cut out of it, and also when the comments that trail a block
have been handed to the marker that closes it.
-/

namespace SchemaTidy

/-- Tokens with their words cut off before what follows and margins before the words. -/
def Woven : List Token → Prop
  | [] => True
  | t :: ts =>
      (t.kind.isWord = true → Lexeme.Cuts t.kind t.text (spell ts) ∧ IsMargin t.trivia) ∧ Woven ts

theorem Woven.right {ts us : List Token} (h : Woven (ts ++ us)) : Woven us := by
  induction ts with
  | nil => exact h
  | cons t ts ih => exact ih h.2

theorem Woven.append_layout {ts us : List Token} (hts : ∀ t ∈ ts, t.kind.isWord = false)
    (h : Woven us) : Woven (ts ++ us) := by
  induction ts with
  | nil => exact h
  | cons t ts ih =>
      refine ⟨fun hword => ?_, ih fun u hu => hts u (by simp [hu])⟩
      rw [hts t (by simp)] at hword
      cases hword

theorem chained_of_woven {ts us : List Token} (h : Woven (ts ++ us))
    (hts : ∀ t ∈ ts, t.kind.isWord = true) : Chained ts := by
  induction ts with
  | nil => trivial
  | cons t ts ih =>
      have hword := hts t (by simp)
      obtain ⟨hcuts, htrivia⟩ := h.1 hword
      refine ⟨hword, htrivia, fun y hy => ?_, ih h.2 fun u hu => hts u (by simp [hu])⟩
      have hcuts : Lexeme.Cuts t.kind t.text (spell (ts ++ us)) := hcuts
      rw [spell_append] at hcuts
      exact hcuts.exchange fun _ => hy.ends hword

/-! ## Tokens of a source -/

/-- What the lexer takes as trivia in one step, and the text behind it. -/
inductive TriviaPiece : Text → Text → Prop where
  | indent {c : Char} {rest : Text} (hc : Text.isIndent c = true) : TriviaPiece [c] rest
  | continuation {lb rest : Text} (hlb : IsBreak lb) : TriviaPiece ('\\' :: lb) rest
  | comment {row rest : Text} (hrow : ∀ c ∈ row, Text.isLineBreak c = false)
      (hrest : AtBreak rest) : TriviaPiece ('#' :: row) rest
  | lineBreak {lb rest : Text} (hlb : IsBreak lb) : TriviaPiece lb rest

theorem Lexeme.triviaPiece_of_scan {inBrackets : Bool} {here : Position} {c : Char} {cs : Text}
    {n : Nat} (h : scan inBrackets here c cs = .ok (.trivia, n)) :
    TriviaPiece (c :: cs.take n) (cs.drop n) := by
  unfold scan at h
  split at h
  · rename_i hindent
    cases h
    exact .indent hindent
  split at h
  · rename_i hslash
    obtain rfl : c = '\\' := by simpa using hslash
    cases cs with
    | nil => cases h
    | cons d cs =>
        simp only at h
        split at h
        · rename_i hd
          obtain ⟨lb, r, hsplit, hlb, hr⟩ := exists_break hd cs
          rw [hsplit, lineBreakLength_of_isBreak hlb hr] at h
          cases h
          rw [hsplit, List.take_left, List.drop_left]
          exact .continuation hlb
        · cases h
  split at h
  · rename_i hcomment
    obtain rfl : c = '#' := by simpa using hcomment
    obtain ⟨row, rest, rfl, hrow, hrest⟩ := exists_row cs
    rw [lengthWhile_row hrow hrest] at h
    cases h
    rw [List.take_left, List.drop_left]
    exact .comment hrow hrest
  split at h
  · rename_i hbreak
    obtain ⟨lb, r, hsplit, hlb, hr⟩ := exists_break hbreak cs
    rw [hsplit, lineBreakLength_of_isBreak hlb hr] at h
    have hlength : lb.length - 1 + 1 = lb.length := Nat.sub_add_cancel hlb.length_pos
    simp only [Except.ok.injEq, Prod.mk.injEq] at h
    obtain ⟨-, rfl⟩ := h
    rw [← List.take_succ_cons, hlength, hsplit, List.take_left]
    exact .lineBreak hlb
  split at h
  · simp only at h
    split at h
    · split at h
      · obtain ⟨m, -, hpair⟩ := exists_of_map_eq_ok h
        cases hpair
      · cases h
    · cases h
  split at h
  · obtain ⟨m, -, hpair⟩ := exists_of_map_eq_ok h
    cases hpair
  split at h
  · cases h
  · split at h <;> cases h

/-- Trivia that is a margin, or will be one with the line break that comes next. -/
def ReachesMargin (t rest : Text) : Prop :=
  IsMargin t ∨ Margin.clear.run t = some .comment ∧ AtBreak rest

theorem ReachesMargin.isMargin {t rest : Text} {c : Char} (h : ReachesMargin t (c :: rest))
    (hc : Text.isLineBreak c = false) : IsMargin t := by
  rcases h with hmargin | ⟨-, hbreak⟩
  · exact hmargin
  · rw [hbreak c rfl] at hc
    cases hc

theorem ReachesMargin.append {t piece rest : Text} (ht : ReachesMargin t (piece ++ rest))
    (h : TriviaPiece piece rest) : ReachesMargin (t ++ piece) rest := by
  cases h with
  | indent hc =>
      have hmargin := ht.isMargin (isLineBreak_of_isIndent hc)
      exact .inl (hmargin.append (isMargin_blanks (by simpa using hc)))
  | @continuation lb _ hlb =>
      have hmargin := ht.isMargin (by decide)
      have hread : IsMargin ('\\' :: lb) := by
        have hclosed := Margin.run_isBreak .escaped hlb []
        rwa [List.append_nil] at hclosed
      exact .inl (hmargin.append hread)
  | @comment row _ hrow hrest =>
      have hmargin := ht.isMargin (by decide)
      have hread := run_row hmargin hrow []
      rw [List.append_nil, Margin.run_nil] at hread
      exact .inr ⟨hread, hrest⟩
  | lineBreak hlb =>
      obtain ⟨m, hm⟩ : ∃ m, Margin.clear.run t = some m := by
        rcases ht with hmargin | ⟨hopen, -⟩
        · exact ⟨_, hmargin⟩
        · exact ⟨_, hopen⟩
      have hread := Margin.run_isBreak m hlb []
      rw [List.append_nil, Margin.run_nil] at hread
      exact .inl (by rw [IsMargin, Margin.run_append, hm, Option.bind_some, hread])

namespace Cursor

theorem reachesMargin_enterLine {c c' : Cursor} {ts : List Token}
    (hc : ReachesMargin c.trivia c.rest) (hstart : c.lineStart = true → c.trivia = [])
    (h : c.enterLine = .ok (ts, c')) (hrest : c'.rest ≠ []) :
    ReachesMargin c'.trivia c'.rest ∧ c'.lineStart = false ∧ ∀ t ∈ ts, t.kind.isWord = false := by
  have hcases := (enterLine_cases h).2
  rcases hcases with ⟨hline, rfl, rfl⟩ | ⟨hline, -, hnext, hmarkers⟩
  · exact ⟨hc, hline, by simp⟩
  have hkinds : ∀ t ∈ ts, t.kind.isWord = false := by
    rcases hmarkers with rfl | ⟨hindent, -⟩ | hdedent
    · simp
    · intro t ht
      have hmem : t.spelling ∈ [(TokenKind.indent, [])] := hindent ▸ List.mem_map_of_mem ht
      have hkind : t.kind = .indent := congrArg Prod.fst (List.mem_singleton.mp hmem)
      rw [hkind]
      rfl
    · intro t ht
      have hkind : t.kind = .dedent := congrArg Prod.fst (hdedent t ht)
      rw [hkind]
      rfl
  refine ⟨.inl ?_, hnext hrest, hkinds⟩
  unfold enterLine at h
  rw [if_pos hline] at h
  simp only at h
  split at h
  · rename_i hempty
    cases h
    exact absurd (List.isEmpty_iff.mp hempty) hrest
  · rename_i hne
    have hpending := (indentTo_markers h).1
    rw [pending, pending, rest_indentTo h] at hpending
    rw [List.append_cancel_right hpending]
    simp only [skip, hstart hline, List.nil_append]
    refine (isMargin_triviaLines c.rest fun hnil => hne ?_).append (isMargin_blanks fun d hd => ?_)
    · simp [skip, hnil]
    · rw [Text.take_lengthWhile] at hd
      exact List.mem_takeWhile_imp hd

theorem isWord_finish {c : Cursor} {ts : List Token} (h : c.finish = .ok ts) :
    ∀ t ∈ ts, t.kind.isWord = false := by
  have hend (indents : List Nat) (p : Position) (e : Token) (he : e.kind = .endMarker) :
      ∀ t ∈ indents.map (fun _ => marker .dedent p) ++ [e], t.kind.isWord = false := by
    intro t ht
    rcases List.mem_append.mp ht with ht | ht
    · obtain ⟨-, -, rfl⟩ := List.mem_map.mp ht
      rfl
    · rw [List.mem_singleton.mp ht, he]
      rfl
  unfold finish at h
  split at h
  · cases h
  simp only at h
  split at h
  · cases h
    rw [List.append_assoc]
    exact List.forall_mem_cons.mpr ⟨rfl, hend _ _ _ rfl⟩
  · cases h
    exact hend _ _ _ rfl

/-- The tokens of a cursor are woven. -/
theorem woven_tokens {c : Cursor} {ts : List Token} (hc : ReachesMargin c.trivia c.rest)
    (hstart : c.lineStart = true → c.trivia = []) (h : c.tokens = .ok ts) : Woven ts := by
  fun_induction tokens c generalizing ts with
  | case1 c e hl => cases h
  | case2 c markers c₁ hl hr =>
      obtain ⟨us, hus, rfl⟩ := exists_of_map_eq_ok h
      have hmarkers : markers = [] := by
        rcases (enterLine_cases hl).2 with ⟨-, hnil, -⟩ | ⟨-, hnil, -⟩
        · exact hnil
        · exact hnil hr
      rw [hmarkers, List.nil_append, ← List.append_nil us]
      exact Woven.append_layout (isWord_finish hus) trivial
  | case3 c markers c₁ hl ch cs hr e ha => cases h
  | case4 c markers c₁ hl ch cs hr t c₂ ha ih =>
      obtain ⟨us, hus, rfl⟩ := exists_of_map_eq_ok h
      obtain ⟨hc₁, hline, hkinds⟩ := reachesMargin_enterLine hc hstart hl (by simp [hr])
      rw [hr] at hc₁
      rw [List.append_assoc]
      refine Woven.append_layout hkinds ?_
      unfold advance at ha
      split at ha
      · cases ha
      · rename_i n hscan
        cases ha
        refine ih ?_ (fun hl => ?_) hus
        · have hpiece := Lexeme.triviaPiece_of_scan hscan
          have hnext := ReachesMargin.append (by simpa using hc₁) hpiece
          simpa [skip, hr] using hnext
        · rw [skip, hline] at hl
          cases hl
      · rename_i kind n hscan
        split at ha
        · cases ha
        · cases ha
          have hspell := (tokens_spelling hus).1
          refine ⟨fun hword => ?_, ih (.inl isMargin_nil) (fun _ => rfl) hus⟩
          have hcuts := Lexeme.cuts_of_scan hscan (by rintro rfl; cases hword)
          have hbreak : Text.isLineBreak ch = false := by
            obtain ⟨d, ds, htext, ⟨-, -, hd⟩, -⟩ := hcuts.head
            rwa [(List.cons.inj htext).1]
          refine ⟨?_, hc₁.isMargin hbreak⟩
          show Lexeme.Cuts kind (c₁.rest.take (n + 1)) (spell us)
          simpa [hspell, pending, hr] using hcuts

end Cursor

/-! ## Tokens of a tree -/

theorem isMargin_trailer (column : Nat) {trivia : Text} (h : IsMargin trivia) :
    IsMargin (trailer column trivia) := by
  have hpart := h.isMarginPart
  rw [← trailer_append column trivia] at hpart
  rcases trailer_ends column trivia with hnil | hends
  · rw [hnil]
    exact isMargin_nil
  · obtain ⟨a, ha⟩ := List.getLast?_eq_some_iff.mp hends
    rw [ha, List.append_assoc] at hpart
    rw [ha]
    exact (isMarginPart_of_append hpart).concat_break (by decide)

theorem isMargin_fillDedents (run : List (Nat × Token)) {trivia : Text} (h : IsMargin trivia) :
    IsMargin (fillDedents run trivia).2 := by
  induction run generalizing trivia with
  | nil => exact h
  | cons r run ih =>
      obtain ⟨column, t⟩ := r
      rw [← trailer_append column trivia] at h
      exact ih (h.of_append (isMargin_trailer column (by rwa [trailer_append] at h)))

/-- Words stay woven when closing markers take comments. -/
theorem woven_attachTrailersFrom (columns : List Nat) {run : List (Nat × Token)} {ts : List Token}
    (hrun : IsClosingRun run) (hts : ∀ t ∈ ts, t.kind = .dedent → t.source = []) (h : Woven ts) :
    Woven (attachTrailersFrom columns run ts) := by
  induction ts generalizing columns run with
  | nil =>
      rw [attachTrailersFrom, ← List.append_nil (run.map _)]
      refine Woven.append_layout (fun t ht => ?_) trivial
      obtain ⟨r, hr, rfl⟩ := List.mem_map.mp ht
      rw [(hrun r hr).1]
      rfl
  | cons t ts ih =>
      have hsources : ∀ u ∈ ts, u.kind = .dedent → u.source = [] :=
        fun u hu => hts u (List.mem_cons_of_mem _ hu)
      rw [attachTrailersFrom]
      split
      · rename_i hkind
        have hkind : t.kind = .dedent := by simpa using hkind
        exact ih _ (hrun.concat hkind (hts t (by simp) hkind) _) hsources h.2
      · have hnone : IsClosingRun [] := by simp [IsClosingRun]
        refine Woven.append_layout (fun u hu => ?_) ⟨fun hword => ?_, ih _ hnone hsources h.2⟩
        · rw [hrun.kind_fillDedents _ u hu]
          rfl
        · obtain ⟨hcuts, htrivia⟩ := h.1 hword
          refine ⟨?_, isMargin_fillDedents run htrivia⟩
          rw [spell_attachTrailersFrom _ (by simp) hsources]
          simpa using hcuts

theorem woven_parse {source : Text} {m : Module} (h : parse source = .ok m) : Woven m.tokens := by
  obtain ⟨ts, hts, hm⟩ := tokens_parse h
  rw [hm]
  refine woven_attachTrailersFrom [] (by simp [IsClosingRun]) (fun t ht hkind => ?_)
    (Cursor.woven_tokens (.inl isMargin_nil) (fun _ => rfl) hts)
  obtain ⟨init, last, rfl, hlast, hinit⟩ := tokenize_ends hts
  rcases List.mem_append.mp ht with ht | ht
  · exact (hinit t ht).2 (.inr hkind)
  · rw [List.mem_singleton.mp ht, hlast] at hkind
    cases hkind

end SchemaTidy
