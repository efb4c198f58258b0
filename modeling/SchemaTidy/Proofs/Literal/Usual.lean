import SchemaTidy.Proofs.Literal.Passes
import SchemaTidy.Proofs.Literal.Run

/-!
# The usual spelling of a literal

The usual spelling of a literal respells its body by passes over its quotes, and it mends the end of
a body that has come between three double quotes. It is one token with the same replacement fields
exactly if no field changes and the respelled outline stays open.
-/

namespace SchemaTidy

open Lexeme

namespace QuotedText

def usual (style : Style) (q : QuotedText) : QuotedText :=
  if style.normalizeQuotes then
    chooseQuotes { q with marks := normalizeMarks q.marks } style.preferFewerEscapes
  else q

/-- How a part of the body of a literal is respelled. -/
def respelling (style : Style) (q : QuotedText) (t : Text) : Text :=
  let new := otherQuote q.quote
  if !style.normalizeQuotes || isRaw q.marks || q.quote == "\"\"\"".toList then t
  else if (q.usual style).quote == q.quote then flipQuotes true new t
  else flipQuotes false new (flipQuotes true q.quote (flipQuotes true new t))

/-- How the last part of the body of a literal is respelled. -/
def lastRespelling (style : Style) (q : QuotedText) (t : Text) : Text :=
  if (q.usual style).quote == q.quote then q.respelling style t
  else mendEnd (q.usual style).quote (q.respelling style t)

/-- The replacement fields of a literal and the outline of its body. -/
def cut (q : QuotedText) : List Text × Text :=
  if isFormatted q.marks then cutFields q.isTriple q.body else ([], q.body)

def fields (q : QuotedText) : List Text := q.cut.1

def outline (q : QuotedText) : Text := q.cut.2

variable {q : QuotedText} {c : Char} {triple : Bool}

theorem IsQuoted.normalizeLiteral_text (h : q.IsQuoted c triple) (style : Style) :
    normalizeLiteral style q.text = (q.usual style).text := by
  rw [normalizeLiteral, usual, h.ofText?_text]
  split <;> rfl

theorem otherQuote_ne (quote : Text) : otherQuote quote ≠ quote := by
  unfold otherQuote
  split
  · rename_i h
    rw [beq_iff_eq] at h
    rw [h]
    decide
  split
  · rename_i h
    rw [beq_iff_eq] at h
    rw [h]
    decide
  · rename_i h
    intro hsame
    exact h (by rw [← hsame]; rfl)

/-- A literal is left as it is, it keeps its quotes, or it gets the other ones. -/
theorem chooseQuotes_cases (q : QuotedText) (preferFewer : Bool) :
    (chooseQuotes q preferFewer = q ∧ (q.quote = "\"\"\"".toList ∨ isRaw q.marks = true)) ∨
      (q.quote ≠ "\"\"\"".toList ∧ ∃ cleaned converted,
        requote? q.marks q.quote (otherQuote q.quote) q.body = some (cleaned, converted) ∧
        (chooseQuotes q preferFewer = { q with body := cleaned } ∨
          chooseQuotes q preferFewer =
            ⟨q.marks, otherQuote q.quote, mendEnd (otherQuote q.quote) converted⟩)) := by
  by_cases hquote : q.quote = "\"\"\"".toList
  · refine .inl ⟨?_, .inl hquote⟩
    rw [chooseQuotes, if_pos (beq_iff_eq.mpr hquote)]
  have hskip : ¬ (q.quote == "\"\"\"".toList) = true := fun h => hquote (beq_iff_eq.mp h)
  cases hrequote : requote? q.marks q.quote (otherQuote q.quote) q.body with
  | none =>
      refine .inl ⟨?_, .inr ?_⟩
      · rw [chooseQuotes, if_neg hskip]
        simp only [hrequote]
      · unfold requote? at hrequote
        split at hrequote
        · assumption
        · cases hrequote
  | some bodies =>
      obtain ⟨cleaned, converted⟩ := bodies
      have hresult : chooseQuotes q preferFewer =
          if isFormatted q.marks && fieldHasBackslash 0 converted then { q with body := cleaned }
          else if prefersOther preferFewer q.quote (cleaned.count '\\')
              ((mendEnd (otherQuote q.quote) converted).count '\\') then
            ⟨q.marks, otherQuote q.quote, mendEnd (otherQuote q.quote) converted⟩
          else { q with body := cleaned } := by
        rw [chooseQuotes, if_neg hskip]
        simp only [hrequote]
        rfl
      refine .inr ⟨hquote, cleaned, converted, rfl, ?_⟩
      rw [hresult]
      split
      · exact .inl rfl
      split
      · exact .inr rfl
      · exact .inl rfl

/-- The quotes are kept, or they are changed and the end of the body is mended. -/
theorem usual_cases (style : Style) (q : QuotedText)
    (hraw : isRaw (normalizeMarks q.marks) = isRaw q.marks) :
    ((q.usual style).quote = q.quote ∧ (q.usual style).body = q.respelling style q.body) ∨
      ((q.usual style).quote = otherQuote q.quote ∧
        (q.usual style).body = mendEnd (otherQuote q.quote) (q.respelling style q.body) ∧
        q.quote ≠ "\"\"\"".toList ∧
        (isRaw q.marks = true →
          occurrences (otherQuote q.quote) q.body =
            occurrences ('\\' :: otherQuote q.quote) q.body)) := by
  cases hstyle : style.normalizeQuotes with
  | false => exact .inl (by simp [usual, respelling, hstyle])
  | true =>
      have husual : q.usual style =
          chooseQuotes { q with marks := normalizeMarks q.marks } style.preferFewerEscapes := by
        rw [usual, if_pos hstyle]
      rcases chooseQuotes_cases { q with marks := normalizeMarks q.marks } style.preferFewerEscapes
        with ⟨hsame, hkind⟩ | ⟨hquote, cleaned, converted, hrequote, hresult⟩
      · left
        have hkind : q.quote = "\"\"\"".toList ∨ isRaw q.marks = true := hraw ▸ hkind
        have hid : q.respelling style q.body = q.body := by
          rw [respelling, if_pos]
          rcases hkind with hkind | hkind <;> simp [hkind]
        rw [husual, hsame, hid]
        exact ⟨rfl, rfl⟩
      · by_cases hr : isRaw q.marks = true
        · have hid : q.respelling style q.body = q.body := by simp [respelling, hr]
          rw [requote?, hraw, if_pos hr] at hrequote
          split at hrequote
          · rename_i hcount
            obtain ⟨rfl, rfl⟩ : q.body = cleaned ∧ q.body = converted := by simpa using hrequote
            rw [husual, hid]
            rcases hresult with hresult | hresult <;> rw [hresult]
            · exact .inl ⟨rfl, rfl⟩
            · exact .inr ⟨rfl, rfl, hquote, fun _ => beq_iff_eq.mp hcount⟩
          · cases hrequote
        · have hflip : q.respelling style q.body =
              if (q.usual style).quote == q.quote then cleaned else converted := by
            rw [requote?, hraw, if_neg hr, Option.some.injEq, Prod.mk.injEq] at hrequote
            obtain ⟨rfl, rfl⟩ := hrequote
            rw [respelling, if_neg (by simpa [hstyle, hr] using hquote)]
          rw [hflip, husual]
          rcases hresult with hresult | hresult <;> rw [hresult]
          · exact .inl ⟨rfl, by rw [if_pos (beq_self_eq_true _)]⟩
          · have hchanged : ¬ (otherQuote q.quote == q.quote) = true := by
              simpa using otherQuote_ne q.quote
            exact .inr ⟨rfl, by rw [if_neg hchanged], hquote, fun h => absurd h hr⟩

theorem otherQuote_subset (quote : Text) :
    otherQuote quote ⊆ ['"', '\''] ∧ otherQuote quote ≠ [] := by
  unfold otherQuote
  split
  · simp
  split <;> simp

namespace IsQuoted

theorem areQuotes (h : q.IsQuoted c triple) : q.quote ⊆ ['"', '\''] ∧ q.quote ≠ [] := by
  rw [h.quote_eq]
  constructor
  · intro d hd
    obtain ⟨-, rfl⟩ := List.mem_replicate.mp hd
    simpa using isQuote_iff.mp h.is_quote
  · simp [quotesOf_cons]

theorem isPass_respelling (h : q.IsQuoted c triple) (style : Style) :
    IsPass ['"', '\''] (q.respelling style) := by
  have hnew := isPass_flipQuotes areQuotes_both (otherQuote_subset q.quote).1
    (otherQuote_subset q.quote).2
  have hold := isPass_flipQuotes areQuotes_both h.areQuotes.1 h.areQuotes.2
  unfold respelling
  by_cases hkeep : (!style.normalizeQuotes || isRaw q.marks || q.quote == "\"\"\"".toList) = true
  · simp only [hkeep, if_true]
    exact isPass_id _
  · by_cases hquote : ((q.usual style).quote == q.quote) = true
    · simp only [hkeep, hquote, if_true]
      exact hnew true
    · simp only [hkeep, hquote]
      exact ((hnew true).comp areQuotes_both (hold true)).comp areQuotes_both (hnew false)

theorem sectional (h : q.IsQuoted c triple) (style : Style) :
    Sectional ['"', '\''] (q.respelling style) (q.lastRespelling style) := by
  have hpass := h.isPass_respelling style
  unfold lastRespelling
  by_cases hquote : ((q.usual style).quote == q.quote) = true
  · simp only [hquote, if_true]
    exact hpass.sectional areQuotes_both
  · simp only [hquote]
    exact hpass.sectional_mendEnd areQuotes_both _

theorem respelled_kept (h : q.IsQuoted c triple) {style : Style}
    (hkept : (q.usual style).quote = q.quote) (t : Text) :
    ∃ qs, AreQuotes qs ∧ c ∉ qs ∧ Respelled qs t (q.respelling style t) := by
  by_cases hid : (!style.normalizeQuotes || isRaw q.marks || q.quote == "\"\"\"".toList) = true
  · refine ⟨[], by simp [AreQuotes], by simp, ?_⟩
    rw [respelling, if_pos hid]
    exact .refl [] t
  · have hquotes := fun d hd => areQuotes_both d ((otherQuote_subset q.quote).1 hd)
    refine ⟨otherQuote q.quote, hquotes, ?_, ?_⟩
    · simp only [Bool.or_eq_true, not_or] at hid
      have hdouble : q.quote ≠ "\"\"\"".toList := fun hquote => hid.2 (beq_iff_eq.mpr hquote)
      rw [h.quote_eq] at hdouble ⊢
      rcases isQuote_iff.mp h.is_quote with rfl | rfl <;> cases triple
      · decide
      · exact absurd rfl hdouble
      · decide
      · decide
    · rw [respelling, if_neg hid, if_pos (beq_iff_eq.mpr hkept)]
      exact respelled_flipQuotes hquotes (otherQuote_subset q.quote).2 t

theorem usual_body (h : q.IsQuoted c triple) (style : Style) :
    (q.usual style).body = q.lastRespelling style q.body := by
  obtain ⟨-, -, hraw, -⟩ := everyMarks_facts _ h.marks_mem
  rw [lastRespelling]
  rcases usual_cases style q hraw with ⟨hquote, hbody⟩ | ⟨hquote, hbody, -⟩
  · rw [if_pos (beq_iff_eq.mpr hquote), hbody]
  · rw [if_neg (by simpa [hquote] using otherQuote_ne q.quote), hbody, hquote]

theorem usual_marks (h : q.IsQuoted c triple) (style : Style) :
    (q.usual style).marks ∈ everyMarks ∧ isRaw (q.usual style).marks = isRaw q.marks ∧
      isFormatted (q.usual style).marks = isFormatted q.marks ∧
      isBytes (q.usual style).marks = isBytes q.marks := by
  obtain ⟨-, hmem, hraw, hformatted, hbytes, -⟩ := everyMarks_facts _ h.marks_mem
  have hmarks : (q.usual style).marks = q.marks ∨
      (q.usual style).marks = normalizeMarks q.marks := by
    rw [usual]
    split
    · right
      rcases chooseQuotes_cases { q with marks := normalizeMarks q.marks } style.preferFewerEscapes
        with ⟨hsame, -⟩ | ⟨-, _, _, -, hsame | hsame⟩ <;> rw [hsame]
    · exact .inl rfl
  rcases hmarks with hsame | hsame <;> rw [hsame]
  · exact ⟨h.marks_mem, rfl, rfl, rfl⟩
  · exact ⟨hmem, hraw, hformatted, hbytes⟩

theorem exists_isQuoted_usual (h : q.IsQuoted c triple) (style : Style) :
    ∃ c', (q.usual style).IsQuoted c' triple := by
  have hmarks := (h.usual_marks style).1
  have hraw := (everyMarks_facts _ h.marks_mem).2.2.1
  have hescape := (quote_facts h.is_quote).1
  rcases usual_cases style q hraw with ⟨hquote, hbody⟩ | ⟨hquote, hbody, hdouble, hcount⟩
  · refine ⟨c, hmarks, h.is_quote, hquote.trans h.quote_eq, fun htriple => ?_⟩
    obtain ⟨qs, -, hmem, hspelled⟩ := h.respelled_kept hquote q.body
    rw [hbody]
    exact hspelled.head?_ne hescape hmem (h.head_ne htriple)
  · cases triple with
    | true =>
        refine ⟨'"', hmarks, rfl, ?_, nofun⟩
        rw [h.quote_eq] at hquote hdouble
        rcases isQuote_iff.mp h.is_quote with rfl | rfl
        · exact absurd rfl hdouble
        · exact hquote
    | false =>
        obtain ⟨hother, hother', -⟩ := otherChar_facts h.is_quote
        have hsingle : otherQuote q.quote = [otherChar c] := by
          rw [h.quote_eq]
          exact hother
        refine ⟨otherChar c, hmarks, hother', hquote.trans hsingle, fun _ => ?_⟩
        have hmended (t : Text) : mendEnd [otherChar c] t = t := by simp [mendEnd]
        rw [hbody, hsingle, hmended, respelling]
        split
        · rename_i hid
          simp only [Bool.or_eq_true, Bool.not_eq_true', beq_iff_eq] at hid
          rcases hid with (hstyle | hraw) | hsame
          · rw [usual, if_neg (by simp [hstyle])] at hquote
            exact absurd hquote.symm (otherQuote_ne q.quote)
          · have hall := hcount hraw
            rw [hsingle] at hall
            exact head?_ne_of_occurrences (quote_facts hother').1 hall
          · exact absurd hsame hdouble
        · rw [if_neg (by simpa [hquote] using otherQuote_ne q.quote), hsingle,
            flipQuotes_eq_respell _ _ hother']
          exact head?_respell_ne hother' _

theorem isTriple_eq (h : q.IsQuoted c triple) : q.isTriple = triple := by
  rw [isTriple, h.quote_eq, length_quotesOf]
  cases triple <;> rfl

theorem cut_eq (h : q.IsQuoted c triple) {fs : List Text} {o : Text}
    (hbody : Outlined (isFormatted q.marks) triple q.body fs o) :
    q.fields = fs ∧ q.outline = o := by
  cases hformatted : isFormatted q.marks with
  | true =>
      rw [hformatted] at hbody
      rw [fields, outline, cut, if_pos hformatted, h.isTriple_eq, hbody.cutFields_eq]
      exact ⟨rfl, rfl⟩
  | false =>
      rw [hformatted] at hbody
      rcases hbody.cases_field with ⟨rfl, rfl, -⟩ | ⟨_, _, _, _, _, -, -, -, -, hformatted, -⟩
      · simp [fields, outline, cut, hformatted]
      · cases hformatted

/-- The usual spelling of a literal is one token with the same replacement fields exactly if no
field changes and the outline stays open between the new quotes. -/
theorem usual_iff (h : q.IsQuoted c triple) (hcuts : Cuts .string q.text []) (style : Style) :
    (Cuts .string (q.usual style).text [] ∧ (q.usual style).fields = q.fields) ↔
      (∀ f ∈ q.fields, q.respelling style ('{' :: f) = '{' :: f) ∧
        ((q.usual style).quote = q.quote ∨
          staysOpen (q.usual style).quote 0 (q.lastRespelling style q.outline) = true) := by
  obtain ⟨fs, o, hbody, hopen⟩ := h.cuts_iff.mp hcuts
  obtain ⟨rfl, rfl⟩ := h.cut_eq hbody
  obtain ⟨c', husual⟩ := h.exists_isQuoted_usual style
  have hsectional := h.sectional style
  have hcut {fs : List Text} {o : Text}
      (hout : Outlined (isFormatted q.marks) triple (q.lastRespelling style q.body) fs o) :
      (q.usual style).fields = fs ∧ (q.usual style).outline = o := by
    rw [← (h.usual_marks style).2.2.1, ← h.usual_body] at hout
    exact husual.cut_eq hout
  rw [husual.cuts_iff, (h.usual_marks style).2.2.1, h.usual_body]
  constructor
  · rintro ⟨⟨fs', o', hbody', hopen'⟩, hfields⟩
    obtain rfl : q.fields = fs' := hfields.symm.trans (hcut hbody').1
    have hkept := hsectional.kept hbody ⟨o', hbody'⟩
    have hsame := (hcut hbody').2.symm.trans (hcut (hsectional.outlined hbody hkept)).2
    exact ⟨hkept, .inr (hsame ▸ hopen')⟩
  · rintro ⟨hkept, hclosing⟩
    have hout := hsectional.outlined hbody hkept
    refine ⟨⟨_, _, hout, ?_⟩, (hcut hout).1⟩
    rcases hclosing with hquote | hclosing
    · obtain ⟨qs, hqs, hmem, hspelled⟩ := h.respelled_kept hquote q.outline
      rw [lastRespelling, if_pos (beq_iff_eq.mpr hquote), hquote, h.quote_eq,
        hspelled.staysOpen_eq h.is_quote hmem hqs triple (by simp), ← h.quote_eq]
      exact hopen
    · exact hclosing

end IsQuoted

end QuotedText

end SchemaTidy
