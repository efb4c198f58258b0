import SchemaTidy.Proofs.Literal.Usual

/-!
# What the usual spelling of a literal keeps

A literal between its own quotes keeps what it means, and so does an ordinary one between other
quotes. The body of a raw or a long literal can end early between other quotes, a mended end can
change a raw body, and a replacement field is respelled as if it were text.
-/

namespace SchemaTidy

open Lexeme

theorem isQuoted_of_cuts {text : Text} {q : QuotedText} (h : Cuts .string text [])
    (hq : QuotedText.ofText? text = some q) : ∃ c triple, q.IsQuoted c triple ∧ q.text = text := by
  obtain ⟨q', c, triple, hquoted, rfl⟩ := exists_isQuoted_of_cuts h
  obtain rfl : q' = q := Option.some.inj (hquoted.ofText?_text.symm.trans hq)
  exact ⟨c, triple, hquoted, rfl⟩

theorem cuts_of_scan_all {c : Char} {cs : Text}
    (h : (scan false .start c cs).toOption = some (.token .string, cs.length)) :
    Cuts .string (c :: cs) [] := by
  cases hread : scan false .start c cs with
  | error e => simp [hread, Except.toOption] at h
  | ok read =>
      obtain rfl : read = (.token .string, cs.length) := by simpa [hread, Except.toOption] using h
      simpa using cuts_of_scan hread (by decide)

/-! ## Ordinary literals -/

namespace QuotedText

variable {q : QuotedText} {c : Char} {triple : Bool}

theorem IsQuoted.staysOpen_ordinary (h : q.IsQuoted c false) (hraw : isRaw q.marks = false)
    {style : Style} (hchanged : (q.usual style).quote ≠ q.quote) {o : Text}
    (hopen : staysOpen q.quote 0 o = true) :
    staysOpen (q.usual style).quote 0 (q.lastRespelling style o) = true := by
  obtain ⟨hother, hquote', -⟩ := otherChar_facts h.is_quote
  have hold : q.quote = [c] := h.quote_eq
  have husual : (q.usual style).quote = [otherChar c] := by
    rcases usual_cases style q (everyMarks_facts _ h.marks_mem).2.2.1 with ⟨hkept, -⟩ | ⟨hother', -⟩
    · exact absurd hkept hchanged
    · rw [hother', hold, hother]
  have hstyle : style.normalizeQuotes = true := by
    rw [← Bool.not_eq_false]
    intro hstyle
    exact hchanged (by rw [usual, if_neg (by simp [hstyle])])
  have hrespelling : q.respelling style o = respell (requoteRule c (otherChar c)) o := by
    have hrequote := requote?_eq hraw h.is_quote hquote' o
    rw [requote?, if_neg (by simp [hraw]), Option.some.injEq, Prod.mk.injEq] at hrequote
    rw [respelling, if_neg (by simp [hstyle, hraw, hold]), if_neg (by simpa using hchanged), hold,
      hother]
    exact hrequote.2
  have hbody : IsBody c o := isBody_iff_staysOpen.mpr (by rwa [h.quote_eq] at hopen)
  rw [lastRespelling, if_neg (by simpa using hchanged), husual, hrespelling, mendEnd,
    if_neg (by simp)]
  exact isBody_iff_staysOpen.mp (isBody_converted hquote' hbody)

/-- The usual spelling of an ordinary literal is not closed early. -/
theorem IsQuoted.usual_ordinary (h : q.IsQuoted c triple) (hcuts : Cuts .string q.text [])
    (style : Style) (hordinary : isRaw q.marks = false ∧ q.isTriple = false) :
    (q.usual style).quote = q.quote ∨
      staysOpen (q.usual style).quote 0 (q.lastRespelling style q.outline) = true := by
  obtain rfl : triple = false := h.isTriple_eq.symm.trans hordinary.2
  obtain ⟨fs, o, hbody, hopen⟩ := h.cuts_iff.mp hcuts
  obtain ⟨-, rfl⟩ := h.cut_eq hbody
  by_cases hkept : (q.usual style).quote = q.quote
  · exact .inl hkept
  · exact .inr (h.staysOpen_ordinary hordinary.1 hkept hopen)

/-! ## Values -/

def meaning? (named : Text → Option Nat) (q : QuotedText) : Option (List Datum) :=
  if isRaw q.marks then some (dataOf q.marks (q.body.map Char.toNat))
  else bodyValue? named q.marks q.body

theorem IsQuoted.body_usual_raw (h : q.IsQuoted c triple) (hraw : isRaw q.marks = true)
    {style : Style} (hkept : (q.usual style).quote = q.quote) :
    (q.usual style).body = q.body := by
  rw [h.usual_body, lastRespelling, if_pos (beq_iff_eq.mpr hkept), respelling,
    if_pos (by simp [hraw])]

theorem fields_of_plain (hplain : isFormatted q.marks = false) : q.fields = [] := by
  simp [fields, cut, hplain]

theorem outline_of_plain (hplain : isFormatted q.marks = false) : q.outline = q.body := by
  simp [outline, cut, hplain]

theorem IsQuoted.usual_iff_of_plain (h : q.IsQuoted c triple) (hcuts : Cuts .string q.text [])
    (hplain : isFormatted q.marks = false) (style : Style) :
    Cuts .string (q.usual style).text [] ↔ (q.usual style).quote = q.quote ∨
      staysOpen (q.usual style).quote 0 (q.usual style).body = true := by
  obtain ⟨-, -, hformatted, -⟩ := h.usual_marks style
  have hiff := h.usual_iff hcuts style
  rw [fields_of_plain hplain, fields_of_plain (hformatted.trans hplain), outline_of_plain hplain,
    ← h.usual_body] at hiff
  simpa using hiff

/-- A body that is not closed early means the same. -/
theorem IsQuoted.decode_usual (h : q.IsQuoted c triple) {style : Style}
    (hopen : (q.usual style).quote = q.quote ∨
      staysOpen (q.usual style).quote 0 (q.usual style).body = true)
    (named : Text → Option Nat) (bytes : Bool) :
    decode named bytes 0 (q.usual style).body = decode named bytes 0 q.body := by
  have hspelled := (h.isPass_respelling style).respelled q.body
  rw [h.usual_body] at hopen ⊢
  unfold lastRespelling at hopen ⊢
  split
  · exact hspelled.decode areQuotes_both named bytes (by simp)
  · rename_i hchanged
    rw [if_neg hchanged] at hopen
    have hopen := hopen.resolve_left fun hkept => hchanged (beq_iff_eq.mpr hkept)
    unfold mendEnd at hopen ⊢
    split
    · rename_i hmended
      rw [if_pos hmended] at hopen
      rw [Bool.and_eq_true, beq_iff_eq, beq_iff_eq] at hmended
      obtain ⟨s, hs⟩ := List.getLast?_eq_some_iff.mp hmended.2
      rw [hs, List.dropLast_concat] at hopen ⊢
      rw [hs] at hspelled
      rw [hmended.1] at hopen
      have hend : Respelled ['"', '\''] (s ++ ['"']) (s ++ ['\\', '"']) :=
        (respelled_mended hopen).mono (by simp)
      exact (hspelled.trans areQuotes_both hend).decode areQuotes_both named bytes (by simp)
    · exact hspelled.decode areQuotes_both named bytes (by simp)

end QuotedText

def literalMeaning? (named : Text → Option Nat) (text : Text) : Option (List Datum) :=
  (QuotedText.ofText? text).bind (·.meaning? named)

theorem dataOf_injective (marks : Text) {s t : Text}
    (h : dataOf marks (s.map Char.toNat) = dataOf marks (t.map Char.toNat)) : s = t := by
  have hdatum : Function.Injective (if isBytes marks then Datum.byte else Datum.point) := by
    split <;> intro a b hab <;> cases hab <;> rfl
  have hchar : Function.Injective Char.toNat := fun a b hab => Char.toNat_inj.mp hab
  exact List.map_injective_iff.mpr hchar (List.map_injective_iff.mpr hdatum h)

/-- The usual spelling of a literal that is not formatted is one token with the same value exactly
if the quotes are kept, the literal is ordinary, or its new body stays open and, in a raw literal,
is the old one. -/
theorem normalizeLiteral_keeps_value {text : Text} {q : QuotedText} (h : Cuts .string text [])
    (hq : QuotedText.ofText? text = some q) (hplain : isFormatted q.marks = false) (style : Style) :
    (Cuts .string (normalizeLiteral style text) [] ∧
        ∀ named, literalMeaning? named (normalizeLiteral style text) = literalMeaning? named text) ↔
      (q.usual style).quote = q.quote ∨ (isRaw q.marks = false ∧ q.isTriple = false) ∨
        (staysOpen (q.usual style).quote 0 (q.usual style).body = true ∧
          (isRaw q.marks = true → (q.usual style).body = q.body)) := by
  obtain ⟨c, triple, hquoted, rfl⟩ := isQuoted_of_cuts h hq
  obtain ⟨c', husual⟩ := hquoted.exists_isQuoted_usual style
  obtain ⟨-, hraw, hformatted, hbytes⟩ := hquoted.usual_marks style
  have hcuts := hquoted.usual_iff_of_plain h hplain style
  rw [hquoted.normalizeLiteral_text]
  simp only [literalMeaning?, husual.ofText?_text, hquoted.ofText?_text, Option.bind_some,
    QuotedText.meaning?, hraw]
  constructor
  · rintro ⟨htoken, hvalue⟩
    rcases hcuts.mp htoken with hkept | hopen
    · exact .inl hkept
    · refine .inr (.inr ⟨hopen, fun hr => ?_⟩)
      have hsame := hvalue fun _ => none
      rw [if_pos hr, if_pos hr, dataOf_congr hbytes, Option.some.injEq] at hsame
      exact dataOf_injective q.marks hsame
  · intro hkeeps
    have hopen : (q.usual style).quote = q.quote ∨
        staysOpen (q.usual style).quote 0 (q.usual style).body = true := by
      rcases hkeeps with hkept | hordinary | ⟨hopen, -⟩
      · exact .inl hkept
      · have hopen := hquoted.usual_ordinary h style hordinary
        rwa [QuotedText.outline_of_plain hplain, ← hquoted.usual_body] at hopen
      · exact .inr hopen
    refine ⟨hcuts.mpr hopen, fun named => ?_⟩
    by_cases hr : isRaw q.marks = true
    · have hbody : (q.usual style).body = q.body := by
        rcases hkeeps with hkept | ⟨hr', -⟩ | ⟨-, hbody⟩
        · exact hquoted.body_usual_raw hr hkept
        · exact absurd (hr.symm.trans hr') (by simp)
        · exact hbody hr
      rw [if_pos hr, if_pos hr, hbody, dataOf_congr hbytes]
    · rw [if_neg hr, if_neg hr, bodyValue?, bodyValue?, hquoted.decode_usual hopen, hbytes,
        dataOf_congr hbytes]

/-- A raw literal with a quote behind two backslashes, which do not escape it. -/
def rawLiteral : Text := "r'x\\\\\"y'".toList

def longLiteral : Text := "'''a\\\"b'''".toList

theorem normalizeLiteral_keeps_value_rawLiteral :
    ¬ (Cuts .string (normalizeLiteral {} rawLiteral) [] ∧ ∀ named,
        literalMeaning? named (normalizeLiteral {} rawLiteral) = literalMeaning? named rawLiteral) ∧
      (Cuts .string (normalizeLiteral {} longLiteral) [] ∧ ∀ named,
        literalMeaning? named (normalizeLiteral {} longLiteral) =
          literalMeaning? named longLiteral) := by
  constructor
  · intro hkeeps
    have hcuts : Cuts .string rawLiteral [] := cuts_of_scan_all (by decide +kernel)
    have hq : QuotedText.ofText? rawLiteral = some ⟨['r'], ['\''], "x\\\\\"y".toList⟩ := by
      decide +kernel
    have hslip := (normalizeLiteral_keeps_value hcuts hq (by decide) {}).mp hkeeps
    revert hslip
    decide +kernel
  · have hcuts : Cuts .string longLiteral [] := cuts_of_scan_all (by decide +kernel)
    have hq : QuotedText.ofText? longLiteral = some ⟨[], "'''".toList, "a\\\"b".toList⟩ := by
      decide +kernel
    apply (normalizeLiteral_keeps_value hcuts hq (by decide) {}).mpr
    decide +kernel

/-! ## Replacement fields -/

def replacementFields (text : Text) : List Text :=
  match QuotedText.ofText? text with
  | some q => q.fields
  | none => []

/-- The usual spelling of a literal is one token with the same replacement fields exactly if
respelling changes none of them and the quotes are kept, the literal is ordinary, or its respelled
outline stays open. -/
theorem normalizeLiteral_keeps_fields {text : Text} {q : QuotedText} (h : Cuts .string text [])
    (hq : QuotedText.ofText? text = some q) (style : Style) :
    (Cuts .string (normalizeLiteral style text) [] ∧
        replacementFields (normalizeLiteral style text) = replacementFields text) ↔
      (∀ f ∈ q.fields, q.respelling style ('{' :: f) = '{' :: f) ∧
        ((q.usual style).quote = q.quote ∨ (isRaw q.marks = false ∧ q.isTriple = false) ∨
          staysOpen (q.usual style).quote 0 (q.lastRespelling style q.outline) = true) := by
  obtain ⟨c, triple, hquoted, rfl⟩ := isQuoted_of_cuts h hq
  obtain ⟨c', husual⟩ := hquoted.exists_isQuoted_usual style
  rw [hquoted.normalizeLiteral_text]
  simp only [replacementFields, husual.ofText?_text, hquoted.ofText?_text]
  rw [hquoted.usual_iff h style]
  constructor
  · rintro ⟨hkept, hclosing⟩
    exact ⟨hkept, hclosing.imp_right .inr⟩
  · rintro ⟨hkept, hquote | hordinary | hclosing⟩
    · exact ⟨hkept, .inl hquote⟩
    · exact ⟨hkept, hquoted.usual_ordinary h style hordinary⟩
    · exact ⟨hkept, .inr hclosing⟩

/-- A formatted literal with an escaped quote in a literal in a replacement field. -/
def escapingField : Text := "f'\x7by(\"\\\"\")\x7d'".toList

/-- A formatted literal with an escaped quote in its text. -/
def escapingText : Text := "F'\x7bx[\"k\"]\x7d it\\'s'".toList

theorem normalizeLiteral_keeps_fields_escapedQuotes :
    ¬ (Cuts .string (normalizeLiteral {} escapingField) [] ∧
        replacementFields (normalizeLiteral {} escapingField) = replacementFields escapingField) ∧
      (Cuts .string (normalizeLiteral {} escapingText) [] ∧
        replacementFields (normalizeLiteral {} escapingText) = replacementFields escapingText) := by
  constructor
  · intro hkeeps
    have hcuts : Cuts .string escapingField [] := cuts_of_scan_all (by decide +kernel)
    have hq : QuotedText.ofText? escapingField =
        some ⟨['f'], ['\''], "\x7by(\"\\\"\")\x7d".toList⟩ := by
      decide +kernel
    have hslip := (normalizeLiteral_keeps_fields hcuts hq {}).mp hkeeps
    revert hslip
    decide +kernel
  · have hcuts : Cuts .string escapingText [] := cuts_of_scan_all (by decide +kernel)
    have hq : QuotedText.ofText? escapingText =
        some ⟨['F'], ['\''], "\x7bx[\"k\"]\x7d it\\'s".toList⟩ := by
      decide +kernel
    apply (normalizeLiteral_keeps_fields hcuts hq {}).mpr
    decide +kernel

end SchemaTidy
