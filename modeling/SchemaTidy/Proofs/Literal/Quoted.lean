import SchemaTidy.Proofs.Literal.Extent

/-!
# Literals of every kind

A literal has marks, quotes and a body. It is one token exactly if the outline of its body stays
open before its quotes, whatever its marks are and whether its quotes are one or three.
-/

namespace SchemaTidy

open Lexeme

/-! ## Marks -/

def casings : Text → List Text
  | [] => [[]]
  | c :: cs => (casings cs).flatMap fun t => [c :: t, c.toUpper :: t]

/-- All marks that can stand before the quotes of a literal. -/
def everyMarks : List Text := [] :: literalMarks.flatMap casings

theorem mem_casings {word marks : Text} (hword : ∀ c ∈ word, c.toUpper.toNat + 32 = c.toNat)
    (h : Text.lower marks = word) : marks ∈ casings word := by
  induction word generalizing marks with
  | nil =>
      rw [Text.lower, List.map_eq_nil_iff] at h
      simp [casings, h]
  | cons c word ih =>
      obtain ⟨d, rest, rfl, hd, hrest⟩ := List.map_eq_cons_iff.mp h
      have hmem := ih (fun e he => hword e (by simp [he])) hrest
      rw [casings, List.mem_flatMap]
      refine ⟨rest, hmem, ?_⟩
      rcases eq_of_toLower_eq c.toUpper (hword c (by simp)) hd with rfl | rfl
      · simp
      · simp

theorem mem_everyMarks {marks : Text}
    (h : marks = [] ∨ literalMarks.contains (Text.lower marks) = true) : marks ∈ everyMarks := by
  rcases h with rfl | h
  · exact List.mem_cons_self
  · have hmem := List.contains_iff_mem.mp h
    have hall : literalMarks.all (·.all fun c => c.toUpper.toNat + 32 == c.toNat) = true := by
      decide +kernel
    have hword : ∀ word ∈ literalMarks, ∀ c ∈ word, c.toUpper.toNat + 32 = c.toNat := by
      simpa only [List.all_eq_true, beq_iff_eq] using hall
    exact List.mem_cons_of_mem _
      (List.mem_flatMap.mpr ⟨_, hmem, mem_casings (hword _ hmem) rfl⟩)

theorem everyMarks_facts : ∀ marks ∈ everyMarks, marks.all (!isQuote ·) = true ∧
    normalizeMarks marks ∈ everyMarks ∧ isRaw (normalizeMarks marks) = isRaw marks ∧
    isFormatted (normalizeMarks marks) = isFormatted marks ∧
    isBytes (normalizeMarks marks) = isBytes marks ∧
    (Text.lower marks).contains 'f' = isFormatted marks := by
  decide

theorem everyMarks_word : ∀ marks ∈ everyMarks, ∀ m ms, marks = m :: ms →
    Text.isIndent m = false ∧ m ≠ '\\' ∧ m ≠ '#' ∧ Text.isLineBreak m = false ∧
    Text.isWordStart m = true ∧ ms.all Text.isWord = true ∧
    literalMarks.contains (Text.lower marks) = true := by
  have hall : ∀ marks ∈ everyMarks, marks.head?.all (fun m => !Text.isIndent m && m != '\\' &&
      m != '#' && !Text.isLineBreak m && Text.isWordStart m && marks.tail.all Text.isWord &&
      literalMarks.contains (Text.lower marks)) = true := List.all_eq_true.mp (by decide +kernel)
  rintro _ hmarks m ms rfl
  simpa [and_assoc] using hall _ hmarks

/-- The scanner takes a literal from its marks on. -/
theorem scan_literal {marks : Text} (hmarks : marks ∈ everyMarks) {c : Char}
    (hc : isQuote c = true) (cs : Text) :
    ∃ d ds, marks ++ c :: cs = d :: ds ∧ ∀ inBrackets here, ∃ behind,
      scan inBrackets here d ds = (literalLength (isFormatted marks) here behind c (c :: cs)).map
        fun n => (.token .string, marks.length + n - 1) := by
  obtain ⟨hescape, hbreak, hindent, hcomment, hstart, hword⟩ := quote_facts hc
  have hquote : (c == '"' || c == '\'') = true := hc
  have hformatted := (everyMarks_facts marks hmarks).2.2.2.2.2
  cases marks with
  | nil =>
      refine ⟨c, cs, rfl, fun inBrackets here => ⟨here, ?_⟩⟩
      simp [scan, hescape, hbreak, hindent, hcomment, hstart, hquote, isFormatted]
  | cons m ms =>
      obtain ⟨h₁, h₂, h₃, h₄, h₅, h₆, h₇⟩ := everyMarks_word _ hmarks m ms rfl
      have hlength : Text.lengthWhile Text.isWord (ms ++ c :: cs) = ms.length := by
        rw [Text.lengthWhile, List.takeWhile_append_of_pos (List.all_eq_true.mp h₆),
          List.takeWhile_cons_of_neg (by simp [hword]), List.append_nil]
      refine ⟨m, ms ++ c :: cs, rfl, fun inBrackets here => ⟨here.after (m :: ms), ?_⟩⟩
      simp only [scan, h₁, beq_iff_eq, h₂, h₃, h₄, h₅, hlength, List.take_left, List.drop_left,
        hquote, h₇, hformatted, Bool.false_eq_true, if_false, if_true, Bool.and_true]
      congr 1
      funext n
      rw [List.length_cons, Nat.add_right_comm, Nat.add_sub_cancel]

/-! ## One token -/

namespace QuotedText

/-- Marks, and a body that does not change the quotes `c` around it. -/
structure IsQuoted (q : QuotedText) (c : Char) (triple : Bool) : Prop where
  marks_mem : q.marks ∈ everyMarks
  is_quote : isQuote c = true
  quote_eq : q.quote = quotesOf c triple
  head_ne : triple = false → q.body.head? ≠ some c

variable {q : QuotedText} {c : Char} {triple : Bool}

/-- The quotes of a body and what stands between them. -/
def quoted (q : QuotedText) : Text := q.quote ++ (q.body ++ q.quote)

theorem text_eq (q : QuotedText) : q.text = q.marks ++ q.quoted := by
  simp [QuotedText.text, quoted]

namespace IsQuoted

theorem quoted_eq (h : q.IsQuoted c triple) :
    ∃ cs, q.quoted = c :: cs ∧ Lexeme.isTriple c (c :: cs) = triple := by
  rw [quoted, h.quote_eq, quotesOf_cons, List.cons_append]
  refine ⟨_, rfl, ?_⟩
  cases triple with
  | true => simp [Lexeme.isTriple, List.isPrefixOf]
  | false =>
      rw [← Bool.not_eq_true]
      intro htriple
      cases hbody : q.body with
      | nil => simp [hbody, Lexeme.isTriple, List.isPrefixOf] at htriple
      | cons d ds =>
          rw [hbody] at htriple
          have hsame := (isTriple_cons_cons.mp htriple).2.1
          exact h.head_ne rfl (by rw [hbody, hsame]; rfl)

theorem ofText?_text (h : q.IsQuoted c triple) : QuotedText.ofText? q.text = some q := by
  obtain ⟨cs, hquoted, htriple⟩ := h.quoted_eq
  have hmarks : ∀ d ∈ q.marks, isQuote d = false := by
    simpa using (everyMarks_facts _ h.marks_mem).1
  have hcut := takeWhile_marks hmarks h.is_quote cs
  rw [← startsTriple_eq_isTriple h.is_quote] at htriple
  rw [← hquoted] at hcut htriple
  have hlength : (if triple = true then 3 else 1) = q.quote.length := by
    rw [h.quote_eq, length_quotesOf]
  have htake : q.quoted.take q.quote.length = q.quote := List.take_left
  have hsuffix : q.quote.isSuffixOf q.quoted = true := by
    rw [List.isSuffixOf_iff_suffix, quoted, ← List.append_assoc]
    exact List.suffix_append _ _
  have hempty : q.quoted.isEmpty = false := by simp [hquoted]
  have hsize : q.quoted.length = q.body.length + 2 * q.quote.length := by
    simp only [quoted, List.length_append]
    omega
  have hbody : (q.quoted.drop q.quote.length).take q.body.length = q.body := by simp [quoted]
  rw [text_eq, QuotedText.ofText?]
  simp only [hcut, htriple, hlength, htake, hsuffix, hempty, hsize]
  simp [hbody]

theorem literalLength_eq (h : q.IsQuoted c triple) (formatted : Bool) (start behind : Position)
    {cs : Text} (hcs : q.quoted = c :: cs) :
    literalLength formatted start behind c (c :: cs) =
      (literalTail (behind.after q.quote) [.body c triple formatted start] (q.body ++ q.quote)).map
        (· + q.quote.length) := by
  obtain ⟨cs', hquoted, htriple⟩ := h.quoted_eq
  obtain rfl : cs' = cs := (List.cons.inj (hquoted.symm.trans hcs)).2
  have hlength : quoteLength c (c :: cs') = q.quote.length := by
    rw [quoteLength, htriple, h.quote_eq, length_quotesOf]
  rw [literalLength, hlength, htriple, ← hquoted]
  simp only [quoted, List.take_left, List.drop_left]

/-- A literal is one token exactly if the outline of its body stays open. -/
theorem cuts_iff (h : q.IsQuoted c triple) :
    Cuts .string q.text [] ↔ ∃ fs o, Outlined (isFormatted q.marks) triple q.body fs o ∧
      staysOpen q.quote 0 o = true := by
  obtain ⟨cs, hquoted, -⟩ := h.quoted_eq
  obtain ⟨d, ds, hsplit, hscan⟩ := scan_literal h.marks_mem h.is_quote cs
  have hsize : ds.length + 1 = q.marks.length + (q.body.length + 2 * q.quote.length) := by
    have hlength := congrArg List.length hsplit
    rw [← hquoted] at hlength
    simp only [quoted, List.length_append, List.length_cons] at hlength
    omega
  have hpos : 0 < q.quote.length := by
    rw [h.quote_eq, quotesOf_cons]
    simp
  rw [text_eq, hquoted, hsplit]
  constructor
  · rintro ⟨-, d', ds', hcons, hcut⟩
    obtain ⟨rfl, rfl⟩ := List.cons.inj hcons
    obtain ⟨behind, hread⟩ := hscan true .start
    have hcut := hcut true .start
    rw [List.append_nil, hread] at hcut
    obtain ⟨n, hlength, hn⟩ := exists_of_map_eq_ok hcut
    rw [h.literalLength_eq _ _ _ hquoted] at hlength
    obtain ⟨m, htail, rfl⟩ := exists_of_map_eq_ok hlength
    obtain ⟨b, fs, o, rest, hbody, rfl, houtlined, hopen⟩ :=
      exists_outlined_of_literalTail h.is_quote htail
    rw [← h.quote_eq] at hbody hopen hn
    simp only [Prod.mk.injEq, true_and] at hn
    have hrest : rest = [] := by
      have hall := congrArg List.length hbody
      simp only [List.length_append] at hall
      exact List.length_eq_zero_iff.mp (by omega)
    rw [hrest, List.append_nil] at hbody
    rw [← List.append_cancel_right hbody] at houtlined
    exact ⟨fs, o, houtlined, hopen⟩
  · rintro ⟨fs, o, houtlined, hopen⟩
    refine ⟨by simp, d, ds, rfl, fun inBrackets here => ?_⟩
    obtain ⟨behind, hread⟩ := hscan inBrackets here
    rw [h.quote_eq] at hopen
    have htail := houtlined.literalTail h.is_quote hopen (behind.after q.quote) here []
    rw [List.append_nil, ← h.quote_eq] at htail
    rw [List.append_nil, hread, h.literalLength_eq _ _ _ hquoted, htail]
    simp only [Except.map, Except.ok.injEq, Prod.mk.injEq, true_and]
    omega

end IsQuoted

end QuotedText

theorem Outlined.head?_ne {formatted : Bool} {c : Char} (hc : isQuote c = true) {b o : Text}
    {fs : List Text} (h : Outlined formatted false b fs o)
    (hopen : staysOpen (quotesOf c false) 0 o = true) : b.head? ≠ some c := by
  have hnone {d : Char} (hd : isQuote d = false) : d ≠ c := by
    rintro rfl
    exact absurd (hc.symm.trans hd) (by simp)
  cases h with
  | nil => simp
  | @char d b o fs hd hbrace h =>
      obtain ⟨hquotes, -⟩ := (staysOpen_char hd).mp hopen
      rw [List.head?_cons, ne_eq, Option.some.injEq]
      rintro rfl
      simp [quotesOf, List.isPrefixOf] at hquotes
  | escape d h => simpa using hnone (d := '\\') rfl
  | braces hformatted h => simpa using hnone (d := '{') rfl
  | field hformatted hfield hhead h => simpa using hnone (d := '{') rfl

theorem exists_isQuoted_of_cuts {text : Text} (h : Cuts .string text []) :
    ∃ q c triple, QuotedText.IsQuoted q c triple ∧ q.text = text := by
  obtain ⟨-, d, ds, rfl, hscan⟩ := h
  have hscan := hscan true .start
  rw [List.append_nil] at hscan
  obtain ⟨marks, c, rest, hsplit, -, hquote, hmarks, behind, n, hlength, hn⟩ :=
    scan_string_cases hscan
  have hsize := congrArg List.length hsplit
  rw [List.length_append, List.length_cons, List.length_cons] at hsize
  obtain rfl : n = rest.length + 1 := by omega
  obtain ⟨triple, htriple⟩ : ∃ triple, isTriple c (c :: rest) = triple := ⟨_, rfl⟩
  obtain ⟨inner, hinner⟩ : quotesOf c triple <+: c :: rest := by
    cases triple with
    | false => exact ⟨rest, rfl⟩
    | true => exact List.isPrefixOf_iff_prefix.mp htriple
  have hcount : quoteLength c (c :: rest) = (quotesOf c triple).length := by
    rw [quoteLength, htriple, length_quotesOf]
  rw [literalLength, hcount, htriple, ← hinner] at hlength
  simp only [List.take_left, List.drop_left] at hlength
  obtain ⟨m, htail, hm⟩ := exists_of_map_eq_ok hlength
  obtain ⟨b, fs, o, behind', rfl, rfl, houtlined, hopen⟩ :=
    exists_outlined_of_literalTail hquote htail
  have hbehind : behind' = [] := by
    have hall := congrArg List.length hinner
    simp only [List.length_append, List.length_cons] at hall
    exact List.length_eq_zero_iff.mp (by omega)
  subst hbehind
  rw [List.append_nil] at hinner
  refine ⟨⟨marks, quotesOf c triple, b⟩, c, triple, ⟨mem_everyMarks hmarks, hquote, rfl, ?_⟩, ?_⟩
  · rintro rfl
    exact houtlined.head?_ne hquote hopen
  · rw [QuotedText.text_eq, QuotedText.quoted, hinner, hsplit]

end SchemaTidy
