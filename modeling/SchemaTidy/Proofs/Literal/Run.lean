import SchemaTidy.Proofs.Literal.Join

/-!
# Literals keep their values

The usual spelling of a literal, the literal that several are merged into and the literals that it is
cut into for lines are tokens again, and they mean what the literals meant.
-/

namespace SchemaTidy

open Lexeme

namespace QuotedText

/-- Plain marks, and a body between single quotes `c`. -/
structure IsPlain (q : QuotedText) (c : Char) : Prop where
  marks_mem : q.marks ∈ plainMarks
  is_quote : isQuote c = true
  quote_eq : q.quote = [c]
  is_body : IsBody c q.body

/-- The value of a literal that is cut into its parts. -/
def value? (named : Text → Option Nat) (q : QuotedText) : Option (List Datum) :=
  bodyValue? named q.marks q.body

end QuotedText

theorem plainMarks_facts : ∀ marks ∈ plainMarks, marks.all (!isQuote ·) = true ∧
    isRaw marks = false ∧ isFormatted marks = false ∧ normalizeMarks marks ∈ plainMarks ∧
    isBytes (normalizeMarks marks) = isBytes marks := by
  decide

namespace QuotedText.IsPlain

variable {q : QuotedText} {c : Char}

theorem text_eq (h : q.IsPlain c) : q.text = q.marks ++ c :: (q.body ++ [c]) := by
  rw [QuotedText.text, h.quote_eq]
  simp

theorem cuts (h : q.IsPlain c) : Cuts .string q.text [] := by
  rw [h.text_eq]
  exact cuts_of_isBody h.marks_mem h.is_quote h.is_body

theorem isRaw_marks (h : q.IsPlain c) : isRaw q.marks = false := (plainMarks_facts _ h.marks_mem).2.1

theorem isFormatted_marks (h : q.IsPlain c) : isFormatted q.marks = false :=
  (plainMarks_facts _ h.marks_mem).2.2.1

theorem cut (h : q.IsPlain c) : q.text.takeWhile (!isQuote ·) = q.marks ∧
    q.text.dropWhile (!isQuote ·) = c :: (q.body ++ [c]) := by
  have hmarks : ∀ d ∈ q.marks, isQuote d = false := by
    simpa using (plainMarks_facts _ h.marks_mem).1
  rw [h.text_eq]
  exact takeWhile_marks hmarks h.is_quote (q.body ++ [c])

theorem startsTriple_eq_false (h : q.IsPlain c) : startsTriple (c :: (q.body ++ [c])) = false := by
  rw [startsTriple_eq_isTriple h.is_quote, h.is_body.isTriple_eq_false h.is_quote]

theorem plainValue?_text (h : q.IsPlain c) (named : Text → Option Nat) :
    plainValue? named q.text = q.value? named := by
  simp [plainValue?, h.cut, h.isRaw_marks, h.isFormatted_marks, h.startsTriple_eq_false,
    QuotedText.value?]

theorem ofText?_text (h : q.IsPlain c) : QuotedText.ofText? q.text = some q := by
  obtain ⟨marks, quote, body⟩ := q
  obtain rfl : quote = [c] := h.quote_eq
  have hsuffix : [c].isSuffixOf (c :: (body ++ [c])) = true := by
    rw [List.isSuffixOf_iff_suffix]
    exact ⟨c :: body, rfl⟩
  have hstarts := h.startsTriple_eq_false
  simp only at hstarts
  simp [QuotedText.ofText?, h.cut, hstarts, hsuffix]

end QuotedText.IsPlain

/-- A token with a value is a plain literal. -/
theorem exists_isPlain_of_cuts {named : Text → Option Nat} {text : Text} {value : List Datum}
    (h : Cuts .string text []) (hvalue : plainValue? named text = some value) :
    ∃ q c, QuotedText.IsPlain q c ∧ q.text = text := by
  have hplain : isRaw (text.takeWhile (!isQuote ·)) = false ∧
      isFormatted (text.takeWhile (!isQuote ·)) = false ∧
      startsTriple (text.dropWhile (!isQuote ·)) = false := by
    simp only [plainValue?] at hvalue
    split at hvalue
    · cases hvalue
    · rename_i hnot
      simpa [and_assoc] using hnot
  obtain ⟨marks, c, body, rfl, hmarks, hquote, hbody⟩ :=
    exists_isBody_of_cuts h hplain.1 hplain.2.1 hplain.2.2
  refine ⟨⟨marks, [c], body⟩, c, ⟨hmarks, hquote, rfl, hbody⟩, ?_⟩
  simp [QuotedText.text]

/-! ## The usual spelling -/

theorem bodyValue?_respell (named : Text → Option Nat) {marks marks' : Text}
    (hbytes : isBytes marks' = isBytes marks) (rule : Char → Bool → Bool) (body : Text) :
    bodyValue? named marks' (respell rule body) = bodyValue? named marks body := by
  rw [bodyValue?, bodyValue?, hbytes, dataOf_congr hbytes, decode_respell]

def otherChar (c : Char) : Char := if c = '"' then '\'' else '"'

theorem otherChar_facts {c : Char} (h : isQuote c = true) :
    otherQuote [c] = [otherChar c] ∧ isQuote (otherChar c) = true ∧ c ≠ otherChar c := by
  rcases isQuote_iff.mp h with rfl | rfl <;> decide

/-- How a body between quotes `old` is respelled for quotes `new`. -/
def requoteRule (old new : Char) (c : Char) (before : Bool) : Bool :=
  setEscape new true c (setEscape old false c (setEscape new false c before))

theorem requote?_eq {marks : Text} (hraw : isRaw marks = false) {old new : Char}
    (hold : isQuote old = true) (hnew : isQuote new = true) (body : Text) :
    requote? marks [old] [new] body =
      some (respell (setEscape new false) body, respell (requoteRule old new) body) := by
  simp only [requote?, hraw, Bool.false_eq_true, if_false, flipQuotes_eq_respell _ _ hold,
    flipQuotes_eq_respell _ _ hnew, respell_respell]
  rfl

theorem isBody_cleaned {old new : Char} (hold : isQuote old = true) (hne : old ≠ new) {body : Text}
    (h : IsBody old body) : IsBody old (respell (setEscape new false) body) :=
  isBody_respell hold (by simp [setEscape, hne]) (.inl rfl) h

theorem isBody_converted {old new : Char} (hnew : isQuote new = true) {body : Text}
    (h : IsBody old body) : IsBody new (respell (requoteRule old new) body) :=
  isBody_respell hnew (by simp [requoteRule, setEscape]) (.inr (by simp [requoteRule, setEscape])) h

theorem chooseQuotes_single {marks : Text} (hraw : isRaw marks = false)
    (hformatted : isFormatted marks = false) {c : Char} (hc : isQuote c = true) (body : Text)
    (preferFewer : Bool) :
    chooseQuotes ⟨marks, [c], body⟩ preferFewer =
      if prefersOther preferFewer [c] ((respell (setEscape (otherChar c) false) body).count '\\')
          ((respell (requoteRule c (otherChar c)) body).count '\\') then
        ⟨marks, [otherChar c], respell (requoteRule c (otherChar c)) body⟩
      else ⟨marks, [c], respell (setEscape (otherChar c) false) body⟩ := by
  obtain ⟨hother, hquote, -⟩ := otherChar_facts hc
  have hsingle (d : Char) : ([d] == "\"\"\"".toList) = false := by simp
  simp only [chooseQuotes, hsingle, hother, requote?_eq hraw hc hquote body, hformatted,
    Bool.false_and, Bool.false_eq_true, if_false]

/-- Choosing quotes respells the body for the quotes that are chosen. -/
theorem exists_isPlain_chooseQuotes {q : QuotedText} {c : Char} (h : q.IsPlain c)
    (preferFewer : Bool) :
    ∃ c' rule, (chooseQuotes q preferFewer).IsPlain c' ∧
      (chooseQuotes q preferFewer).marks = q.marks ∧
      (chooseQuotes q preferFewer).body = respell rule q.body := by
  obtain ⟨marks, quote, body⟩ := q
  obtain rfl : quote = [c] := h.quote_eq
  obtain ⟨-, hquote, hne⟩ := otherChar_facts h.is_quote
  rw [chooseQuotes_single h.isRaw_marks h.isFormatted_marks h.is_quote]
  split
  · exact ⟨_, _, ⟨h.marks_mem, hquote, rfl, isBody_converted hquote h.is_body⟩, rfl, rfl⟩
  · exact ⟨_, _, ⟨h.marks_mem, h.is_quote, rfl, isBody_cleaned h.is_quote hne h.is_body⟩, rfl, rfl⟩

theorem exists_isPlain_normalizeLiteral {q : QuotedText} {c : Char} (h : q.IsPlain c)
    (named : Text → Option Nat) (style : Style) :
    ∃ q' c', QuotedText.IsPlain q' c' ∧ normalizeLiteral style q.text = q'.text ∧
      q'.value? named = q.value? named := by
  cases hstyle : style.normalizeQuotes with
  | false => exact ⟨q, c, h, by simp [normalizeLiteral, hstyle], rfl⟩
  | true =>
      obtain ⟨-, -, -, hmarks, hbytes⟩ := plainMarks_facts _ h.marks_mem
      have hq : QuotedText.IsPlain { q with marks := normalizeMarks q.marks } c :=
        ⟨hmarks, h.is_quote, h.quote_eq, h.is_body⟩
      obtain ⟨c', rule, hplain, hmarks', hbody⟩ := exists_isPlain_chooseQuotes hq style.preferFewerEscapes
      refine ⟨_, c', hplain, by simp [normalizeLiteral, hstyle, h.ofText?_text], ?_⟩
      rw [QuotedText.value?, hbody, hmarks', bodyValue?_respell named hbytes,
        QuotedText.value?]

/-! ## One literal for several -/

theorem QuotedText.doubleBody?_double {q : QuotedText} {marks : Text} (hraw : isRaw marks = false)
    (hquote : q.quote = ['"']) :
    q.doubleBody? marks = some (respell (setEscape '\'' false) q.body) := by
  have hsingle : isQuote '\'' = true := rfl
  simp [doubleBody?, hquote, hraw, flipQuotes_eq_respell _ _ hsingle]

theorem QuotedText.doubleBody?_single {q : QuotedText} {marks : Text} (hraw : isRaw marks = false)
    (hquote : q.quote = ['\'']) :
    q.doubleBody? marks = some (respell (requoteRule '\'' '"') q.body) := by
  have hold : isQuote '\'' = true := rfl
  have hnew : isQuote '"' = true := rfl
  simp [doubleBody?, hquote, requote?_eq hraw hold hnew]

theorem doubleBody?_eq {q : QuotedText} {c : Char} (h : q.IsPlain c) {marks : Text}
    (hraw : isRaw marks = false) :
    ∃ rule, q.doubleBody? marks = some (respell rule q.body) ∧ IsBody '"' (respell rule q.body) := by
  have hbody := h.is_body
  rcases isQuote_iff.mp h.is_quote with rfl | rfl
  · exact ⟨_, QuotedText.doubleBody?_double hraw h.quote_eq,
      isBody_cleaned (by decide) (by decide) hbody⟩
  · exact ⟨_, QuotedText.doubleBody?_single hraw h.quote_eq, isBody_converted (by decide) hbody⟩

/-- Literals that can be merged into one with the given marks and codes. -/
structure Mergeable (named : Text → Option Nat) (marks : Text) (codes : List Nat)
    (literals : List QuotedText) : Prop where
  marks_mem : marks ∈ plainMarks
  plain : ∀ q ∈ literals, ∃ c, q.IsPlain c
  severs : ∀ q ∈ literals, severable (isBytes marks) q.body = true
  codes_eq : collect (fun q => decode named (isBytes marks) 0 q.body) literals = some codes

/-- A literal with the given marks and codes that can be cut. -/
structure Merges (named : Text → Option Nat) (marks : Text) (codes : List Nat) (q : QuotedText) :
    Prop where
  plain : ∃ c, q.IsPlain c
  marks_eq : q.marks = marks
  severs : severable (isBytes marks) q.body = true
  codes_eq : decode named (isBytes marks) 0 q.body = some codes

section Merge

variable {named : Text → Option Nat} {marks : Text} {codes : List Nat}

theorem merges_flatten (hmarks : marks ∈ plainMarks) {c : Char} (hc : isQuote c = true)
    {bodies : List Text}
    (hbodies : ∀ body ∈ bodies, IsBody c body ∧ severable (isBytes marks) body = true)
    (hcodes : collect (decode named (isBytes marks) 0) bodies = some codes) :
    Merges named marks codes ⟨marks, [c], bodies.flatten⟩ where
  plain := ⟨c, hmarks, hc, rfl, .flatten fun body hbody => (hbodies body hbody).1⟩
  marks_eq := rfl
  severs := severable_flatten hbodies
  codes_eq := decode_flatten hbodies hcodes

theorem Mergeable.doubleBodies {literals : List QuotedText}
    (h : Mergeable named marks codes literals) {bodies : List Text}
    (hbodies : literals.mapM (·.doubleBody? marks) = some bodies) :
    Merges named marks codes ⟨marks, ['"'], bodies.flatten⟩ := by
  have hraw := (plainMarks_facts _ h.marks_mem).2.1
  let body (q : QuotedText) : Text := (q.doubleBody? marks).getD []
  have hbody (q : QuotedText) (hq : q ∈ literals) :
      q.doubleBody? marks = some (body q) ∧ IsBody '"' (body q) ∧
        severable (isBytes marks) (body q) = true ∧
        decode named (isBytes marks) 0 (body q) = decode named (isBytes marks) 0 q.body := by
    obtain ⟨c, hplain⟩ := h.plain q hq
    obtain ⟨rule, hrule, hisBody⟩ := doubleBody?_eq hplain hraw
    have heq : body q = respell rule q.body := by simp [body, hrule]
    rw [heq, severable_respell _ rule hplain.is_body, decode_respell]
    exact ⟨hrule, hisBody, h.severs q hq, rfl⟩
  obtain rfl : literals.map body = bodies := by
    have hall := mapM_map_eq_some (g := id) fun q hq => (hbody q hq).1
    rw [List.map_id] at hall
    exact Option.some.inj (hall.symm.trans hbodies)
  apply merges_flatten h.marks_mem (by decide)
  · intro b hb
    obtain ⟨q, hq, rfl⟩ := List.mem_map.mp hb
    exact ⟨(hbody q hq).2.1, (hbody q hq).2.2.1⟩
  · rw [collect_map fun q hq => (hbody q hq).2.2.2]
    exact h.codes_eq

theorem Mergeable.ownBodies {literals : List QuotedText} (h : Mergeable named marks codes literals)
    {c : Char} (hc : isQuote c = true) (hquotes : ∀ q ∈ literals, q.quote = [c]) :
    Merges named marks codes ⟨marks, [c], literals.flatMap (·.body)⟩ := by
  rw [List.flatMap_def]
  apply merges_flatten h.marks_mem hc
  · intro b hb
    obtain ⟨q, hq, rfl⟩ := List.mem_map.mp hb
    obtain ⟨c', hplain⟩ := h.plain q hq
    obtain rfl : c' = c := by
      have hquote := hplain.quote_eq.symm.trans (hquotes q hq)
      simpa using hquote
    exact ⟨hplain.is_body, h.severs q hq⟩
  · rw [collect_map fun _ _ => rfl]
    exact h.codes_eq

theorem Merges.chooseQuotes {q : QuotedText} (h : Merges named marks codes q) (preferFewer : Bool) :
    Merges named marks codes (chooseQuotes q preferFewer) := by
  obtain ⟨c, hq⟩ := h.plain
  obtain ⟨c', rule, hplain, hmarks, hbody⟩ := exists_isPlain_chooseQuotes hq preferFewer
  refine ⟨⟨c', hplain⟩, hmarks.trans h.marks_eq, ?_, ?_⟩
  · rw [hbody, severable_respell _ rule hq.is_body, h.severs]
  · rw [hbody, decode_respell, h.codes_eq]

theorem styledMarks_facts {q : QuotedText} (h : q.marks ∈ plainMarks) (style : Style) :
    q.styledMarks style ∈ plainMarks ∧ isBytes (q.styledMarks style) = isBytes q.marks := by
  obtain ⟨-, -, -, hmarks, hbytes⟩ := plainMarks_facts _ h
  unfold QuotedText.styledMarks
  split
  · exact ⟨hmarks, hbytes⟩
  · exact ⟨h, rfl⟩

theorem mergeable_of_joins {style : Style} {literals : List QuotedText}
    (hmarks : marks ∈ plainMarks) (hplain : ∀ q ∈ literals, ∃ c, q.IsPlain c)
    (hjoins : ∀ q ∈ literals, q.joins style marks = true) {value : List Datum}
    (hvalue : collect (QuotedText.value? named) literals = some value) :
    ∃ codes, Mergeable named marks codes literals ∧ dataOf marks codes = value := by
  have hbytes (q : QuotedText) (hq : q ∈ literals) : isBytes marks = isBytes q.marks := by
    obtain ⟨c, hplain⟩ := hplain q hq
    have hjoin := hjoins q hq
    simp only [QuotedText.joins, Bool.and_eq_true, beq_iff_eq] at hjoin
    rw [← hjoin.1.1.1, (styledMarks_facts hplain.marks_mem style).2]
  have hvalues : collect (QuotedText.value? named) literals =
      (collect (fun q => decode named (isBytes marks) 0 q.body) literals).map (dataOf marks) := by
    rw [collect_dataOf]
    apply collect_congr
    intro q hq
    rw [QuotedText.value?, bodyValue?, hbytes q hq, dataOf_congr (hbytes q hq)]
  rw [hvalues] at hvalue
  obtain ⟨codes, hcodes, hdata⟩ := Option.map_eq_some_iff.mp hvalue
  refine ⟨codes, ⟨hmarks, hplain, ?_, hcodes⟩, hdata⟩
  intro q hq
  obtain ⟨c, hplain⟩ := hplain q hq
  obtain ⟨part, hpart⟩ := isSome_of_collect hcodes q hq
  have hjoin := hjoins q hq
  simp only [QuotedText.joins, Bool.and_eq_true, Bool.not_eq_true'] at hjoin
  exact severable_of_checks hplain.is_body hjoin.2 hjoin.1.2 (inReach_zero _) hpart

/-- How literals are merged: they pass the check, and their bodies are put together as they are or, if
quotes are chosen, respelled for double quotes. -/
theorem mergeLiterals?_cases {style : Style} {texts : List Text} {q : QuotedText}
    (h : mergeLiterals? style texts = some q) :
    style.wrapStrings = true ∧ ∃ first others, texts.mapM QuotedText.ofText? = some (first :: others) ∧
      (∀ l ∈ first :: others, l.joins style (first.styledMarks style) = true) ∧
      isFormatted (first.styledMarks style) = false ∧
      ((style.normalizeQuotes = true ∧ ∃ bodies,
          (first :: others).mapM (·.doubleBody? (first.styledMarks style)) = some bodies ∧
          (QuotedText.ofText? (chooseQuotes ⟨first.styledMarks style, ['"'], bodies.flatten⟩
            style.preferFewerEscapes).text).map
              (fun q => { q with marks := first.styledMarks style }) = some q) ∨
        (style.normalizeQuotes = false ∧ (∀ l ∈ first :: others, l.quote = first.quote) ∧
          q = ⟨first.styledMarks style, first.quote, (first :: others).flatMap (·.body)⟩)) := by
  unfold mergeLiterals? at h
  split at h
  · cases h
  rename_i hwrap
  split at h
  · cases h
  · cases h
  rename_i first others hliterals
  simp only at h
  split at h
  · cases h
  rename_i hjoins
  simp only [Bool.or_eq_true, Bool.not_eq_true', not_or, Bool.not_eq_false,
    Bool.not_eq_true] at hjoins
  refine ⟨by simpa using hwrap, first, others, hliterals, List.all_eq_true.mp hjoins.1, hjoins.2, ?_⟩
  split at h
  · rename_i hstyle
    split at h
    · cases h
    · rename_i bodies hbodies
      exact .inl ⟨hstyle, bodies, hbodies, h⟩
  · rename_i hstyle
    split at h
    · rename_i hquotes
      refine .inr ⟨by simpa using hstyle, fun l hl => ?_, (Option.some.inj h).symm⟩
      exact beq_iff_eq.mp (List.all_eq_true.mp hquotes l hl)
    · cases h

theorem merges_of_mergeLiterals? {style : Style} {literals : List QuotedText}
    (hplain : ∀ q ∈ literals, ∃ c, q.IsPlain c) {value : List Datum}
    (hvalue : collect (QuotedText.value? named) literals = some value) {merged : QuotedText}
    (h : mergeLiterals? style (literals.map QuotedText.text) = some merged) :
    ∃ codes, Merges named merged.marks codes merged ∧ dataOf merged.marks codes = value := by
  have hcuts : (literals.map QuotedText.text).mapM QuotedText.ofText? = some literals := by
    have hsome (q : QuotedText) (hq : q ∈ literals) : QuotedText.ofText? q.text = some (id q) := by
      obtain ⟨c, hc⟩ := hplain q hq
      exact hc.ofText?_text
    simpa using mapM_map_eq_some hsome
  obtain ⟨-, first, others, hliterals, hjoins, -, hcases⟩ := mergeLiterals?_cases h
  obtain rfl : literals = first :: others := Option.some.inj (hcuts.symm.trans hliterals)
  obtain ⟨c, hfirst⟩ := hplain first (by simp)
  have hmarks := (styledMarks_facts hfirst.marks_mem style).1
  obtain ⟨codes, hmergeable, hdata⟩ := mergeable_of_joins hmarks hplain hjoins hvalue
  have hmerges : Merges named (first.styledMarks style) codes merged := by
    rcases hcases with ⟨-, bodies, hbodies, hmerged⟩ | ⟨-, hquotes, rfl⟩
    · have hchosen := (hmergeable.doubleBodies hbodies).chooseQuotes style.preferFewerEscapes
      generalize chooseQuotes ⟨first.styledMarks style, ['"'], bodies.flatten⟩
        style.preferFewerEscapes = chosen at hmerged hchosen
      obtain ⟨c', hplain'⟩ := hchosen.plain
      rw [hplain'.ofText?_text, Option.map_some, Option.some.injEq, ← hchosen.marks_eq] at hmerged
      rw [← hmerged]
      exact hchosen
    · rw [hfirst.quote_eq]
      exact hmergeable.ownBodies hfirst.is_quote fun q hq => (hquotes q hq).trans hfirst.quote_eq
  refine ⟨codes, ?_⟩
  rw [hmerges.marks_eq]
  exact ⟨hmerges, hdata⟩

end Merge

/-! ## Main statement -/

/-- Literals that are one token each and together have a value. -/
def Spells (named : Text → Option Nat) (value : List Datum) (pieces : List Text) : Prop :=
  (∀ piece ∈ pieces, Cuts .string piece []) ∧ runValue? named pieces = some value

theorem spells_text {named : Text → Option Nat} {value : List Datum} {literals : List QuotedText}
    (hplain : ∀ q ∈ literals, ∃ c, q.IsPlain c)
    (hvalue : collect (QuotedText.value? named) literals = some value) :
    Spells named value (literals.map QuotedText.text) := by
  constructor
  · intro piece hpiece
    obtain ⟨q, hq, rfl⟩ := List.mem_map.mp hpiece
    obtain ⟨c, hc⟩ := hplain q hq
    exact hc.cuts
  · rw [runValue?, collect_map fun q hq => (hplain q hq).elim fun c hc => hc.plainValue?_text named]
    exact hvalue

/-- A merged literal cut into lines spells its value. -/
theorem Merges.spells_lines {named : Text → Option Nat} {codes : List Nat} {q : QuotedText}
    (h : Merges named q.marks codes q) (overhead available : Nat) :
    Spells named (dataOf q.marks codes)
      ((StringRun.fill overhead available [] (Text.splitAfter (· == ' ') q.body)).map fun body =>
        ({ q with body } : QuotedText).text) := by
  obtain ⟨c, hq⟩ := h.plain
  obtain ⟨hflatten, hblank⟩ := fill_lines overhead available []
    (endsInBlank_splitAfter q.body) fun _ => .inl rfl
  rw [List.nil_append, Text.flatten_splitAfter] at hflatten
  generalize StringRun.fill overhead available [] (Text.splitAfter (· == ' ') q.body) = parts at *
  have hbody := hq.is_body
  have hsevers := h.severs
  have hdecode := h.codes_eq
  rw [← hflatten] at hbody hsevers hdecode
  obtain ⟨hbodies, hcodes⟩ := collect_decode_of_flatten hblank hbody hsevers hdecode
  let literals : List QuotedText := parts.map fun body => { q with body }
  have hplain : ∀ l ∈ literals, ∃ c, l.IsPlain c := by
    intro l hl
    obtain ⟨part, hpart, rfl⟩ := List.mem_map.mp hl
    exact ⟨c, hq.marks_mem, hq.is_quote, hq.quote_eq, hbodies part hpart⟩
  have hvalue : collect (QuotedText.value? named) literals = some (dataOf q.marks codes) := by
    rw [collect_map (f := QuotedText.value? named) fun _ _ => rfl, ← Option.map_some, ← hcodes]
    exact (collect_dataOf q.marks _ parts).symm
  have hspells := spells_text hplain hvalue
  rwa [List.map_map] at hspells

theorem exists_literals {named : Text → Option Nat} {texts : List Text} {value : List Datum}
    (h : Spells named value texts) :
    ∃ literals : List QuotedText, texts = literals.map QuotedText.text ∧
      (∀ q ∈ literals, ∃ c, q.IsPlain c) ∧
      collect (QuotedText.value? named) literals = some value := by
  obtain ⟨hcuts, hvalue⟩ := h
  have hplain : ∀ text ∈ texts, ∃ q c, QuotedText.IsPlain q c ∧ q.text = text := by
    intro text htext
    obtain ⟨part, hpart⟩ := isSome_of_collect hvalue text htext
    exact exists_isPlain_of_cuts (hcuts text htext) hpart
  obtain ⟨literals, hliterals, rfl⟩ : ∃ literals : List QuotedText,
      (∀ q ∈ literals, ∃ c, q.IsPlain c) ∧ literals.map QuotedText.text = texts := by
    clear hvalue hcuts
    induction texts with
    | nil => exact ⟨[], by simp, rfl⟩
    | cons text texts ih =>
        obtain ⟨q, c, hq, htext⟩ := hplain text (by simp)
        obtain ⟨literals, hliterals, hrest⟩ := ih fun t ht => hplain t (by simp [ht])
        refine ⟨q :: literals, ?_, by rw [List.map_cons, htext, hrest]⟩
        intro q' hq'
        rcases List.mem_cons.mp hq' with rfl | hq'
        · exact ⟨c, hq⟩
        · exact hliterals q' hq'
  refine ⟨literals, rfl, hliterals, ?_⟩
  rw [← hvalue, runValue?]
  exact (collect_map fun q hq => (hliterals q hq).elim fun c hc => hc.plainValue?_text named).symm

theorem spells_normalizeLiteral {named : Text → Option Nat} (style : Style) {texts : List Text}
    (hsame : ∀ text ∈ texts, Cuts .string (normalizeLiteral style text) [] ∧
      plainValue? named (normalizeLiteral style text) = plainValue? named text)
    {value : List Datum} (hvalue : runValue? named texts = some value) :
    Spells named value (texts.map (normalizeLiteral style)) := by
  constructor
  · intro piece hpiece
    obtain ⟨text, htext, rfl⟩ := List.mem_map.mp hpiece
    exact (hsame text htext).1
  · rw [runValue?, collect_map fun text htext => (hsame text htext).2]
    exact hvalue

/-- Printing keeps the values of plain literals. Tokens that are string literals with plain marks,
single quotes and valid escapes are spelled as tokens with the same value by themselves, as one run on
a line and as a run on lines of any width. -/
theorem stringRun_spells_value (named : Text → Option Nat) (style : Style) {texts : List Text}
    (htexts : ∀ text ∈ texts, Cuts .string text []) {value : List Datum}
    (hvalue : runValue? named texts = some value) :
    (∀ text ∈ texts, Cuts .string (normalizeLiteral style text) [] ∧
      plainValue? named (normalizeLiteral style text) = plainValue? named text) ∧
    (∃ pieces, (StringRun.ofTexts style texts).flat = List.intercalate [' '] pieces ∧
      Spells named value pieces) ∧
    ∀ available, Spells named value ((StringRun.ofTexts style texts).lines available) := by
  obtain ⟨literals, rfl, hplain, hvalues⟩ := exists_literals ⟨htexts, hvalue⟩
  have hsame : ∀ text ∈ literals.map QuotedText.text,
      Cuts .string (normalizeLiteral style text) [] ∧
        plainValue? named (normalizeLiteral style text) = plainValue? named text := by
    intro text htext
    obtain ⟨q, hq, rfl⟩ := List.mem_map.mp htext
    obtain ⟨c, hc⟩ := hplain q hq
    obtain ⟨q', c', hq', htext', hvalue'⟩ := exists_isPlain_normalizeLiteral hc named style
    rw [htext', hq'.plainValue?_text, hc.plainValue?_text]
    exact ⟨hq'.cuts, hvalue'⟩
  have hpieces := spells_normalizeLiteral style hsame hvalue
  refine ⟨hsame, ?_⟩
  cases hmerged : mergeLiterals? style (literals.map QuotedText.text) with
  | none =>
      simp only [StringRun.ofTexts, StringRun.flat, StringRun.lines, hmerged]
      exact ⟨⟨_, rfl, hpieces⟩, fun _ => hpieces⟩
  | some merged =>
      obtain ⟨codes, hmerges, rfl⟩ := merges_of_mergeLiterals? hplain hvalues hmerged
      obtain ⟨c, hc⟩ := hmerges.plain
      have hone : Spells named (dataOf merged.marks codes) [merged.text] := by
        have hplain : ∀ q ∈ [merged], ∃ c, QuotedText.IsPlain q c := by simpa using ⟨c, hc⟩
        apply spells_text hplain
        rw [collect_cons, collect_nil, QuotedText.value?, bodyValue?, hmerges.codes_eq]
        simp
      simp only [StringRun.ofTexts, StringRun.flat, StringRun.lines, hmerged]
      refine ⟨⟨[merged.text], by simp [List.intercalate], hone⟩, ?_⟩
      intro available
      exact hmerges.spells_lines _ available

/-- Literals with either quote and escapes of all kinds. The last one cannot be merged. -/
def escapedLiterals : List Text :=
  ["'it\\'s \"x\" '".toList, "u\"\\x41\\\\\\\" \\u00e9\\\r\n\"".toList,
    "'\\N\x7bBULLET\x7d \\101\\''".toList]

def bulletTable (name : Text) : Option Nat := if name = "BULLET".toList then some 0x2022 else none

theorem stringRun_spells_value_escapedLiterals :
    (∀ available, Spells bulletTable ("it's \"x\" A\\\" é".toList.map (Datum.point ·.toNat))
      ((StringRun.ofTexts {} (escapedLiterals.take 2)).lines available)) ∧
    ∃ pieces, (StringRun.ofTexts {} escapedLiterals).flat = List.intercalate [' '] pieces ∧
      Spells bulletTable ("it's \"x\" A\\\" é• A'".toList.map (Datum.point ·.toNat)) pieces := by
  have hscan : ∀ text ∈ escapedLiterals, text.head?.map (fun c =>
      (scan false .start c text.tail).toOption) = some (some (.token .string, text.tail.length)) := by
    decide +kernel
  have hcuts : ∀ text ∈ escapedLiterals, Cuts .string text [] := by
    intro text htext
    obtain ⟨c, hc, hread⟩ := Option.map_eq_some_iff.mp (hscan text htext)
    obtain ⟨cs, rfl⟩ := List.head?_eq_some_iff.mp hc
    cases hok : scan false .start c cs with
    | error e => simp [hok, Except.toOption] at hread
    | ok pair =>
        obtain rfl : pair = (.token .string, cs.length) := by simpa [hok, Except.toOption] using hread
        simpa using cuts_of_scan hok (by decide)
  constructor
  · exact (stringRun_spells_value bulletTable {} (fun text htext => hcuts text (List.mem_of_mem_take htext))
      (by decide +kernel)).2.2
  · exact (stringRun_spells_value bulletTable {} hcuts (by decide +kernel)).2.1

end SchemaTidy
