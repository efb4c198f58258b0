import SchemaTidy.Proofs.Literal.Kept
import SchemaTidy.Proofs.Literal.Parts

/-!
# Lines that are read again

The lines of a run are literals, so they can be merged again. They become the first run again if the
merged literal passes the check that each of the literals has passed. It need not pass it: a
backslash at the end of one literal and a digit at the start of the next one look like an escape in
the merged body, and the lines of such a body stay apart.
-/

namespace SchemaTidy

open Lexeme

theorem mapM_cons_eq_some {α β : Type} {f : α → Option β} {x : α} {xs : List α} {ys : List β}
    (h : (x :: xs).mapM f = some ys) :
    ∃ y rest, ys = y :: rest ∧ f x = some y ∧ xs.mapM f = some rest := by
  rw [List.mapM_cons] at h
  obtain ⟨y, hy, h⟩ := Option.bind_eq_some_iff.mp h
  obtain ⟨rest, hrest, h⟩ := Option.bind_eq_some_iff.mp h
  obtain rfl : y :: rest = ys := by simpa using h
  exact ⟨y, rest, rfl, hy, hrest⟩

theorem exists_of_mapM {α β : Type} {f : α → Option β} {xs : List α} {ys : List β}
    (h : xs.mapM f = some ys) : ∀ y ∈ ys, ∃ x ∈ xs, f x = some y := by
  induction xs generalizing ys with
  | nil =>
      obtain rfl : [] = ys := by simpa using h
      simp
  | cons x xs ih =>
      obtain ⟨y, rest, rfl, hy, hrest⟩ := mapM_cons_eq_some h
      intro z hz
      rcases List.mem_cons.mp hz with rfl | hz
      · exact ⟨x, by simp, hy⟩
      · obtain ⟨x', hx', hsome⟩ := ih hrest z hz
        exact ⟨x', by simp [hx'], hsome⟩

namespace QuotedText

variable {style : Style} {q : QuotedText} {c : Char}

/-! ## Merged literals -/

/-- A literal that is spelled like one that several have been merged into. With its body for double
quotes, the same quotes are chosen again. -/
structure Settled (style : Style) (q : QuotedText) (c : Char) : Prop where
  marks_mem : q.marks ∈ everyMarks
  marks_eq : q.styledMarks style = q.marks
  unformatted : isFormatted q.marks = false
  is_quote : isQuote c = true
  quote_eq : q.quote = [c]
  guarded : Guarded c q.body
  chosen : style.normalizeQuotes = true → chooseQuotes q style.preferFewerEscapes = q
  rechosen : style.normalizeQuotes = true → ∃ rule,
    (∀ body, ({ q with body } : QuotedText).doubleBody? q.marks = some (respell rule body)) ∧
      chooseQuotes ⟨q.marks, ['"'], respell rule q.body⟩ style.preferFewerEscapes = q

theorem Settled.is_quoted (h : q.Settled style c) : q.IsQuoted c false :=
  ⟨h.marks_mem, h.is_quote, h.quote_eq, fun _ => h.guarded.head?_ne (quote_facts h.is_quote).1⟩

/-- A spelling of a body for double quotes, without backslashes that it does not need. -/
structure Doubled (marks source body : Text) : Prop where
  spelled : Respelled ['"', '\''] source body
  guarded : Guarded '"' body
  is_body : isRaw marks = false → IsBody '"' body
  cleaned : isRaw marks = false → respell (setEscape '\'' false) body = body

theorem Doubled.append {marks source body source' body' : Text} (h : Doubled marks source body)
    (hclosed : closed source = true) (h' : Doubled marks source' body') :
    Doubled marks (source ++ source') (body ++ body') where
  spelled := h.spelled.append_of_closed areQuotes_both hclosed h'.spelled
  guarded := h.guarded.append h'.guarded
  is_body hraw := (h.is_body hraw).append (h'.is_body hraw)
  cleaned hraw := by
    rw [respell_append _ (h.is_body hraw).closed, h.cleaned hraw, h'.cleaned hraw]

theorem doubled_respell {marks source : Text} {rule : Char → Bool → Bool}
    (hbody : IsBody '"' (respell rule source)) (hrule : ∀ before, rule '\'' before = false) :
    Doubled marks source (respell rule source) :=
  ⟨respelled_respell rule source, hbody.guarded (by decide), fun _ => hbody,
    fun _ => respell_setEscape_respell hrule⟩

section DoubleBody

variable {marks : Text}

theorem doubleBody?_raw (hraw : isRaw marks = true) (hquote : q.quote = ['"']) :
    q.doubleBody? marks = some q.body := by
  simp [doubleBody?, hquote, hraw]

theorem doubleBody?_raw_single (hraw : isRaw marks = true) (hquote : q.quote = ['\''])
    {body : Text} (h : q.doubleBody? marks = some body) : body = q.body ∧ Guarded '"' q.body := by
  rw [doubleBody?, if_neg (by simp [hquote]), requote?, if_pos hraw] at h
  split at h
  · rename_i hcount
    obtain rfl : q.body = body := by simpa using h
    exact ⟨rfl, guarded_of_occurrences (by decide) (beq_iff_eq.mp hcount)⟩
  · cases h

/-- The literals that are merged: their quotes are single, and they are not formatted. -/
structure Joinable (q : QuotedText) (c : Char) : Prop where
  is_quoted : q.IsQuoted c false
  is_body : IsBody c q.body

theorem Joinable.doubled (h : q.Joinable c) {body : Text}
    (hbody : q.doubleBody? marks = some body) : Doubled marks q.body body := by
  have hquote : q.quote = [c] := h.is_quoted.quote_eq
  cases hraw : isRaw marks with
  | true =>
      obtain ⟨rfl, hguarded⟩ : body = q.body ∧ Guarded '"' q.body := by
        rcases isQuote_iff.mp h.is_quoted.is_quote with rfl | rfl
        · rw [doubleBody?_raw hraw hquote, Option.some.injEq] at hbody
          exact ⟨hbody.symm, h.is_body.guarded rfl⟩
        · exact doubleBody?_raw_single hraw hquote hbody
      exact ⟨.refl _ _, hguarded, by simp [hraw], by simp [hraw]⟩
  | false =>
      rcases isQuote_iff.mp h.is_quoted.is_quote with rfl | rfl
      · rw [doubleBody?_double hraw hquote, Option.some.injEq] at hbody
        subst hbody
        exact doubled_respell (isBody_cleaned rfl (by decide) h.is_body) fun _ => rfl
      · rw [doubleBody?_single hraw hquote, Option.some.injEq] at hbody
        subst hbody
        exact doubled_respell (isBody_converted rfl h.is_body) fun _ => rfl

theorem doubled_of_mapM {literals : List QuotedText} (hliterals : ∀ l ∈ literals, ∃ c, l.Joinable c)
    {bodies : List Text} (h : literals.mapM (·.doubleBody? marks) = some bodies) :
    Doubled marks (literals.flatMap (·.body)) bodies.flatten := by
  induction literals generalizing bodies with
  | nil =>
      obtain rfl : [] = bodies := by simpa using h
      exact ⟨.nil, .nil, fun _ => .nil, fun _ => rfl⟩
  | cons l literals ih =>
      obtain ⟨body, rest, rfl, hbody, hrest⟩ := mapM_cons_eq_some h
      rw [List.forall_mem_cons] at hliterals
      obtain ⟨c, hc⟩ := hliterals.1
      rw [List.flatMap_cons, List.flatten_cons]
      exact (hc.doubled hbody).append hc.is_body.closed (ih hliterals.2 hrest)

end DoubleBody

/-! ## Choosing the quotes again -/

theorem prefersOther_asymm {preferFewer : Bool} {before after : Nat}
    (h : prefersOther preferFewer ['"'] before after = true) :
    prefersOther preferFewer ['\''] after before = false := by
  cases preferFewer with
  | false => cases h
  | true =>
      have hless : after < before := by simpa [prefersOther] using h
      simp only [prefersOther, if_true, Bool.or_eq_false_iff, decide_eq_false_iff_not,
        Bool.and_eq_false_imp, beq_iff_eq]
      omega

theorem Doubled.respell_back {marks source body : Text} (h : Doubled marks source body)
    (hraw : isRaw marks = false) :
    respell (requoteRule '\'' '"') (respell (requoteRule '"' '\'') body) = body := by
  have hrule : (fun c before => requoteRule '\'' '"' c (requoteRule '"' '\'' c before)) =
      fun c before => setEscape '\'' false c (setEscape '"' true c before) := by
    funext c before
    simp only [requoteRule, setEscape]
    by_cases hdouble : c = '"'
    · subst hdouble
      rfl
    · by_cases hsingle : c = '\''
      · subst hsingle
        rfl
      · simp [hdouble, hsingle]
  rw [respell_respell, hrule, ← respell_respell, respell_setEscape_of_isBody (h.is_body hraw),
    h.cleaned hraw]

section Choosing

variable {marks source body : Text}

theorem chooseQuotes_raw (hraw : isRaw marks = true) (body : Text) (preferFewer : Bool) :
    chooseQuotes ⟨marks, ['"'], body⟩ preferFewer = ⟨marks, ['"'], body⟩ := by
  have hkept (n : Nat) : prefersOther preferFewer ['"'] n n = false := by
    cases preferFewer <;> simp [prefersOther]
  have hother : otherQuote ['"'] = ['\''] := rfl
  rw [chooseQuotes, if_neg (by simp)]
  simp only [requote?, hraw, if_true, hother]
  split
  · rfl
  · rename_i cleaned converted hrequote
    split at hrequote
    · obtain ⟨rfl, rfl⟩ : body = cleaned ∧ body = converted := by simpa using hrequote
      simp [hkept]
    · cases hrequote

/-- What is known of marks that are chosen for several literals. -/
structure Chosen (style : Style) (marks : Text) : Prop where
  normalize : style.normalizeQuotes = true
  marks_mem : marks ∈ everyMarks
  marks_eq : normalizeMarks marks = marks
  unformatted : isFormatted marks = false

theorem Chosen.styledMarks_eq (h : Chosen style marks) (quote : Text) :
    styledMarks style ⟨marks, quote, body⟩ = marks := by
  rw [styledMarks, if_pos h.normalize, h.marks_eq]

theorem settled_kept (h : Chosen style marks) (hbody : Doubled marks source body)
    (hkept : chooseQuotes ⟨marks, ['"'], body⟩ style.preferFewerEscapes = ⟨marks, ['"'], body⟩) :
    Settled style ⟨marks, ['"'], body⟩ '"' := by
  refine ⟨h.marks_mem, h.styledMarks_eq _, h.unformatted, rfl, rfl, hbody.guarded,
    fun _ => hkept, fun _ => ?_⟩
  cases hraw : isRaw marks with
  | true =>
      refine ⟨fun _ before => before, fun body => ?_, ?_⟩
      · rw [doubleBody?_raw hraw rfl, respell_id]
      · rw [respell_id]
        exact hkept
  | false =>
      refine ⟨setEscape '\'' false, fun body => doubleBody?_double hraw rfl, ?_⟩
      rw [hbody.cleaned hraw]
      exact hkept

theorem settled_changed (h : Chosen style marks) (hbody : Doubled marks source body)
    (hraw : isRaw marks = false)
    (hprefers : prefersOther style.preferFewerEscapes ['"'] (body.count '\\')
      ((respell (requoteRule '"' '\'') body).count '\\') = true)
    (hchanged : chooseQuotes ⟨marks, ['"'], body⟩ style.preferFewerEscapes =
      ⟨marks, ['\''], respell (requoteRule '"' '\'') body⟩) :
    Settled style ⟨marks, ['\''], respell (requoteRule '"' '\'') body⟩ '\'' := by
  have hnew : isQuote '\'' = true := rfl
  have hsingle := isBody_converted hnew (hbody.is_body hraw)
  have hother : otherChar '\'' = '"' := rfl
  refine ⟨h.marks_mem, h.styledMarks_eq _, h.unformatted, rfl, rfl, hsingle.guarded rfl,
    fun _ => ?_, fun _ => ⟨requoteRule '\'' '"', fun body => doubleBody?_single hraw rfl, ?_⟩⟩
  · rw [chooseQuotes_single hraw h.unformatted rfl, hother, hbody.respell_back hraw,
      respell_setEscape_respell fun _ => rfl, prefersOther_asymm hprefers, if_neg (by simp)]
  · rw [hbody.respell_back hraw]
    exact hchanged

/-- Whichever quotes are chosen for a body for double quotes, they are settled. -/
theorem exists_settled_chooseQuotes (h : Chosen style marks) (hbody : Doubled marks source body) :
    ∃ q c, chooseQuotes ⟨marks, ['"'], body⟩ style.preferFewerEscapes = q ∧ q.marks = marks ∧
      q.Settled style c ∧ Respelled ['"', '\''] source q.body := by
  cases hraw : isRaw marks with
  | true =>
      have hkept := chooseQuotes_raw hraw body style.preferFewerEscapes
      exact ⟨_, '"', hkept, rfl, settled_kept h hbody hkept, hbody.spelled⟩
  | false =>
      have hchoose := chooseQuotes_single hraw h.unformatted (c := '"') rfl body
        style.preferFewerEscapes
      have hother : otherChar '"' = '\'' := rfl
      rw [hother, hbody.cleaned hraw] at hchoose
      split at hchoose
      · rename_i hprefers
        exact ⟨_, '\'', hchoose, rfl, settled_changed h hbody hraw hprefers hchoose,
          hbody.spelled.trans areQuotes_both (respelled_respell _ _)⟩
      · exact ⟨_, '"', hchoose, rfl, settled_kept h hbody hchoose, hbody.spelled⟩

end Choosing

theorem joinable_of_cuts {text marks : Text} (hcuts : Cuts .string text [])
    (hq : ofText? text = some q) (hjoins : q.joins style marks = true)
    (hformatted : isFormatted marks = false) : ∃ c, q.Joinable c := by
  obtain ⟨c, triple, hquoted, rfl⟩ := isQuoted_of_cuts hcuts hq
  rw [joins, Bool.and_eq_true, Bool.and_eq_true, Bool.and_eq_true, beq_iff_eq,
    Bool.not_eq_true'] at hjoins
  obtain rfl : triple = false := hquoted.isTriple_eq.symm.trans hjoins.1.1.2
  have hplain : isFormatted q.marks = false := by
    obtain ⟨-, -, -, hsame, -⟩ := everyMarks_facts _ hquoted.marks_mem
    rw [← hformatted, ← hjoins.1.1.1, styledMarks]
    split
    · exact hsame.symm
    · rfl
  obtain ⟨fs, o, hbody, hopen⟩ := hquoted.cuts_iff.mp hcuts
  obtain ⟨-, rfl⟩ := hquoted.cut_eq hbody
  rw [outline_of_plain hplain, hquoted.quote_eq] at hopen
  exact ⟨c, hquoted, isBody_iff_staysOpen.mpr hopen⟩

theorem normalizeMarks_idempotent : ∀ marks ∈ everyMarks,
    normalizeMarks (normalizeMarks marks) = normalizeMarks marks := by
  decide

/-- Bodies that are respelled for double quotes make a settled literal. -/
theorem exists_settled_of_doubleBodies {literals : List QuotedText}
    (hliterals : ∀ l ∈ literals, ∃ c, l.Joinable c) {marks : Text} (hmarks : Chosen style marks)
    {bodies : List Text} (hbodies : literals.mapM (·.doubleBody? marks) = some bodies)
    (h : (ofText? (chooseQuotes ⟨marks, ['"'], bodies.flatten⟩ style.preferFewerEscapes).text).map
      (fun q => { q with marks }) = some q) :
    ∃ c, q.Settled style c ∧ Respelled ['"', '\''] (literals.flatMap (·.body)) q.body := by
  obtain ⟨chosen, c, hchosen, rfl, hsettled, hspelled⟩ :=
    exists_settled_chooseQuotes hmarks (doubled_of_mapM hliterals hbodies)
  rw [hchosen, hsettled.is_quoted.ofText?_text, Option.map_some, Option.some.injEq] at h
  exact ⟨c, h ▸ hsettled, h ▸ hspelled⟩

/-- Bodies between the same quotes make a settled literal if no quotes are chosen. -/
theorem settled_of_ownBodies (hstyle : style.normalizeQuotes = false) {first : QuotedText}
    (hfirst : first.Joinable c) (hformatted : isFormatted first.marks = false)
    {literals : List QuotedText} (hliterals : ∀ l ∈ literals, ∃ c, l.Joinable c)
    (hquotes : ∀ l ∈ literals, l.quote = first.quote) :
    Settled style ⟨first.marks, first.quote, literals.flatMap (·.body)⟩ c where
  marks_mem := hfirst.is_quoted.marks_mem
  marks_eq := by simp [styledMarks, hstyle]
  unformatted := hformatted
  is_quote := hfirst.is_quoted.is_quote
  quote_eq := hfirst.is_quoted.quote_eq
  guarded := by
    rw [List.flatMap_def]
    refine .flatten fun body hbody => ?_
    obtain ⟨l, hl, rfl⟩ := List.mem_map.mp hbody
    obtain ⟨c', hc'⟩ := hliterals l hl
    have hsame := hc'.is_quoted.quote_eq.symm.trans
      ((hquotes l hl).trans hfirst.is_quoted.quote_eq)
    obtain rfl : c' = c := by simpa [quotesOf] using hsame
    exact hc'.is_body.guarded hc'.is_quoted.is_quote
  chosen hnormalize := absurd (hstyle.symm.trans hnormalize) (by simp)
  rechosen hnormalize := absurd (hstyle.symm.trans hnormalize) (by simp)

/-- What is known of the literal that several are merged into. -/
structure MergedFrom (style : Style) (literals : List QuotedText) (q : QuotedText) (c : Char) :
    Prop where
  settled : q.Settled style c
  spelled : Respelled ['"', '\''] (literals.flatMap (·.body)) q.body
  checked : ∀ l ∈ literals, extendable l.body = false

theorem extendable_of_joins {marks : Text} (h : q.joins style marks = true) :
    extendable q.body = false := by
  rw [joins, Bool.and_eq_true, Bool.and_eq_true, Bool.not_eq_true', Bool.not_eq_true'] at h
  rw [extendable, h.1.2, h.2]
  rfl

theorem exists_mergedFrom {texts : List Text} (htexts : ∀ text ∈ texts, Cuts .string text [])
    (h : mergeLiterals? style texts = some q) :
    style.wrapStrings = true ∧
      ∃ literals c, texts.mapM ofText? = some literals ∧ MergedFrom style literals q c := by
  obtain ⟨hwrap, first, others, hliterals, hjoins, hformatted, hcases⟩ := mergeLiterals?_cases h
  refine ⟨hwrap, first :: others, ?_⟩
  have hjoinable : ∀ l ∈ first :: others, ∃ c, l.Joinable c := by
    intro l hl
    obtain ⟨text, htext, hcut⟩ := exists_of_mapM hliterals l hl
    exact joinable_of_cuts (htexts text htext) hcut (hjoins l hl) hformatted
  have hchecked : ∀ l ∈ first :: others, extendable l.body = false :=
    fun l hl => extendable_of_joins (hjoins l hl)
  obtain ⟨c, hfirst⟩ := hjoinable first (by simp)
  have hmem := hfirst.is_quoted.marks_mem
  rcases hcases with ⟨hstyle, bodies, hbodies, hmerged⟩ | ⟨hstyle, hquotes, rfl⟩
  · have hmarks : first.styledMarks style = normalizeMarks first.marks := if_pos hstyle
    rw [hmarks] at hmerged hbodies hformatted
    obtain ⟨c', hsettled, hspelled⟩ := exists_settled_of_doubleBodies hjoinable
      ⟨hstyle, (everyMarks_facts _ hmem).2.1, normalizeMarks_idempotent _ hmem, hformatted⟩ hbodies
      hmerged
    exact ⟨c', hliterals, hsettled, hspelled, hchecked⟩
  · have hmarks : first.styledMarks style = first.marks := if_neg (by simp [hstyle])
    rw [hmarks] at hformatted ⊢
    exact ⟨c, hliterals, settled_of_ownBodies hstyle hfirst hformatted hjoinable hquotes, .refl _ _,
      hchecked⟩

/-! ## Merging the lines -/

namespace Settled

theorem parts (h : q.Settled style c) {parts : List Text} (hbody : parts.flatten = q.body)
    (hblank : ∀ part ∈ parts.dropLast, EndsInBlank part) :
    ∀ part ∈ parts, ({ q with body := part } : QuotedText).IsQuoted c false := by
  intro part hpart
  have hguarded := Guarded.of_flatten (hbody ▸ h.guarded) hblank part hpart
  exact ⟨h.marks_mem, h.is_quote, h.quote_eq,
    fun _ => hguarded.head?_ne (quote_facts h.is_quote).1⟩

theorem joins_eq (h : q.Settled style c) (body : Text) :
    ({ q with body } : QuotedText).joins style q.marks = !extendable body := by
  have hmarks : ({ q with body } : QuotedText).styledMarks style = q.marks := h.marks_eq
  have htriple : ({ q with body } : QuotedText).isTriple = false := by
    rw [isTriple, h.quote_eq]
    rfl
  rw [joins, hmarks, htriple, extendable]
  simp

theorem doubleBodies_parts (h : q.Settled style c) (hstyle : style.normalizeQuotes = true)
    {parts : List Text} (hbody : parts.flatten = q.body)
    (hblank : ∀ part ∈ parts.dropLast, EndsInBlank part) :
    ∃ bodies, (parts.map fun body => { q with body }).mapM (doubleBody? q.marks) = some bodies ∧
      chooseQuotes ⟨q.marks, ['"'], bodies.flatten⟩ style.preferFewerEscapes = q := by
  obtain ⟨rule, hdouble, hchosen⟩ := h.rechosen hstyle
  refine ⟨parts.map (respell rule), mapM_map_eq_some fun part _ => hdouble part, ?_⟩
  rw [← respell_flatten rule fun part hpart => (hblank part hpart).closed, hbody]
  exact hchosen

/-- The parts of a settled literal are merged into it, unless it holds what looks like an escape that
a longer text could extend. -/
theorem mergeLiterals?_parts (h : q.Settled style c) (hwrap : style.wrapStrings = true)
    {parts : List Text} (hne : parts ≠ []) (hbody : parts.flatten = q.body)
    (hblank : ∀ part ∈ parts.dropLast, EndsInBlank part) :
    mergeLiterals? style (parts.map fun body => ({ q with body } : QuotedText).text) =
      if q.joins style q.marks then some q else none := by
  have hcut : (parts.map fun body => ({ q with body } : QuotedText).text).mapM ofText? =
      some (parts.map fun body => { q with body }) :=
    mapM_map_eq_some fun part hpart => (h.parts hbody hblank part hpart).ofText?_text
  have hjoins : (parts.map fun body => { q with body }).all (joins style q.marks) =
      q.joins style q.marks := by
    have hwhole : q.joins style q.marks = !extendable q.body := h.joins_eq q.body
    rw [hwhole, ← hbody, extendable_flatten hblank, List.all_map, List.not_any_eq_all_not]
    congr 1
    funext part
    exact h.joins_eq part
  obtain ⟨first, others, rfl⟩ := List.exists_cons_of_ne_nil hne
  have hmarks : ({ q with body := first } : QuotedText).styledMarks style = q.marks := h.marks_eq
  rw [List.map_cons] at hcut hjoins
  rw [mergeLiterals?, hwrap, List.map_cons, hcut]
  simp only [List.map_cons, hmarks, hjoins, h.unformatted, Bool.not_true, Bool.or_false,
    Bool.false_eq_true, if_false]
  cases hcheck : q.joins style q.marks with
  | false => simp
  | true =>
      rw [Bool.not_true, if_neg (by simp), if_pos rfl]
      split
      · rename_i hstyle
        obtain ⟨bodies, hbodies, hchosen⟩ := h.doubleBodies_parts hstyle hbody hblank
        rw [List.map_cons] at hbodies
        rw [hbodies]
        simp only [hchosen, h.is_quoted.ofText?_text, Option.map_some]
      · have hbodies : ({ q with body := first } : QuotedText).body ++
            (others.map fun body => ({ q with body } : QuotedText)).flatMap (·.body) = q.body := by
          rw [← hbody]
          simp [List.flatMap_def, Function.comp_def]
        rw [if_pos (by simp), List.flatMap_cons, hbodies]

theorem normalizeLiteral_text (h : q.Settled style c) : normalizeLiteral style q.text = q.text := by
  rw [h.is_quoted.normalizeLiteral_text, usual]
  split
  · rename_i hstyle
    have hmarks : normalizeMarks q.marks = q.marks := by
      have hstyled := h.marks_eq
      rwa [styledMarks, if_pos hstyle] at hstyled
    rw [hmarks, h.chosen hstyle]
  · rfl

end Settled

theorem length_intercalate_parts (q : QuotedText) (hquote : q.quote.length = 1) {parts : List Text}
    (hne : parts ≠ []) :
    (List.intercalate [' '] (parts.map fun body => ({ q with body } : QuotedText).text)).length + 1 =
      parts.flatten.length + parts.length * (q.marks.length + 3) := by
  have htext (body : Text) :
      ({ q with body } : QuotedText).text.length = q.marks.length + body.length + 2 := by
    simp only [QuotedText.text, List.length_append, hquote]
    omega
  induction parts with
  | nil => exact absurd rfl hne
  | cons part parts ih =>
      cases parts with
      | nil =>
          simp only [List.map_cons, List.map_nil, List.intercalate_singleton, htext,
            List.flatten_cons, List.flatten_nil, List.append_nil, List.length_cons, List.length_nil]
          omega
      | cons next parts =>
          have hrest := ih (by simp)
          simp only [List.map_cons, List.intercalate_cons_cons, List.length_append, htext,
            List.flatten_cons, List.length_cons, List.length_nil, Nat.add_mul, Nat.one_mul] at hrest ⊢
          omega

/-- Parts that stay apart are no run on one line again, unless there is only one. -/
theorem Settled.apart_iff (h : q.Settled style c) {parts : List Text} (hne : parts ≠ [])
    (hbody : parts.flatten = q.body) {lines : List Text}
    (hlines : lines = parts.map fun body => ({ q with body } : QuotedText).text) :
    (List.intercalate [' '] (lines.map (normalizeLiteral style)) = q.text ∧
      lines.map (normalizeLiteral style) = lines) ↔ lines.length = 1 := by
  have hcount : lines.length = parts.length := by rw [hlines, List.length_map]
  have hquote : q.quote.length = 1 := by simp [h.quote_eq]
  constructor
  · rintro ⟨hflat, hsame⟩
    have hlength := q.length_intercalate_parts hquote hne
    have htext : q.text.length = q.marks.length + q.body.length + 2 := by
      simp only [QuotedText.text, List.length_append, hquote]
      omega
    rw [← hlines, ← hsame, hflat, htext, hbody] at hlength
    have hmul : parts.length * (q.marks.length + 3) = 1 * (q.marks.length + 3) := by omega
    exact hcount.trans (Nat.eq_of_mul_eq_mul_right (by omega) hmul)
  · intro hone
    obtain ⟨part, rfl⟩ := List.length_eq_one_iff.mp (hcount.symm.trans hone)
    have hpart : part = q.body := by simpa using hbody
    have hline : lines = [q.text] := by rw [hlines, hpart, List.map_singleton]
    rw [hline, List.map_singleton, h.normalizeLiteral_text, List.intercalate_singleton]
    exact ⟨rfl, rfl⟩

end QuotedText

/-! ## Runs -/

namespace StringRun

variable {style : Style} {texts : List Text} {q : QuotedText}

def rewrapped (style : Style) (r : StringRun) (available : Nat) : StringRun :=
  .ofTexts style (r.lines available)

theorem flat_lines_of_merged {r r' : StringRun} (h : r.merged = some q) (h' : r'.merged = some q)
    (available : Nat) : r.flat = r'.flat ∧ r.lines available = r'.lines available := by
  simp only [flat, lines, h, h', and_self]

theorem exists_parts (hmerged : (ofTexts style texts).merged = some q) (available : Nat) :
    ∃ parts, (ofTexts style texts).lines available =
        parts.map (fun body => ({ q with body } : QuotedText).text) ∧
      parts ≠ [] ∧ parts.flatten = q.body ∧ ∀ part ∈ parts.dropLast, EndsInBlank part := by
  obtain ⟨hflatten, hblank⟩ := fill_lines (Text.width q.marks + 2 * q.quote.length) available []
    (endsInBlank_splitAfter q.body) fun _ => .inl rfl
  rw [List.nil_append, Text.flatten_splitAfter] at hflatten
  refine ⟨_, ?_, fill_ne_nil _ _ _ _, hflatten, hblank⟩
  simp only [lines, hmerged]

/-- The lines are merged again if the merged literal passes the check. -/
theorem merged_rewrapped (htexts : ∀ text ∈ texts, Cuts .string text [])
    (hmerged : (ofTexts style texts).merged = some q) (available : Nat) :
    ((ofTexts style texts).rewrapped style available).merged =
      if q.joins style q.marks then some q else none := by
  obtain ⟨hwrap, literals, c, -, hfrom⟩ := QuotedText.exists_mergedFrom htexts hmerged
  obtain ⟨parts, hlines, hne, hbody, hblank⟩ := exists_parts hmerged available
  rw [← hfrom.settled.mergeLiterals?_parts hwrap hne hbody hblank, ← hlines]
  rfl

/-- The merged literal passes the check exactly if the bodies do when they stand one behind the
other, so what looks like an escape in it goes over a joint. -/
theorem joins_merged (htexts : ∀ text ∈ texts, Cuts .string text [])
    (hmerged : (ofTexts style texts).merged = some q) :
    ∃ literals, texts.mapM QuotedText.ofText? = some literals ∧
      (∀ l ∈ literals, extendable l.body = false) ∧
      q.joins style q.marks = !extendable (literals.flatMap (·.body)) := by
  obtain ⟨-, literals, c, hcut, hfrom⟩ := QuotedText.exists_mergedFrom htexts hmerged
  refine ⟨literals, hcut, hfrom.checked, ?_⟩
  rw [← hfrom.spelled.extendable_eq areQuotes_both]
  exact hfrom.settled.joins_eq q.body

theorem rewrapped_single {text : Text} (htext : Cuts .string text [])
    (hmerged : (ofTexts style [text]).merged = some q) (available : Nat) :
    ((ofTexts style [text]).rewrapped style available).flat = (ofTexts style [text]).flat ∧
      ((ofTexts style [text]).rewrapped style available).lines available =
        (ofTexts style [text]).lines available := by
  have htexts : ∀ t ∈ [text], Cuts .string t [] := by simpa using htext
  obtain ⟨literals, hcut, hchecked, hjoins⟩ := joins_merged htexts hmerged
  obtain ⟨l, rest, rfl, -, hrest⟩ := mapM_cons_eq_some hcut
  obtain rfl : [] = rest := by simpa using hrest
  have hjoins : q.joins style q.marks = true := by
    rw [hjoins, List.flatMap_singleton, hchecked l (by simp)]
    rfl
  have hagain := merged_rewrapped htexts hmerged available
  rw [hjoins, if_pos rfl] at hagain
  exact flat_lines_of_merged hagain hmerged available

end StringRun

/-- The lines of a merged literal are read as the same run, on one line and on lines of the same
width, exactly if the merged literal passes the check that the literals have passed or takes one line
only. -/
theorem stringRun_rewrapped (style : Style) {texts : List Text}
    (htexts : ∀ text ∈ texts, Cuts .string text []) {q : QuotedText}
    (hmerged : (StringRun.ofTexts style texts).merged = some q) (available : Nat) :
    (((StringRun.ofTexts style texts).rewrapped style available).flat =
          (StringRun.ofTexts style texts).flat ∧
        ((StringRun.ofTexts style texts).rewrapped style available).lines available =
          (StringRun.ofTexts style texts).lines available) ↔
      q.joins style q.marks = true ∨
        ((StringRun.ofTexts style texts).lines available).length = 1 := by
  obtain ⟨-, literals, c, -, hfrom⟩ := QuotedText.exists_mergedFrom htexts hmerged
  obtain ⟨parts, hlines, hne, hbody, hblank⟩ := StringRun.exists_parts hmerged available
  have hagain := StringRun.merged_rewrapped htexts hmerged available
  cases hcheck : q.joins style q.marks with
  | true =>
      rw [hcheck, if_pos rfl] at hagain
      exact iff_of_true (StringRun.flat_lines_of_merged hagain hmerged available) (.inl rfl)
  | false =>
      rw [hcheck, if_neg (by simp)] at hagain
      have hflat : (StringRun.ofTexts style texts).flat = q.text := by
        simp only [StringRun.flat, hmerged]
      have hpieces : ((StringRun.ofTexts style texts).rewrapped style available).pieces =
          ((StringRun.ofTexts style texts).lines available).map (normalizeLiteral style) := rfl
      rw [StringRun.flat, StringRun.lines, hagain, hpieces, hflat,
        hfrom.settled.apart_iff hne hbody hlines]
      simp

/-- Literals with both quotes, for which single quotes are chosen. -/
def quotingLiterals : List Text := ["\"it's \"".toList, "'a \"quoted\" text'".toList]

/-- A literal that ends in a backslash, before one that starts with a digit. -/
def digitBehindBackslash : List Text := ["'a\\\\'".toList, "'1 b'".toList]

theorem stringRun_rewrapped_quotingLiterals :
    (((StringRun.ofTexts {} quotingLiterals).rewrapped {} 14).flat =
          (StringRun.ofTexts {} quotingLiterals).flat ∧
        ((StringRun.ofTexts {} quotingLiterals).rewrapped {} 14).lines 14 =
          (StringRun.ofTexts {} quotingLiterals).lines 14) ∧
      ¬ (((StringRun.ofTexts {} digitBehindBackslash).rewrapped {} 6).flat =
            (StringRun.ofTexts {} digitBehindBackslash).flat ∧
          ((StringRun.ofTexts {} digitBehindBackslash).rewrapped {} 6).lines 6 =
            (StringRun.ofTexts {} digitBehindBackslash).lines 6) := by
  constructor
  · have hcuts : ∀ text ∈ quotingLiterals, Cuts .string text [] := by
      intro text htext
      simp only [quotingLiterals, List.mem_cons, List.not_mem_nil, or_false] at htext
      rcases htext with rfl | rfl <;> exact cuts_of_scan_all (by decide +kernel)
    have hmerged : (StringRun.ofTexts {} quotingLiterals).merged =
        some ⟨[], ['\''], "it\\'s a \"quoted\" text".toList⟩ := by
      decide +kernel
    exact (stringRun_rewrapped {} hcuts hmerged 14).mpr (.inl (by decide +kernel))
  · have hcuts : ∀ text ∈ digitBehindBackslash, Cuts .string text [] := by
      intro text htext
      simp only [digitBehindBackslash, List.mem_cons, List.not_mem_nil, or_false] at htext
      rcases htext with rfl | rfl <;> exact cuts_of_scan_all (by decide +kernel)
    have hmerged : (StringRun.ofTexts {} digitBehindBackslash).merged =
        some ⟨[], ['"'], "a\\\\1 b".toList⟩ := by
      decide +kernel
    intro hstable
    have hslip := (stringRun_rewrapped {} hcuts hmerged 6).mp hstable
    revert hslip
    decide +kernel

end SchemaTidy
