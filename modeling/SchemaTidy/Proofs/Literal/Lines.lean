import Mathlib.Algebra.GroupWithZero.Nat
import Mathlib.Data.List.TakeWhile
import SchemaTidy.Proofs.Literal.Rewrapped
import SchemaTidy.Proofs.Token.Comments

/-!
# Lines of a merged literal

A merged literal is cut into lines greedily. Together the lines are its body, no line is wider than what
is available unless it holds a single word, and none could also take the word that begins the next line.
All this holds for any columns of the characters as long as a quote takes one.
-/

namespace SchemaTidy

/-! ## Columns -/

namespace Text

/-- Columns of a text, given those of a character, with a tab stop at every multiple of eight. -/
def columns (w : Char → Nat) (t : Text) : Nat :=
  t.foldl (fun n c => if c == '\t' then (n / 8 + 1) * 8 else n + w c) 0

theorem width_eq_columns (t : Text) : width t = columns charWidth t := rfl

theorem foldl_columns (w : Char → Nat) {t : Text} (ht : '\t' ∉ t) (n : Nat) :
    t.foldl (fun n c => if c == '\t' then (n / 8 + 1) * 8 else n + w c) n = n + (t.map w).sum := by
  induction t generalizing n with
  | nil => rfl
  | cons c t ih =>
      simp only [List.mem_cons, not_or] at ht
      have hc : (c == '\t') = false := by simp [Ne.symm ht.1]
      rw [List.foldl_cons, ih ht.2, hc, List.map_cons, List.sum_cons]
      simp only [Bool.false_eq_true, if_false]
      omega

theorem columns_append (w : Char → Nat) (a : Text) {b : Text} (hb : '\t' ∉ b) :
    columns w (a ++ b) = columns w a + columns w b := by
  have hsum : columns w b = (b.map w).sum := by
    rw [columns, foldl_columns w hb, Nat.zero_add]
  rw [hsum, columns, List.foldl_append, foldl_columns w hb]
  rfl

theorem columns_quotes {w : Char → Nat} (hw : ∀ c, isQuote c = true → w c = 1) {quote : Text}
    (hquote : ∀ c ∈ quote, isQuote c = true) : '\t' ∉ quote ∧ columns w quote = quote.length := by
  have htab : '\t' ∉ quote := by
    intro hmem
    have hc := hquote '\t' hmem
    cases hc
  refine ⟨htab, ?_⟩
  have hones : quote.map w = List.replicate quote.length 1 := by
    apply List.eq_replicate_iff.mpr
    constructor
    · simp
    · intro n hn
      obtain ⟨c, hc, rfl⟩ := List.mem_map.mp hn
      exact hw c (hquote c hc)
  rw [columns, foldl_columns w htab, hones]
  simp

end Text

/-! ## Words -/

/-- Whether a text has no blank but possibly its last character. -/
def IsSingleWord (t : Text) : Prop := ' ' ∉ t.dropLast

/-- The first word of a text and the blank behind it. -/
def firstWord (t : Text) : Text := t.takeWhile (· != ' ') ++ (t.dropWhile (· != ' ')).take 1

theorem isSingleWord_iff {t : Text} :
    IsSingleWord t ↔ ∃ row, (∀ c ∈ row, (c == ' ') = false) ∧ (t = row ∨ t = row ++ [' ']) := by
  constructor
  · intro ht
    by_cases hblank : EndsInBlank t
    · obtain ⟨row, rfl⟩ := List.getLast?_eq_some_iff.mp hblank
      refine ⟨row, ?_, .inr rfl⟩
      intro c hc
      rw [IsSingleWord, List.dropLast_concat] at ht
      simp only [beq_eq_false_iff_ne]
      intro hc'
      exact ht (hc' ▸ hc)
    · refine ⟨t, ?_, .inl rfl⟩
      intro c hc
      simp only [beq_eq_false_iff_ne]
      intro hc'
      subst hc'
      rcases List.eq_nil_or_concat' t with rfl | ⟨row, d, rfl⟩
      · cases hc
      · rw [IsSingleWord, List.dropLast_concat] at ht
        rcases List.mem_append.mp hc with hmem | hmem
        · exact ht hmem
        · apply hblank
          rw [EndsInBlank, List.getLast?_concat, List.mem_singleton.mp hmem]
  · rintro ⟨row, hrow, rfl | rfl⟩
    · intro hmem
      have hc := hrow ' ' (List.dropLast_subset _ hmem)
      cases hc
    · rw [IsSingleWord, List.dropLast_concat]
      intro hmem
      have hc := hrow ' ' hmem
      cases hc

theorem firstWord_append {word x : Text} (hword : IsSingleWord word)
    (hends : EndsInBlank word ∨ x = []) : firstWord (word ++ x) = word := by
  obtain ⟨row, hrow, rfl | rfl⟩ := isSingleWord_iff.mp hword
  · have hnil : x = [] := by
      apply hends.resolve_left
      intro hblank
      have hc := hrow ' ' hblank.mem
      cases hc
    have hall : ∀ c ∈ word, (c != ' ') = true := by
      intro c hc
      simp [bne, hrow c hc]
    rw [hnil, List.append_nil, firstWord, List.takeWhile_eq_self_iff.mpr hall,
      List.dropWhile_eq_nil_iff.mpr hall, List.take_nil, List.append_nil]
  · have hall : ∀ c ∈ row, (c != ' ') = true := by
      intro c hc
      simp [bne, hrow c hc]
    rw [firstWord, List.append_assoc, List.takeWhile_append_of_pos hall,
      List.dropWhile_append_of_pos hall]
    simp

theorem isSingleWord_splitAfter (t : Text) :
    ∀ word ∈ Text.splitAfter (· == ' ') t, IsSingleWord word := by
  induction t using Text.rows_induction (· == ' ') with
  | last row hrow =>
      intro word hmem
      by_cases hne : row = []
      · subst hne
        cases hmem
      · rw [Text.splitAfter_last hrow hne, List.mem_singleton] at hmem
        exact isSingleWord_iff.mpr ⟨row, hrow, .inl hmem⟩
  | cons row d t hrow hd ih =>
      intro word hmem
      obtain rfl : d = ' ' := by simpa using hd
      rw [Text.splitAfter_row hrow hd] at hmem
      rcases List.mem_cons.mp hmem with rfl | hmem
      · exact isSingleWord_iff.mpr ⟨row, hrow, .inr rfl⟩
      · exact ih word hmem

/-! ## Filling -/

namespace StringRun

def fillBy (w : Char → Nat) (overhead available : Nat) (line : Text) : List Text → List Text
  | [] => [line]
  | word :: words =>
      if !line.isEmpty && available < overhead + Text.columns w line + Text.columns w word then
        line :: fillBy w overhead available word words
      else fillBy w overhead available (line ++ word) words

def linesBy (w : Char → Nat) (r : StringRun) (available : Nat) : List Text :=
  match r.merged with
  | none => r.pieces
  | some q =>
      (fillBy w (Text.columns w q.marks + 2 * q.quote.length) available []
        (Text.splitAfter (· == ' ') q.body)).map fun body => ({ q with body } : QuotedText).text

theorem fill_eq_fillBy (overhead available : Nat) (line : Text) (words : List Text) :
    fill overhead available line words = fillBy Text.charWidth overhead available line words := by
  induction words generalizing line with
  | nil => rfl
  | cons word words ih => rw [fill, fillBy, ih, ih, Text.width_eq_columns, Text.width_eq_columns]

theorem lines_eq_linesBy (r : StringRun) (available : Nat) :
    r.lines available = r.linesBy Text.charWidth available := by
  unfold lines linesBy
  cases r.merged with
  | none => rfl
  | some q => simp only [fill_eq_fillBy, Text.width_eq_columns]

section Fill

variable {w : Char → Nat} {overhead available : Nat} {line : Text} {words : List Text}

/-- The line that is being filled begins the first line of the result. -/
theorem exists_fillBy_cons (w : Char → Nat) (overhead available : Nat) (line : Text)
    (words : List Text) :
    ∃ x rest, fillBy w overhead available line words = (line ++ x) :: rest ∧
      (words = [] → x = []) := by
  induction words generalizing line with
  | nil => exact ⟨[], [], by rw [fillBy, List.append_nil], fun _ => rfl⟩
  | cons word words ih =>
      rw [fillBy]
      split
      · exact ⟨[], _, by rw [List.append_nil], by simp⟩
      · obtain ⟨x, rest, hfill, -⟩ := ih (line ++ word)
        exact ⟨word ++ x, rest, by rw [hfill, List.append_assoc], by simp⟩

theorem flatten_fillBy (w : Char → Nat) (overhead available : Nat) (line : Text)
    (words : List Text) :
    (fillBy w overhead available line words).flatten = line ++ words.flatten := by
  induction words generalizing line with
  | nil => simp [fillBy]
  | cons word words ih =>
      rw [fillBy]
      split
      · rw [List.flatten_cons, ih, List.flatten_cons]
      · rw [ih, List.flatten_cons, List.append_assoc]

/-- A line is as wide as allowed, or it is a single word. A word that does not fit begins a line, so a
line gets its second word only if there is room for it. -/
theorem fits_fillBy (hwords : ∀ word ∈ words, IsSingleWord word ∧ '\t' ∉ word)
    (hline : overhead + Text.columns w line ≤ available ∨ IsSingleWord line) :
    ∀ l ∈ fillBy w overhead available line words,
      overhead + Text.columns w l ≤ available ∨ IsSingleWord l := by
  induction words generalizing line with
  | nil =>
      intro l hl
      rw [fillBy, List.mem_singleton] at hl
      rw [hl]
      exact hline
  | cons word words ih =>
      obtain ⟨⟨hsingle, htab⟩, hrest⟩ := List.forall_mem_cons.mp hwords
      intro l hl
      rw [fillBy] at hl
      split at hl
      · rcases List.mem_cons.mp hl with rfl | hl
        · exact hline
        · exact ih hrest (.inr hsingle) l hl
      · rename_i hroom
        apply ih hrest _ l hl
        by_cases hempty : line = []
        · right
          rw [hempty]
          exact hsingle
        · left
          have hfits : overhead + Text.columns w line + Text.columns w word ≤ available := by
            simpa [hempty] using hroom
          rw [Text.columns_append w line htab]
          omega

/-- No line has room for the first word of the next one. -/
theorem chain_fillBy (hwords : ∀ word ∈ words, IsSingleWord word ∧ '\t' ∉ word)
    (hblank : ∀ word ∈ words.dropLast, EndsInBlank word) :
    (fillBy w overhead available line words).IsChain fun l next =>
      available < overhead + Text.columns w (l ++ firstWord next) := by
  induction words generalizing line with
  | nil => simp [fillBy]
  | cons word words ih =>
      obtain ⟨⟨hsingle, htab⟩, hrest⟩ := List.forall_mem_cons.mp hwords
      have hblanks : ∀ u ∈ words.dropLast, EndsInBlank u := by
        intro u hu
        cases words with
        | nil => cases hu
        | cons next words =>
            apply hblank u
            rw [List.dropLast_cons_of_ne_nil (by simp)]
            exact List.mem_cons_of_mem _ hu
      rw [fillBy]
      split
      · rename_i hfull
        obtain ⟨x, rest, hfill, hlast⟩ := exists_fillBy_cons w overhead available word words
        have hchain : (fillBy w overhead available word words).IsChain _ := ih hrest hblanks
        rw [hfill] at hchain ⊢
        apply List.isChain_cons_cons.mpr
        refine ⟨?_, hchain⟩
        have hends : EndsInBlank word ∨ x = [] := by
          by_cases hnil : words = []
          · exact .inr (hlast hnil)
          · left
            apply hblank word
            rw [List.dropLast_cons_of_ne_nil hnil]
            exact List.mem_cons_self
        rw [firstWord_append hsingle hends, Text.columns_append w line htab]
        simp only [Bool.and_eq_true, decide_eq_true_eq] at hfull
        omega
      · exact ih hrest hblanks

end Fill

/-! ## Literals -/

theorem isQuote_of_ofText? {text : Text} {q : QuotedText} (h : QuotedText.ofText? text = some q) :
    ∀ c ∈ q.quote, isQuote c = true := by
  have hquote : q.quote = (text.dropWhile (!isQuote ·)).take
      (if startsTriple (text.dropWhile (!isQuote ·)) then 3 else 1) := by
    simp only [QuotedText.ofText?, Option.ite_none_left_eq_some, Option.some.injEq] at h
    rw [← h.2]
  have hhead := List.head?_dropWhile_not (!isQuote ·) text
  rw [hquote]
  generalize text.dropWhile (!isQuote ·) = quoted at hhead
  intro c hc
  cases quoted with
  | nil => simp at hc
  | cons a rest =>
      have ha : isQuote a = true := by simpa using hhead
      have heq : c = a := by
        split at hc
        · rename_i htriple
          cases rest with
          | nil => cases htriple
          | cons b rest =>
              cases rest with
              | nil => cases htriple
              | cons d rest =>
                  simp only [startsTriple, Bool.and_eq_true, beq_iff_eq] at htriple
                  obtain ⟨⟨-, rfl⟩, rfl⟩ := htriple
                  simpa using hc
        · simpa using hc
      rw [heq]
      exact ha

theorem isQuote_of_merged {style : Style} {texts : List Text} {q : QuotedText}
    (h : (ofTexts style texts).merged = some q) : ∀ c ∈ q.quote, isQuote c = true := by
  obtain ⟨-, first, others, hliterals, -, -, hcases⟩ := mergeLiterals?_cases h
  rcases hcases with ⟨-, bodies, -, hchosen⟩ | ⟨-, -, rfl⟩
  · obtain ⟨chosen, hcut, rfl⟩ := Option.map_eq_some_iff.mp hchosen
    exact isQuote_of_ofText? (q := chosen) hcut
  · cases texts with
    | nil => simp at hliterals
    | cons text texts =>
        obtain ⟨l, rest, heq, hcut, -⟩ := mapM_cons_eq_some hliterals
        rw [(List.cons.inj heq).1]
        exact isQuote_of_ofText? (q := l) hcut

end StringRun

theorem QuotedText.columns_text {w : Char → Nat} (hw : ∀ c, isQuote c = true → w c = 1)
    (q : QuotedText) (hquote : ∀ c ∈ q.quote, isQuote c = true) (htab : '\t' ∉ q.body) :
    Text.columns w q.text =
      Text.columns w q.marks + 2 * q.quote.length + Text.columns w q.body := by
  obtain ⟨hfree, hlength⟩ := Text.columns_quotes hw hquote
  rw [QuotedText.text, Text.columns_append w _ hfree, Text.columns_append w _ htab,
    Text.columns_append w _ hfree, hlength]
  omega

theorem mem_of_mem_firstWord {c : Char} {t : Text} (h : c ∈ firstWord t) : c ∈ t := by
  rcases List.mem_append.mp h with hmem | hmem
  · exact List.takeWhile_subset _ hmem
  · exact List.dropWhile_subset _ (List.mem_of_mem_take hmem)

/-! ## Main statement -/

/-- The lines of a merged literal are filled greedily, whatever columns characters take: their bodies are
cut from its body, a line is wider than what is available only if it holds a single word, and it would be
too wide with the first word of the next one. -/
theorem stringRun_fills_lines (w : Char → Nat) (hw : ∀ c, isQuote c = true → w c = 1) (style : Style)
    {texts : List Text} {q : QuotedText} (hmerged : (StringRun.ofTexts style texts).merged = some q)
    (htab : '\t' ∉ q.body) :
    (∀ available, (StringRun.ofTexts style texts).lines available =
      (StringRun.ofTexts style texts).linesBy Text.charWidth available) ∧
    ∀ available, ∃ bodies : List Text,
      (StringRun.ofTexts style texts).linesBy w available =
        bodies.map (fun body => ({ q with body } : QuotedText).text) ∧
      bodies ≠ [] ∧ bodies.flatten = q.body ∧
      (∀ body ∈ bodies,
        Text.columns w ({ q with body } : QuotedText).text ≤ available ∨ IsSingleWord body) ∧
      bodies.IsChain fun body next =>
        available < Text.columns w ({ q with body := body ++ firstWord next } : QuotedText).text := by
  refine ⟨StringRun.lines_eq_linesBy _, fun available => ?_⟩
  have hquote := StringRun.isQuote_of_merged hmerged
  have hwords : ∀ word ∈ Text.splitAfter (· == ' ') q.body, IsSingleWord word ∧ '\t' ∉ word := by
    intro word hword
    refine ⟨isSingleWord_splitAfter q.body word hword, fun hmem => htab ?_⟩
    rw [← Text.flatten_splitAfter (· == ' ') q.body]
    exact List.mem_flatten_of_mem hword hmem
  obtain ⟨overhead, hoverhead⟩ : ∃ n, n = Text.columns w q.marks + 2 * q.quote.length := ⟨_, rfl⟩
  have hcolumns (body : Text) (hbody : '\t' ∉ body) :
      Text.columns w ({ q with body } : QuotedText).text = overhead + Text.columns w body := by
    rw [hoverhead]
    exact QuotedText.columns_text hw { q with body } hquote hbody
  obtain ⟨bodies, hbodies⟩ : ∃ bodies, bodies = StringRun.fillBy w overhead available []
      (Text.splitAfter (· == ' ') q.body) := ⟨_, rfl⟩
  have hflatten : bodies.flatten = q.body := by
    rw [hbodies, StringRun.flatten_fillBy, List.nil_append, Text.flatten_splitAfter]
  have hfree : ∀ body ∈ bodies, '\t' ∉ body := by
    intro body hbody hmem
    apply htab
    rw [← hflatten]
    exact List.mem_flatten_of_mem hbody hmem
  have hfits : ∀ body ∈ bodies,
      overhead + Text.columns w body ≤ available ∨ IsSingleWord body := by
    rw [hbodies]
    exact StringRun.fits_fillBy hwords (.inr (by simp [IsSingleWord]))
  have hchain : bodies.IsChain fun body next =>
      available < overhead + Text.columns w (body ++ firstWord next) := by
    rw [hbodies]
    exact StringRun.chain_fillBy hwords (endsInBlank_splitAfter q.body)
  refine ⟨bodies, ?_, ?_, hflatten, ?_, ?_⟩
  · simp only [StringRun.linesBy, hmerged]
    rw [hbodies, hoverhead]
  · obtain ⟨x, rest, hfill, -⟩ := StringRun.exists_fillBy_cons w overhead available []
      (Text.splitAfter (· == ' ') q.body)
    rw [hbodies, hfill]
    exact List.cons_ne_nil _ _
  · intro body hbody
    rw [hcolumns body (hfree body hbody)]
    exact hfits body hbody
  · apply List.IsChain.imp_of_mem_imp _ hchain
    intro body next hbody hnext hroom
    rw [hcolumns]
    · exact hroom
    · simp only [List.mem_append, not_or]
      exact ⟨hfree body hbody, fun hmem => hfree next hnext (mem_of_mem_firstWord hmem)⟩

/-- Words with two blanks between them, of wide characters, and too long for a short line. -/
def unevenWords : List Text := ["'to  be '".toList, "'日本語 unbreakable x'".toList]

def unevenLiteral : QuotedText := ⟨[], ['"'], "to  be 日本語 unbreakable x".toList⟩

theorem stringRun_fills_lines_unevenWords :
    ((StringRun.ofTexts {} unevenWords).merged = some unevenLiteral ∧ '\t' ∉ unevenLiteral.body ∧
      (StringRun.ofTexts {} unevenWords).lines 9 =
        ["\"to  be \"", "\"日本語 \"", "\"unbreakable \"", "\"x\""].map String.toList) ∧
    ∃ bodies : List Text,
      (StringRun.ofTexts {} unevenWords).linesBy Text.charWidth 9 =
        bodies.map (fun body => ({ unevenLiteral with body } : QuotedText).text) ∧
      bodies ≠ [] ∧ bodies.flatten = unevenLiteral.body ∧
      (∀ body ∈ bodies, Text.columns Text.charWidth
        ({ unevenLiteral with body } : QuotedText).text ≤ 9 ∨ IsSingleWord body) ∧
      bodies.IsChain fun body next => 9 < Text.columns Text.charWidth
        ({ unevenLiteral with body := body ++ firstWord next } : QuotedText).text := by
  have hquotes : ∀ c, isQuote c = true → Text.charWidth c = 1 := by
    intro c hc
    rcases isQuote_iff.mp hc with rfl | rfl
    · decide
    · decide
  have hmerged : (StringRun.ofTexts {} unevenWords).merged = some unevenLiteral := by
    decide +kernel
  have htab : '\t' ∉ unevenLiteral.body := by decide
  refine ⟨⟨hmerged, htab, by decide +kernel⟩, ?_⟩
  exact (stringRun_fills_lines Text.charWidth hquotes {} hmerged htab).2 9

end SchemaTidy
