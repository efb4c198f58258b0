import SchemaTidy.Proofs.Literal.Body

/-!
# Two spellings of a body

Two spellings of a body differ in single backslashes of some quotes. They mean the same. Passes that
flip the backslashes of quotes, of one character or of three, give such spellings whatever they
miss, and they work on both sides of a brace apart.
-/

namespace SchemaTidy

/-- Two spellings of a text. A quote of `qs` may gain a backslash where it has none of its own, or
lose its own. -/
inductive Respelled (qs : Text) : Text → Text → Prop
  | nil : Respelled qs [] []
  | backslash : Respelled qs ['\\'] ['\\']
  | char {c : Char} {t u : Text} (hc : c ≠ '\\') (h : Respelled qs t u) :
      Respelled qs (c :: t) (c :: u)
  | escape (c : Char) {t u : Text} (h : Respelled qs t u) :
      Respelled qs ('\\' :: c :: t) ('\\' :: c :: u)
  | gain {c : Char} {t u : Text} (hc : c ∈ qs) (h : Respelled qs t u) :
      Respelled qs (c :: t) ('\\' :: c :: u)
  | lose {c : Char} {t u : Text} (hc : c ∈ qs) (h : Respelled qs t u) :
      Respelled qs ('\\' :: c :: t) (c :: u)

def AreQuotes (qs : Text) : Prop := ∀ c ∈ qs, isQuote c = true

theorem AreQuotes.ne_backslash {qs : Text} (h : AreQuotes qs) : '\\' ∉ qs :=
  fun hmem => absurd (h _ hmem) (by decide)

namespace Respelled

variable {qs rs t u v : Text}

theorem refl (qs : Text) : ∀ t, Respelled qs t t
  | [] => .nil
  | c :: t => by
      by_cases hc : c = '\\'
      · subst hc
        match t with
        | [] => exact .backslash
        | d :: t => exact .escape d (refl qs t)
      · exact .char hc (refl qs t)

theorem mono (h : Respelled qs t u) (hsub : qs ⊆ rs) : Respelled rs t u := by
  induction h with
  | nil => exact .nil
  | backslash => exact .backslash
  | char hc _ ih => exact .char hc ih
  | escape c _ ih => exact .escape c ih
  | gain hc _ ih => exact .gain (hsub hc) ih
  | lose hc _ ih => exact .lose (hsub hc) ih

theorem trans (hqs : AreQuotes qs) (h : Respelled qs t u) (h' : Respelled qs u v) :
    Respelled qs t v := by
  have hne : '\\' ∉ qs := hqs.ne_backslash
  induction h generalizing v with
  | nil => exact h'
  | backslash => exact h'
  | char hc _ ih =>
      cases h' with
      | backslash => exact absurd rfl hc
      | char _ h' => exact .char hc (ih h')
      | escape => exact absurd rfl hc
      | gain hmem h' => exact .gain hmem (ih h')
      | lose => exact absurd rfl hc
  | escape c _ ih =>
      cases h' with
      | char hc => exact absurd rfl hc
      | escape _ h' => exact .escape c (ih h')
      | gain hmem => exact absurd hmem hne
      | lose hmem h' => exact .lose hmem (ih h')
  | gain hmem _ ih =>
      cases h' with
      | char hc => exact absurd rfl hc
      | escape _ h' => exact .gain hmem (ih h')
      | gain hmem' => exact absurd hmem' hne
      | lose _ h' => exact .char (fun hc => hne (hc ▸ hmem)) (ih h')
  | @lose c _ _ hmem _ ih =>
      cases h' with
      | backslash => exact absurd hmem hne
      | char _ h' => exact .lose hmem (ih h')
      | escape => exact absurd hmem hne
      | gain _ h' => exact .escape c (ih h')
      | lose => exact absurd hmem hne

theorem append {w : Text} (hw : '\\' ∉ w) (h : Respelled qs t u) :
    Respelled qs (w ++ t) (w ++ u) := by
  induction w with
  | nil => exact h
  | cons c w ih =>
      obtain ⟨hc, hw⟩ : '\\' ≠ c ∧ '\\' ∉ w := by simpa using hw
      exact .char hc.symm (ih hw)

theorem pairs (n : Nat) (h : Respelled qs t u) :
    Respelled qs (List.replicate (2 * n) '\\' ++ t) (List.replicate (2 * n) '\\' ++ u) := by
  induction n with
  | zero => exact h
  | succ n ih => exact .escape '\\' ih

theorem eq_of_append (hqs : AreQuotes qs) (h : Respelled qs t u) {x y : Text}
    (hsame : u ++ x = t ++ y) : u = t := by
  have hne : '\\' ∉ qs := hqs.ne_backslash
  induction h with
  | nil => rfl
  | backslash => rfl
  | char _ _ ih =>
      obtain ⟨-, hsame⟩ := List.cons.inj hsame
      rw [ih hsame]
  | escape _ _ ih =>
      obtain ⟨-, hsame⟩ := List.cons.inj hsame
      obtain ⟨-, hsame⟩ := List.cons.inj hsame
      rw [ih hsame]
  | gain hmem =>
      obtain ⟨hc, -⟩ := List.cons.inj hsame
      exact absurd (hc ▸ hmem) hne
  | lose hmem =>
      obtain ⟨hc, -⟩ := List.cons.inj hsame
      exact absurd (hc ▸ hmem) hne

end Respelled

/-! ## What two spellings mean -/

theorem isEscapeTail_of_isQuote {c : Char} (h : isQuote c = true) : isEscapeTail c = false := by
  rcases isQuote_iff.mp h with rfl | rfl <;> decide

theorem escape?_quote (named : Text → Option Nat) (bytes : Bool) {c : Char} (h : isQuote c = true)
    (cs : Text) : escape? named bytes (c :: cs) = some ([c.toNat], 1) := by
  rcases isQuote_iff.mp h with rfl | rfl <;> cases bytes <;> rfl

/-- A character that is kept by respelling, without a backslash before it. -/
def IsStill (c : Char) : Prop := isQuote c = false ∧ c ≠ '\\'

theorem isStill_of_isEscapeTail {c : Char} (h : isEscapeTail c = true) : IsStill c := by
  refine ⟨?_, ?_⟩
  · rw [← Bool.not_eq_true]
    intro hquote
    exact absurd (h.symm.trans (isEscapeTail_of_isQuote hquote)) (by simp)
  · rintro rfl
    exact absurd h (by decide)

theorem InReach.isStill {n : Nat} {t : Text} (h : InReach n t) : ∀ c ∈ t.take n, IsStill c := by
  intro c hc
  have hreach : t.take n <+: t.takeWhile isEscapeTail := by
    refine List.prefix_of_prefix_length_le (List.take_prefix n t) (List.takeWhile_prefix _) ?_
    rw [List.length_take]
    exact Nat.le_trans (Nat.min_le_left _ _) h
  exact isStill_of_isEscapeTail (List.all_eq_true.mp List.all_takeWhile c (hreach.subset hc))

section Meaning

variable {qs t u : Text} (hqs : AreQuotes qs)

include hqs

theorem Respelled.takeWhile_isEscapeTail (h : Respelled qs t u) :
    u.takeWhile isEscapeTail = t.takeWhile isEscapeTail := by
  have hbackslash : isEscapeTail '\\' = false := by decide
  induction h with
  | nil => rfl
  | backslash => rfl
  | char _ _ ih => rw [List.takeWhile_cons, List.takeWhile_cons, ih]
  | escape => simp [hbackslash]
  | gain hc => simp [hbackslash, isEscapeTail_of_isQuote (hqs _ hc)]
  | lose hc => simp [hbackslash, isEscapeTail_of_isQuote (hqs _ hc)]

theorem Respelled.head?_lineFeed (h : Respelled qs t u) :
    u.head? = some '\n' ↔ t.head? = some '\n' := by
  have hquote {c : Char} (hc : c ∈ qs) : c ≠ '\n' := by
    rintro rfl
    exact absurd (hqs _ hc) (by decide)
  cases h with
  | nil => rfl
  | backslash => rfl
  | char => rfl
  | escape => simp
  | gain hc => simp [hquote hc]
  | lose hc => simp [hquote hc]

theorem Respelled.decode (named : Text → Option Nat) (bytes : Bool) (h : Respelled qs t u)
    {skip : Nat} (hskip : ∀ c ∈ t.take skip, IsStill c) :
    decode named bytes skip u = decode named bytes skip t := by
  -- Skipped characters are none that the spellings differ in.
  induction h generalizing skip with
  | nil => rfl
  | backslash => rfl
  | @char c t u hc h ih =>
      cases skip with
      | zero => rw [decode_char named bytes hc, decode_char named bytes hc, ih (by simp)]
      | succ skip =>
          rw [decode_succ, decode_succ]
          exact ih fun d hd => hskip d (by simp [hd])
  | @escape c t u h ih =>
      cases skip with
      | succ skip => exact absurd rfl (hskip '\\' (by simp)).2
      | zero =>
          rw [decode_escape, decode_escape]
          by_cases hbreak : splitsBreak c t
          · obtain ⟨rfl, hhead⟩ := hbreak
            obtain ⟨t', rfl⟩ := List.head?_eq_some_iff.mp hhead
            obtain ⟨u', rfl⟩ := List.head?_eq_some_iff.mp ((h.head?_lineFeed hqs).mpr hhead)
            have hrest := @ih 1 (by simp [IsStill]; decide)
            simp [escape?, hrest]
          · have hbreak' : ¬ splitsBreak c u := fun hsplits =>
              hbreak ⟨hsplits.1, (h.head?_lineFeed hqs).mp hsplits.2⟩
            rw [escape?_congr named bytes hbreak hbreak' (h.takeWhile_isEscapeTail hqs)]
            cases hescape : escape? named bytes (c :: t) with
            | none => rfl
            | some escape =>
                obtain ⟨value, n⟩ := escape
                obtain ⟨k, rfl, hk⟩ := inReach_of_escape? hbreak hescape
                simp [ih hk.isStill]
  | @gain c t u hc h ih =>
      have hquote := hqs c hc
      cases skip with
      | succ skip => exact absurd hquote (by simp [(hskip c (by simp)).1])
      | zero =>
          rw [decode_escape, escape?_quote named bytes hquote,
            decode_char named bytes (quote_facts hquote).1, ← @ih 0 (by simp)]
          simp
  | @lose c t u hc h ih =>
      have hquote := hqs c hc
      cases skip with
      | succ skip => exact absurd rfl (hskip '\\' (by simp)).2
      | zero =>
          rw [decode_escape, escape?_quote named bytes hquote,
            decode_char named bytes (quote_facts hquote).1, @ih 0 (by simp)]
          simp

end Meaning

/-! ## Passes over quotes -/

section Passes

variable {escaped : Bool} {quote : Text}

theorem split_of_quoteFollows {t : Text} (h : quoteFollows escaped quote t = true) :
    (backslashes t % 2 = 1 ↔ escaped = true) ∧
      t = List.replicate (backslashes t) '\\' ++
        (quote ++ t.drop (backslashes t + quote.length)) := by
  simp only [quoteFollows, Bool.and_eq_true, beq_iff_eq] at h
  obtain ⟨hparity, hprefix⟩ := h
  refine ⟨by rw [← hparity]; simp, ?_⟩
  have hrun : t.take (backslashes t) = List.replicate (backslashes t) '\\' := by
    rw [List.eq_replicate_iff, backslashes, Text.take_lengthWhile]
    exact ⟨rfl, fun c hc => by simpa using List.all_eq_true.mp List.all_takeWhile c hc⟩
  obtain ⟨rest, hrest⟩ := List.isPrefixOf_iff_prefix.mp hprefix
  rw [← List.drop_drop, ← hrest, List.drop_left, hrest, ← hrun, List.take_append_drop]

theorem length_le_of_quoteFollows {t : Text} (h : quoteFollows escaped quote t = true) :
    backslashes t + quote.length ≤ t.length := by
  have hsize := congrArg List.length (split_of_quoteFollows h).2
  simp only [List.length_append, List.length_replicate] at hsize
  omega

theorem respelled_flipQuotesFrom_cons {c : Char} {cs : Text}
    (hcs : ∃ u, flipQuotesFrom escaped quote false (c :: cs) = c :: u ∧ Respelled quote cs u)
    (hds : ∀ d ds, cs = d :: ds →
      ∃ v, flipQuotesFrom escaped quote false cs = d :: v ∧ Respelled quote ds v) :
    Respelled quote (c :: cs) (flipQuotesFrom escaped quote false (c :: cs)) := by
  obtain ⟨u, hu, hrest⟩ := hcs
  by_cases hc : c = '\\'
  · subst hc
    cases cs with
    | nil =>
        rw [flipQuotesFrom, flipQuotesFrom]
        exact .backslash
    | cons d ds =>
        -- A character behind a backslash is never flipped itself.
        obtain ⟨v, hv, hrest⟩ := hds d ds rfl
        rw [flipQuotesFrom]
        simpa [hv] using Respelled.escape d hrest
  · rw [hu]
    exact .char hc hrest

variable (hquote : AreQuotes quote) (hne : quote ≠ [])

include hquote hne

theorem respelled_flipEscape {t rest : Text} (h : quoteFollows escaped quote t = true)
    (hrest : Respelled quote (t.drop (backslashes t + quote.length)) rest) :
    Respelled quote t (flipEscape escaped quote t ++ rest) := by
  obtain ⟨hparity, hsplit⟩ := split_of_quoteFollows h
  obtain ⟨q, qs, rfl⟩ := List.exists_cons_of_ne_nil hne
  have hq : '\\' ∉ qs := fun hmem => hquote.ne_backslash (by simp [hmem])
  rw [flipEscape, List.append_assoc]
  generalize t.drop (backslashes t + (q :: qs).length) = behind at hsplit hrest
  generalize backslashes t = n at hparity hsplit
  rw [hsplit]
  have htail := hrest.append hq
  cases escaped with
  | true =>
      obtain ⟨m, rfl⟩ : ∃ m, n = 2 * m + 1 := ⟨n / 2, by have := hparity.mpr rfl; omega⟩
      have hlose : Respelled (q :: qs) ('\\' :: q :: (qs ++ behind)) (q :: (qs ++ rest)) :=
        .lose (by simp) htail
      simpa [List.replicate_succ'] using hlose.pairs m
  | false =>
      obtain ⟨m, rfl⟩ : ∃ m, n = 2 * m := ⟨n / 2, by
        have heven : ¬ n % 2 = 1 := by simpa using hparity
        omega⟩
      have hgain : Respelled (q :: qs) (q :: (qs ++ behind)) ('\\' :: q :: (qs ++ rest)) :=
        .gain (by simp) htail
      simpa [List.replicate_succ'] using hgain.pairs m

theorem respelled_flipQuotesFrom (t : Text) :
    (∀ atStart, Respelled quote t (flipQuotesFrom escaped quote atStart t)) ∧
      ∀ c, ∃ u, flipQuotesFrom escaped quote false (c :: t) = c :: u ∧ Respelled quote t u := by
  induction hlength : t.length using Nat.strongRecOn generalizing t with
  | ind length ih =>
      have hflip (h : quoteFollows escaped quote t = true) : Respelled quote t
          (flipEscape escaped quote t ++
            flipQuotesFrom escaped quote false (t.drop (backslashes t + quote.length))) := by
        have hpos := List.length_pos_iff.mpr hne
        have hle := length_le_of_quoteFollows h
        have hshorter : (t.drop (backslashes t + quote.length)).length < length := by
          rw [List.length_drop]
          omega
        exact respelled_flipEscape hquote hne h ((ih _ hshorter _ rfl).1 false)
      have hplain : Respelled quote t (flipQuotesFrom escaped quote false t) := by
        cases t with
        | nil =>
            rw [flipQuotesFrom]
            exact .nil
        | cons c cs =>
            rw [List.length_cons] at hlength
            refine respelled_flipQuotesFrom_cons ((ih cs.length (by omega) cs rfl).2 c) ?_
            rintro d ds rfl
            rw [List.length_cons] at hlength
            exact (ih ds.length (by omega) ds rfl).2 d
      refine ⟨fun atStart => ?_, fun c => ?_⟩
      · cases t with
        | nil =>
            rw [flipQuotesFrom]
            exact .nil
        | cons c cs =>
            rw [flipQuotesFrom] at hplain ⊢
            split
            · rename_i hfollows
              rwa [if_pos hfollows] at hplain
            rename_i hfollows
            rw [if_neg hfollows] at hplain
            split
            · rename_i hstart
              rw [Bool.and_eq_true] at hstart
              have hall := hflip hstart.2
              have hpos := List.length_pos_iff.mpr hne
              have hdrop : (c :: cs).drop (backslashes (c :: cs) + quote.length) =
                  cs.drop (backslashes (c :: cs) + quote.length - 1) := by
                rw [List.drop_cons (by omega)]
              rwa [hdrop] at hall
            · simpa using hplain
      · rw [flipQuotesFrom]
        split
        · rename_i hfollows
          rw [Bool.and_eq_true] at hfollows
          exact ⟨_, rfl, hflip hfollows.2⟩
        · exact ⟨_, by simp, hplain⟩

/-- Two passes respell a text. -/
theorem respelled_flipQuotes (t : Text) : Respelled quote t (flipQuotes escaped quote t) :=
  ((respelled_flipQuotesFrom hquote hne t).1 true).trans hquote
    ((respelled_flipQuotesFrom hquote hne _).1 true)

end Passes

/-! ## Passes on both sides of a character -/

section Apart

variable {escaped : Bool} {quote : Text} {c : Char}

theorem isPrefixOf_append_of_not_mem {qs : Text} (hc : c ∉ qs) (a b : Text) :
    qs.isPrefixOf (a ++ c :: b) = qs.isPrefixOf a := by
  induction qs generalizing a with
  | nil => simp
  | cons q qs ih =>
      obtain ⟨hq, hqs⟩ : c ≠ q ∧ c ∉ qs := by simpa using hc
      cases a with
      | nil => simp [List.isPrefixOf, hq.symm]
      | cons d a => simp [List.isPrefixOf, ih hqs]

theorem backslashes_append (hc : c ≠ '\\') (a b : Text) :
    backslashes (a ++ c :: b) = backslashes a := by
  induction a with
  | nil => simp [backslashes, Text.lengthWhile, hc]
  | cons d a ih =>
      simp only [backslashes, Text.lengthWhile] at ih ⊢
      by_cases hd : d = '\\' <;> simp [hd, ih]

theorem backslashes_le (t : Text) : backslashes t ≤ t.length :=
  (List.takeWhile_prefix _).length_le

theorem quoteFollows_append (hc : c ≠ '\\') (hmem : c ∉ quote) (a b : Text) :
    quoteFollows escaped quote (a ++ c :: b) = quoteFollows escaped quote a := by
  rw [quoteFollows, quoteFollows, backslashes_append hc,
    List.drop_append_of_le_length (backslashes_le a), isPrefixOf_append_of_not_mem hmem]

theorem flipEscape_append (hc : c ≠ '\\') (a b : Text) :
    flipEscape escaped quote (a ++ c :: b) = flipEscape escaped quote a := by
  rw [flipEscape, flipEscape, backslashes_append hc]

/-- A pass goes over a character that is no backslash and in no quote as if it were the first. -/
theorem flipQuotesFrom_append (hne : quote ≠ []) (hc : c ≠ '\\') (hmem : c ∉ quote)
    (atStart : Bool) (a b : Text) :
    flipQuotesFrom escaped quote atStart (a ++ c :: b) =
      flipQuotesFrom escaped quote atStart a ++ flipQuotesFrom escaped quote false (c :: b) := by
  have hpos := List.length_pos_iff.mpr hne
  induction hlength : a.length using Nat.strongRecOn generalizing a atStart with
  | ind length ih =>
      cases a with
      | nil =>
          have hnone : quoteFollows escaped quote ([] ++ c :: b) = quoteFollows escaped quote [] :=
            quoteFollows_append hc hmem [] b
          have hempty : quoteFollows escaped quote [] = false := by
            cases quote with
            | nil => exact absurd rfl hne
            | cons q qs => simp [quoteFollows]
          rw [List.nil_append, hempty] at hnone
          rw [List.nil_append, flipQuotesFrom, flipQuotesFrom, flipQuotesFrom, hnone]
          simp
      | cons d ds =>
          rw [List.length_cons] at hlength
          rw [List.cons_append, flipQuotesFrom, flipQuotesFrom, quoteFollows_append hc hmem,
            ← List.cons_append, quoteFollows_append hc hmem, flipEscape_append hc,
            flipEscape_append hc, backslashes_append hc, backslashes_append hc]
          split
          · rename_i hfollows
            rw [Bool.and_eq_true] at hfollows
            have hle := length_le_of_quoteFollows hfollows.2
            rw [List.drop_append_of_le_length hle, ih _ (by rw [List.length_drop]; omega) _ _ rfl]
            simp
          split
          · rename_i hstart
            rw [Bool.and_eq_true] at hstart
            have hle := length_le_of_quoteFollows hstart.2
            rw [List.length_cons] at hle
            rw [List.drop_append_of_le_length (by omega),
              ih _ (by rw [List.length_drop]; omega) _ _ rfl]
            simp
          · rw [ih _ (by omega) _ _ rfl]
            rfl

theorem flipQuotes_append (hquote : AreQuotes quote) (hne : quote ≠ []) (hc : c ≠ '\\')
    (hmem : c ∉ quote) (a b : Text) :
    flipQuotes escaped quote (a ++ c :: b) =
      flipQuotes escaped quote a ++ flipQuotes escaped quote (c :: b) := by
  have hstart (b : Text) : flipQuotesFrom escaped quote true (c :: b) =
      flipQuotesFrom escaped quote false (c :: b) := by
    have happ : flipQuotesFrom escaped quote true ([] ++ c :: b) =
        flipQuotesFrom escaped quote true [] ++ flipQuotesFrom escaped quote false (c :: b) :=
      flipQuotesFrom_append hne hc hmem true [] b
    simpa [flipQuotesFrom] using happ
  obtain ⟨u, hu, -⟩ : ∃ u, flipQuotesFrom escaped quote false (c :: b) = c :: u ∧
      Respelled quote b u := (respelled_flipQuotesFrom hquote hne b).2 c
  rw [flipQuotes, flipQuotes, flipQuotes, flipQuotesFrom_append hne hc hmem, hstart b, hu,
    flipQuotesFrom_append hne hc hmem, hstart u]

end Apart

end SchemaTidy
