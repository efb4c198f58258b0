import SchemaTidy.Proofs.Literal.Quotes
import SchemaTidy.Proofs.Literal.Sections

/-!
# Passes over a body

What a pass over the quotes of a body leaves as it is: texts without replacement fields, quotes of
another kind, and whether the body starts with its quotes.
-/

namespace SchemaTidy

/-! ## Passes -/

/-- A function that respells quotes and works on both sides of a brace apart. -/
structure IsPass (qs : Text) (φ : Text → Text) : Prop where
  respelled : ∀ t, Respelled qs t (φ t)
  apart : ∀ (a : Text) (c : Char) (b : Text), c = '{' ∨ c = '}' →
    φ (a ++ c :: b) = φ a ++ φ (c :: b)

section Passes

variable {qs : Text} (hqs : AreQuotes qs) {φ χ : Text → Text}

theorem isPass_id (qs : Text) : IsPass qs id where
  respelled := Respelled.refl qs
  apart _ _ _ _ := rfl

include hqs

theorem isPass_flipQuotes {quote : Text} (hsub : quote ⊆ qs) (hne : quote ≠ []) (escaped : Bool) :
    IsPass qs (flipQuotes escaped quote) := by
  have hquote : AreQuotes quote := fun c hc => hqs c (hsub hc)
  refine ⟨fun t => (respelled_flipQuotes hquote hne t).mono hsub, fun a c b hc => ?_⟩
  have hbrace : isQuote c = false ∧ c ≠ '\\' := by
    rcases hc with rfl | rfl <;> decide
  have hmem : c ∉ quote := fun hmem => by simp [hquote c hmem] at hbrace
  exact flipQuotes_append hquote hne hbrace.2 hmem a b

theorem IsPass.brace (h : IsPass qs φ) {c : Char} (hc : c = '{' ∨ c = '}') (b : Text) :
    ∃ u, φ (c :: b) = c :: u := by
  have hquote : isQuote c = false ∧ c ≠ '\\' := by
    rcases hc with rfl | rfl <;> decide
  have hspelled := h.respelled (c :: b)
  generalize φ (c :: b) = u at hspelled
  cases hspelled with
  | backslash => exact absurd rfl hquote.2
  | char => exact ⟨_, rfl⟩
  | escape => exact absurd rfl hquote.2
  | gain hmem => simp [hqs c hmem] at hquote
  | lose => exact absurd rfl hquote.2

theorem IsPass.comp (h : IsPass qs φ) (hnext : IsPass qs χ) : IsPass qs fun t => χ (φ t) where
  respelled t := (h.respelled t).trans hqs (hnext.respelled (φ t))
  apart a c b hc := by
    obtain ⟨u, hu⟩ := h.brace hqs hc b
    rw [h.apart a c b hc, hu, hnext.apart _ c u hc]

theorem IsPass.sectional (h : IsPass qs φ) : Sectional qs φ φ where
  are_quotes := hqs
  respelled := h.respelled
  apart := h.apart
  brace _ b hc := h.brace hqs hc b
  ends hl := hl.respelled hqs (h.respelled _)

end Passes

/-! ## The end of a body -/

/-- A backslash before the last quote of a body that would be part of the quotes behind it. -/
def mendEnd (quote t : Text) : Text :=
  if quote == "\"\"\"".toList && t.getLast? == some '"' then t.dropLast ++ ['\\', '"'] else t

theorem mendEnd_append (quote a : Text) (c : Char) (b : Text) :
    mendEnd quote (a ++ c :: b) = a ++ mendEnd quote (c :: b) := by
  simp only [mendEnd, List.getLast?_append, List.getLast?_cons, Option.some_or,
    List.dropLast_append_of_ne_nil (List.cons_ne_nil c b)]
  split <;> simp

@[simp] theorem mendEnd_nil (quote : Text) : mendEnd quote [] = [] := by
  simp [mendEnd]

theorem mendEnd_cons_cons (quote : Text) (c d : Char) (b : Text) :
    mendEnd quote (c :: d :: b) = c :: mendEnd quote (d :: b) := mendEnd_append quote [c] d b

theorem mendEnd_cons (quote : Text) {c : Char} (hc : c ≠ '"') (b : Text) :
    ∃ u, mendEnd quote (c :: b) = c :: u := by
  cases b with
  | nil => exact ⟨[], by simp [mendEnd, hc]⟩
  | cons d b => exact ⟨_, mendEnd_cons_cons quote c d b⟩

theorem FieldFree.mendEnd {formatted : Bool} {l : Text} (h : FieldFree formatted l) (quote : Text) :
    FieldFree formatted (mendEnd quote l) := by
  have hquote : FieldFree formatted ['"'] := .char (by decide) (fun _ => by decide) .nil
  induction h with
  | nil =>
      rw [mendEnd_nil]
      exact .nil
  | @char c l hc hbrace hl ih =>
      cases l with
      | nil =>
          rw [SchemaTidy.mendEnd]
          split
          · exact .escape '"' .nil
          · exact .char hc hbrace .nil
      | cons d l =>
          rw [mendEnd_cons_cons]
          exact .char hc hbrace ih
  | @escape c l hl ih =>
      cases l with
      | nil =>
          rw [SchemaTidy.mendEnd]
          split
          · exact .escape '\\' hquote
          · exact .escape c .nil
      | cons d l =>
          rw [mendEnd_cons_cons, mendEnd_cons_cons]
          exact .escape c ih
  | @braces l hformatted hl ih =>
      cases l with
      | nil =>
          have hsame : SchemaTidy.mendEnd quote ['{', '{'] = ['{', '{'] := by
            simp [SchemaTidy.mendEnd]
          rw [hsame]
          exact .braces hformatted .nil
      | cons d l =>
          rw [mendEnd_cons_cons, mendEnd_cons_cons]
          exact .braces hformatted ih

theorem IsPass.sectional_mendEnd {qs : Text} (hqs : AreQuotes qs) {φ : Text → Text}
    (h : IsPass qs φ) (quote : Text) : Sectional qs φ fun t => mendEnd quote (φ t) where
  are_quotes := hqs
  respelled := h.respelled
  apart a c b hc := by
    obtain ⟨u, hu⟩ := h.brace hqs hc b
    rw [h.apart a c b hc, hu, mendEnd_append]
  brace c b hc := by
    obtain ⟨u, hu⟩ := h.brace hqs hc b
    rw [hu]
    apply mendEnd_cons
    rcases hc with rfl | rfl <;> decide
  ends hl := (hl.respelled hqs (h.respelled _)).mendEnd quote

theorem respelled_mended {s : Text}
    (h : staysOpen (quotesOf '"' true) 0 (s ++ ['\\', '"']) = true) :
    Respelled ['"'] (s ++ ['"']) (s ++ ['\\', '"']) := by
  induction hlength : s.length using Nat.strongRecOn generalizing s with
  | ind length ih =>
      subst hlength
      cases s with
      | nil => exact .gain (by simp) .nil
      | cons c s =>
          by_cases hc : c = '\\'
          · subst hc
            cases s with
            | nil => cases h
            | cons d s =>
                rw [List.cons_append, List.cons_append] at h
                by_cases hsplits : splitsBreak d (s ++ ['\\', '"'])
                · obtain ⟨rfl, hhead⟩ := hsplits
                  cases s with
                  | nil => simp at hhead
                  | cons e s =>
                      obtain rfl : e = '\n' := by simpa using hhead
                      rw [List.cons_append, staysOpen_lineBreak] at h
                      have hrest := ih s.length (by simp only [List.length_cons]; omega) h rfl
                      exact .escape '\r' (.char (by decide) hrest)
                · rw [staysOpen_escape _ hsplits] at h
                  exact .escape d (ih s.length (by simp only [List.length_cons]; omega) h rfl)
          · exact .char hc (ih s.length (by simp) ((staysOpen_char hc).mp h).2.2 rfl)

/-! ## Quotes that are not respelled -/

section Closing

variable {qs t u : Text} {c : Char} (hc : isQuote c = true) (hmem : c ∉ qs)

include hc hmem

theorem Respelled.isPrefixOf_replicate (h : Respelled qs t u) (n : Nat) (x : Text) :
    (List.replicate n c).isPrefixOf (u ++ x) = (List.replicate n c).isPrefixOf (t ++ x) := by
  have hescape : (c == '\\') = false := by simpa using (quote_facts hc).1
  have hne {d : Char} (hd : d ∈ qs) : (c == d) = false := by
    rw [beq_eq_false_iff_ne]
    rintro rfl
    exact hmem hd
  induction h generalizing n with
  | nil => rfl
  | backslash => rfl
  | char _ _ ih =>
      cases n with
      | zero => simp
      | succ n => simp [List.replicate_succ, List.isPrefixOf, ih]
  | escape => cases n <;> simp [List.replicate_succ, List.isPrefixOf, hescape]
  | gain hd => cases n <;> simp [List.replicate_succ, List.isPrefixOf, hescape, hne hd]
  | lose hd => cases n <;> simp [List.replicate_succ, List.isPrefixOf, hescape, hne hd]

/-- Whether a body stays open before quotes does not depend on the spelling of the others. -/
theorem Respelled.staysOpen_eq (hqs : AreQuotes qs) (triple : Bool) (h : Respelled qs t u)
    {skip : Nat} (hskip : ∀ d ∈ t.take skip, IsStill d) :
    staysOpen (quotesOf c triple) skip u = staysOpen (quotesOf c triple) skip t := by
  -- A respelled quote neither closes the literal nor is it a line break.
  have hother {d : Char} (hd : d ∈ qs) (v : Text) :
      staysOpen (quotesOf c triple) 0 (d :: v) = staysOpen (quotesOf c triple) 0 v := by
    obtain ⟨hescape, hbreak, -⟩ := quote_facts (hqs d hd)
    have hne : d ≠ c := by
      rintro rfl
      exact hmem hd
    exact staysOpen_of_ne hescape hne hbreak v
  have hplain {d : Char} (hd : d ∈ qs) (v : Text) : ¬ splitsBreak d v := by
    rintro ⟨rfl, -⟩
    exact absurd (hqs _ hd) (by decide)
  induction h generalizing skip with
  | nil => rfl
  | backslash => rfl
  | @char d t u hd h ih =>
      cases skip with
      | succ skip => exact ih fun e he => hskip e (by simp [he])
      | zero =>
          have hprefix : (quotesOf c triple).isPrefixOf (d :: (u ++ quotesOf c triple)) =
              (quotesOf c triple).isPrefixOf (d :: (t ++ quotesOf c triple)) := by
            rw [quotesOf_cons, List.isPrefixOf, List.isPrefixOf, h.isPrefixOf_replicate hc hmem]
          rw [Bool.eq_iff_iff, staysOpen_char hd, staysOpen_char hd, hprefix, @ih 0 (by simp)]
  | @escape d t u h ih =>
      cases skip with
      | succ skip => exact absurd rfl (hskip '\\' (by simp)).2
      | zero =>
          by_cases hsplits : splitsBreak d t
          · obtain ⟨rfl, hhead⟩ := hsplits
            obtain ⟨t', rfl⟩ := List.head?_eq_some_iff.mp hhead
            obtain ⟨u', rfl⟩ := List.head?_eq_some_iff.mp ((h.head?_lineFeed hqs).mpr hhead)
            have hrest := @ih 1 (by simp [IsStill]; decide)
            rw [staysOpen_lineBreak, staysOpen_lineBreak]
            exact hrest
          · have hsplits' : ¬ splitsBreak d u := fun hsplit =>
              hsplits ⟨hsplit.1, (h.head?_lineFeed hqs).mp hsplit.2⟩
            rw [staysOpen_escape _ hsplits, staysOpen_escape _ hsplits', @ih 0 (by simp)]
  | @gain d t u hd h ih =>
      cases skip with
      | succ skip => exact absurd (hqs d hd) (by simp [(hskip d (by simp)).1])
      | zero => rw [staysOpen_escape _ (hplain hd u), hother hd, @ih 0 (by simp)]
  | @lose d t u hd h ih =>
      cases skip with
      | succ skip => exact absurd rfl (hskip '\\' (by simp)).2
      | zero => rw [staysOpen_escape _ (hplain hd t), hother hd, @ih 0 (by simp)]

end Closing

/-! ## Quotes in front of a body -/

theorem Respelled.head?_ne {qs t u : Text} (h : Respelled qs t u) {c : Char} (hc : c ≠ '\\')
    (hmem : c ∉ qs) (hhead : t.head? ≠ some c) : u.head? ≠ some c := by
  cases h with
  | nil => exact hhead
  | backslash => exact hhead
  | char => simpa using hhead
  | escape => simpa using hhead
  | gain => simpa using hc.symm
  | lose hd =>
      rw [List.head?_cons, ne_eq, Option.some.injEq]
      rintro rfl
      exact hmem hd

theorem head?_respell_ne {c : Char} (hc : isQuote c = true) (t : Text) :
    (respell (setEscape c true) t).head? ≠ some c := by
  have hescape : '\\' ≠ c := (quote_facts hc).1.symm
  fun_cases respell (setEscape c true) t with
  | case1 => simp
  | case2 d ds => simpa [setEscape] using hescape
  | case3 d ds =>
      by_cases hd : d = c
      · subst hd
        simpa [setEscape, hc] using hescape
      · simp [setEscape, hd]

theorem occurrences_escaped_le (c : Char) (t : Text) :
    occurrences ['\\', c] t ≤ occurrences [c] t := by
  induction hlength : t.length using Nat.strongRecOn generalizing t with
  | ind length ih =>
      subst hlength
      cases t with
      | nil => simp [occurrences]
      | cons d ds =>
          have hrest := ih ds.length (by simp) ds rfl
          have hplain : occurrences [c] ds ≤ occurrences [c] (d :: ds) := by
            rw [occurrences]
            split <;> simp
          by_cases hd : ['\\', c].isPrefixOf (d :: ds) = true
          · obtain ⟨es, hes⟩ := List.isPrefixOf_iff_prefix.mp hd
            obtain ⟨rfl, rfl⟩ : '\\' = d ∧ c :: es = ds := by simpa using hes
            have hbehind := ih es.length (by simp only [List.length_cons]; omega) es rfl
            have hfirst :
                occurrences ['\\', c] ('\\' :: c :: es) = occurrences ['\\', c] es + 1 := by
              rw [occurrences, if_pos hd]
              rfl
            have hsecond : occurrences [c] (c :: es) = occurrences [c] es + 1 := by
              rw [occurrences, if_pos (by simp [List.isPrefixOf])]
              rfl
            omega
          · rw [occurrences, if_neg hd]
            omega

theorem head?_ne_of_occurrences {c : Char} (hc : c ≠ '\\') {t : Text}
    (h : occurrences [c] t = occurrences ['\\', c] t) : t.head? ≠ some c := by
  cases t with
  | nil => simp
  | cons d ds =>
      rw [List.head?_cons, ne_eq, Option.some.injEq]
      rintro rfl
      have hle := occurrences_escaped_le d ds
      simp [occurrences, List.isPrefixOf, hc.symm] at h
      omega

end SchemaTidy
