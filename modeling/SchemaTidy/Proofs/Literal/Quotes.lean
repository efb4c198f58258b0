import Mathlib.Data.List.Chain
import SchemaTidy.Proofs.Literal.Respelled

/-!
# Respelling the quotes of a body

A quote in a body can be written with a backslash or without one. Two passes over a body flip the
backslashes of all quotes, although each of them misses a quote that follows a flipped one. Whatever
is respelled, the body means the same, and it is a body between quotes that have their backslashes.
-/

namespace SchemaTidy

/-- Respells the quotes of a body. `rule` says whether a quote gets a backslash, given whether it had
one. -/
def respell (rule : Char → Bool → Bool) : Text → Text
  | [] => []
  | '\\' :: c :: cs =>
      (if isQuote c && !rule c true then [c] else ['\\', c]) ++ respell rule cs
  | c :: cs => (if isQuote c && rule c false then ['\\', c] else [c]) ++ respell rule cs

theorem respell_escape (rule : Char → Bool → Bool) (c : Char) (cs : Text) :
    respell rule ('\\' :: c :: cs) =
      (if isQuote c && !rule c true then [c] else ['\\', c]) ++ respell rule cs := by
  rw [respell]

theorem respell_cons (rule : Char → Bool → Bool) {c : Char} (hc : c ≠ '\\') (cs : Text) :
    respell rule (c :: cs) =
      (if isQuote c && rule c false then ['\\', c] else [c]) ++ respell rule cs := by
  rw [respell]
  intro d ds hd
  exact absurd hd hc

theorem respell_lineBreak (rule : Char → Bool → Bool) (cs : Text) :
    respell rule ('\\' :: '\r' :: '\n' :: cs) = '\\' :: '\r' :: '\n' :: respell rule cs := by
  rw [respell_escape, respell_cons rule (by decide)]
  rfl

theorem isQuote_backslash : isQuote '\\' = false := by decide

theorem respell_respell (first second : Char → Bool → Bool) (t : Text) :
    respell second (respell first t) = respell (fun c e => second c (first c e)) t := by
  fun_induction respell first t with
  | case1 => rfl
  | case2 c cs ih =>
      rw [respell_escape]
      split
      · rename_i hfirst
        rw [Bool.and_eq_true, Bool.not_eq_true'] at hfirst
        have hc : c ≠ '\\' := by
          rintro rfl
          exact absurd hfirst.1 (by decide)
        rw [List.singleton_append, respell_cons second hc, ih, hfirst.1, hfirst.2]
        simp only [Bool.true_and]
        cases second c false <;> rfl
      · rename_i hfirst
        have hrule : isQuote c = true → first c true = true := by simpa using hfirst
        rw [List.cons_append, List.singleton_append, respell_escape, ih]
        cases hq : isQuote c with
        | false => rfl
        | true => rw [hrule hq]
  | case3 c cs hescape ih =>
      by_cases hc : c = '\\'
      · -- A backslash at the end of the text.
        subst hc
        cases cs with
        | nil => rfl
        | cons d ds => exact absurd rfl (hescape d ds rfl)
      · rw [respell_cons _ hc]
        split
        · rename_i hfirst
          rw [Bool.and_eq_true] at hfirst
          rw [List.cons_append, List.singleton_append, respell_escape, ih, hfirst.1, hfirst.2]
          simp only [Bool.true_and]
          cases second c true <;> rfl
        · rename_i hfirst
          have hrule : isQuote c = true → first c false = false := by simpa using hfirst
          rw [List.singleton_append, respell_cons second hc, ih]
          cases hq : isQuote c with
          | false => rfl
          | true => rw [hrule hq]

/-! ## Flipping the backslashes of quotes -/

/-- The rule that gives a quote a backslash, or takes it, and leaves the other quote. -/
def setEscape (q : Char) (escaped : Bool) (c : Char) (before : Bool) : Bool :=
  if c = q then escaped else before

/-- Backslashes and the character behind them. -/
structure Segment where
  count : Nat
  char : Char
  char_ne : char ≠ '\\'

namespace Segment

def text (s : Segment) : Text := List.replicate s.count '\\' ++ [s.char]

/-- Whether a segment is a quote `q` with a backslash of its own or, if not `escaped`, without. -/
def isTarget (escaped : Bool) (q : Char) (s : Segment) : Bool :=
  (s.count % 2 == 1) == escaped && s.char == q

def flip (escaped : Bool) (s : Segment) : Segment :=
  { s with count := if escaped then s.count - 1 else s.count + 1 }

def flipIf (escaped : Bool) (q : Char) (s : Segment) : Segment :=
  if s.isTarget escaped q then s.flip escaped else s

theorem isTarget_flip {escaped : Bool} {q : Char} {s : Segment} (h : s.isTarget escaped q = true) :
    (s.flip escaped).isTarget escaped q = false := by
  simp only [isTarget, Bool.and_eq_true, beq_iff_eq] at h
  cases escaped with
  | false =>
      have hodd : (s.count + 1) % 2 = 1 := by
        have heven : s.count % 2 ≠ 1 := by simpa using h.1
        omega
      simp [isTarget, flip, hodd]
  | true =>
      have heven : (s.count - 1) % 2 ≠ 1 := by
        have hodd : s.count % 2 = 1 := by simpa using h.1
        omega
      simp [isTarget, flip, heven]

end Segment

def segmentsText (segments : List Segment) (tail : Nat) : Text :=
  segments.flatMap Segment.text ++ List.replicate tail '\\'

theorem segmentsText_nil (tail : Nat) : segmentsText [] tail = List.replicate tail '\\' := rfl

theorem segmentsText_cons (s : Segment) (ss : List Segment) (tail : Nat) :
    segmentsText (s :: ss) tail =
      List.replicate s.count '\\' ++ s.char :: segmentsText ss tail := by
  simp [segmentsText, Segment.text]

theorem exists_segments (t : Text) : ∃ ss tail, t = segmentsText ss tail := by
  induction t with
  | nil => exact ⟨[], 0, rfl⟩
  | cons c t ih =>
      obtain ⟨ss, tail, rfl⟩ := ih
      by_cases hc : c = '\\'
      · subst hc
        cases ss with
        | nil => exact ⟨[], tail + 1, by simp [segmentsText_nil, List.replicate_succ]⟩
        | cons s ss =>
            refine ⟨{ s with count := s.count + 1 } :: ss, tail, ?_⟩
            simp [segmentsText_cons, List.replicate_succ]
      · exact ⟨⟨0, c, hc⟩ :: ss, tail, by simp [segmentsText_cons]⟩

theorem backslashes_replicate (n : Nat) {t : Text} (h : t.head? ≠ some '\\') :
    backslashes (List.replicate n '\\' ++ t) = n := by
  have ht : t.takeWhile (· == '\\') = [] := by
    cases t with
    | nil => rfl
    | cons c t =>
        have hc : c ≠ '\\' := by simpa using h
        simp [hc]
  rw [backslashes, Text.lengthWhile, List.takeWhile_append_of_pos (by simp), ht]
  simp

section Passes

variable (escaped : Bool) (q : Char)

theorem quoteFollows_segmentsText (ss : List Segment) (tail : Nat) :
    quoteFollows escaped [q] (segmentsText ss tail) = ss.head?.any (Segment.isTarget escaped q) := by
  cases ss with
  | nil =>
      have htail := backslashes_replicate tail (t := []) (by simp)
      rw [List.append_nil] at htail
      simp [segmentsText_nil, quoteFollows, htail]
  | cons s ss =>
      have hcount := backslashes_replicate s.count (t := s.char :: segmentsText ss tail)
        (by simpa using s.char_ne)
      rw [segmentsText_cons, quoteFollows, hcount]
      simp [Segment.isTarget, List.isPrefixOf, BEq.comm (a := q)]

/-- One pass over segments. Behind an anchor a target is flipped, and the next segment has no anchor
then. -/
def sweep : Bool → List Segment → List Segment
  | _, [] => []
  | true, s :: ss =>
      if s.isTarget escaped q then s.flip escaped :: sweep false ss else s :: sweep true ss
  | false, s :: ss => s :: sweep true ss

theorem flipQuotesFrom_backslashes (n : Nat) (t : Text) :
    flipQuotesFrom escaped [q] false (List.replicate n '\\' ++ t) =
      List.replicate n '\\' ++ flipQuotesFrom escaped [q] false t := by
  induction n with
  | zero => rfl
  | succ n ih =>
      rw [List.replicate_succ, List.cons_append, flipQuotesFrom]
      simp [ih]

theorem flipEscape_segmentsText {s : Segment} (h : s.isTarget escaped q = true) (ss : List Segment)
    (tail : Nat) :
    flipEscape escaped [q] (segmentsText (s :: ss) tail) = (s.flip escaped).text ∧
      (segmentsText (s :: ss) tail).drop (backslashes (segmentsText (s :: ss) tail) + 1) =
        segmentsText ss tail := by
  have hcount := backslashes_replicate s.count (t := s.char :: segmentsText ss tail)
    (by simpa using s.char_ne)
  have hchar : s.char = q := by
    simp only [Segment.isTarget, Bool.and_eq_true, beq_iff_eq] at h
    exact h.2
  subst hchar
  rw [segmentsText_cons, flipEscape, hcount]
  constructor
  · rfl
  · simp [List.drop_append]

theorem flipQuotesFrom_segmentsText (ss : List Segment) (tail : Nat) :
    flipQuotesFrom escaped [q] false (segmentsText ss tail) =
      segmentsText (sweep escaped q false ss) tail := by
  induction hlength : ss.length using Nat.strongRecOn generalizing ss with
  | ind length ih =>
      cases ss with
      | nil =>
          have htail := flipQuotesFrom_backslashes escaped q tail []
          rw [List.append_nil, flipQuotesFrom, List.append_nil] at htail
          rw [sweep, segmentsText_nil, htail]
      | cons s ss =>
          rw [List.length_cons] at hlength
          rw [sweep, segmentsText_cons, segmentsText_cons, flipQuotesFrom_backslashes, flipQuotesFrom]
          have hchar : (s.char != '\\') = true := by simpa using s.char_ne
          rw [hchar, Bool.true_and, quoteFollows_segmentsText]
          cases ss with
          | nil =>
              have hrest := ih 0 (by omega) [] rfl
              rw [sweep] at hrest ⊢
              simp [hrest]
          | cons s' ss =>
              rw [List.length_cons] at hlength
              by_cases htarget : s'.isTarget escaped q = true
              · obtain ⟨hflip, hdrop⟩ := flipEscape_segmentsText escaped q htarget ss tail
                have hrest := ih ss.length (by omega) ss rfl
                have hswept : segmentsText (s'.flip escaped :: sweep escaped q false ss) tail =
                    (s'.flip escaped).text ++ segmentsText (sweep escaped q false ss) tail := by
                  simp [segmentsText]
                simp [htarget, sweep, hflip, hdrop, hrest, hswept]
              · have hrest := ih (ss.length + 1) (by omega) (s' :: ss) rfl
                simp [htarget, hrest, sweep]

/-- The start of a text serves as an anchor, unless the first character is one. -/
theorem flipQuotesFrom_true (c : Char) (cs : Text) :
    flipQuotesFrom escaped [q] true (c :: cs) =
      if !(c != '\\' && quoteFollows escaped [q] cs) && quoteFollows escaped [q] (c :: cs) then
        flipEscape escaped [q] (c :: cs) ++
          flipQuotesFrom escaped [q] false ((c :: cs).drop (backslashes (c :: cs) + 1))
      else flipQuotesFrom escaped [q] false (c :: cs) := by
  rw [flipQuotesFrom, flipQuotesFrom]
  cases c != '\\' && quoteFollows escaped [q] cs with
  | true => simp
  | false => simp

theorem flipQuotesFrom_start (ss : List Segment) (tail : Nat) :
    ∃ anchored, flipQuotesFrom escaped [q] true (segmentsText ss tail) =
        segmentsText (sweep escaped q anchored ss) tail ∧
      (anchored = true ∨ ∃ s s' rest, ss = s :: s' :: rest ∧ s'.isTarget escaped q = true) := by
  have hfalse := flipQuotesFrom_segmentsText escaped q ss tail
  have hfollows := quoteFollows_segmentsText escaped q ss tail
  cases ht : segmentsText ss tail with
  | nil =>
      refine ⟨true, ?_, .inl rfl⟩
      cases ss with
      | nil => rw [sweep, ht, flipQuotesFrom]
      | cons s ss => simp [segmentsText_cons] at ht
  | cons c cs =>
      rw [ht] at hfalse hfollows
      rw [flipQuotesFrom_true, hfollows]
      cases ss with
      | nil =>
          refine ⟨true, ?_, .inl rfl⟩
          simpa [sweep] using hfalse
      | cons s ss =>
          rw [List.head?_cons, Option.any_some]
          by_cases htarget : s.isTarget escaped q = true
          · cases hanchor : c != '\\' && quoteFollows escaped [q] cs with
            | true =>
                refine ⟨false, by simpa using hfalse, .inr ?_⟩
                rw [Bool.and_eq_true, bne_iff_ne] at hanchor
                have hcs : cs = segmentsText ss tail := by
                  rw [segmentsText_cons] at ht
                  cases hcount : s.count with
                  | zero =>
                      rw [hcount] at ht
                      exact (List.cons.inj ht).2.symm
                  | succ n =>
                      rw [hcount, List.replicate_succ] at ht
                      exact absurd (List.cons.inj ht).1.symm hanchor.1
                rw [hcs, quoteFollows_segmentsText, Option.any_eq_true] at hanchor
                obtain ⟨-, s', hs', htarget'⟩ := hanchor
                obtain ⟨rest, rfl⟩ := List.head?_eq_some_iff.mp hs'
                exact ⟨s, s', rest, rfl, htarget'⟩
            | false =>
                refine ⟨true, ?_, .inl rfl⟩
                obtain ⟨hflip, hdrop⟩ := flipEscape_segmentsText escaped q htarget ss tail
                rw [← ht, hflip, hdrop, flipQuotesFrom_segmentsText]
                simp [htarget, sweep, segmentsText]
          · refine ⟨true, ?_, .inl rfl⟩
            simpa [htarget, sweep] using hfalse

def Isolated : List Segment → Prop :=
  List.IsChain fun s s' => ¬ (s.isTarget escaped q = true ∧ s'.isTarget escaped q = true)

theorem head?_sweep_true (ss : List Segment) :
    ∀ s ∈ (sweep escaped q true ss).head?, s.isTarget escaped q = false := by
  intro s hs
  cases ss with
  | nil => simp [sweep] at hs
  | cons s' ss =>
      rw [sweep] at hs
      split at hs
      · rename_i htarget
        obtain rfl : s'.flip escaped = s := by simpa using hs
        exact Segment.isTarget_flip htarget
      · rename_i htarget
        obtain rfl : s' = s := by simpa using hs
        simpa using htarget

theorem isolated_sweep (anchored : Bool) (ss : List Segment) :
    Isolated escaped q (sweep escaped q anchored ss) := by
  induction ss generalizing anchored with
  | nil => simp [sweep, Isolated]
  | cons s ss ih =>
      cases anchored with
      | true =>
          rw [sweep]
          split
          · rename_i htarget
            rw [Isolated, List.isChain_cons]
            refine ⟨fun s' _ => ?_, ih false⟩
            simp [Segment.isTarget_flip htarget]
          · rename_i htarget
            rw [Isolated, List.isChain_cons]
            exact ⟨fun s' _ => by simp [htarget], ih true⟩
      | false =>
          rw [sweep, Isolated, List.isChain_cons]
          exact ⟨fun s' hs' => by simp [head?_sweep_true escaped q ss s' hs'], ih true⟩

/-- A sweep flips all targets if they are isolated. -/
theorem sweep_of_isolated {anchored : Bool} {ss : List Segment} (h : Isolated escaped q ss)
    (hstart : anchored = true ∨ ∀ s ∈ ss.head?, s.isTarget escaped q = false) :
    sweep escaped q anchored ss = ss.map (Segment.flipIf escaped q) := by
  induction ss generalizing anchored with
  | nil => rfl
  | cons s ss ih =>
      rw [Isolated, List.isChain_cons] at h
      by_cases htarget : s.isTarget escaped q = true
      · obtain rfl : anchored = true := by
          rcases hstart with hstart | hstart
          · exact hstart
          · exact absurd htarget (by simp [hstart s (by simp)])
        have hnext : ∀ s' ∈ ss.head?, s'.isTarget escaped q = false := by
          intro s' hs'
          simpa [htarget] using h.1 s' hs'
        rw [sweep, if_pos htarget, ih h.2 (.inr hnext), List.map_cons, Segment.flipIf, if_pos htarget]
      · have hsame : sweep escaped q anchored (s :: ss) = s :: sweep escaped q true ss := by
          cases anchored with
          | true => rw [sweep, if_neg htarget]
          | false => rw [sweep]
        rw [hsame, ih h.2 (.inl rfl), List.map_cons, Segment.flipIf, if_neg htarget]

theorem map_flipIf_sweep (anchored : Bool) (ss : List Segment) :
    (sweep escaped q anchored ss).map (Segment.flipIf escaped q) =
      ss.map (Segment.flipIf escaped q) := by
  induction ss generalizing anchored with
  | nil => rfl
  | cons s ss ih =>
      cases anchored with
      | true =>
          rw [sweep]
          split
          · rename_i htarget
            rw [List.map_cons, ih, List.map_cons, Segment.flipIf, Segment.isTarget_flip htarget,
              Segment.flipIf, if_pos htarget]
            simp
          · rw [List.map_cons, ih, List.map_cons]
      | false => rw [sweep, List.map_cons, ih, List.map_cons]

theorem flipQuotes_segmentsText (ss : List Segment) (tail : Nat) :
    flipQuotes escaped [q] (segmentsText ss tail) =
      segmentsText (ss.map (Segment.flipIf escaped q)) tail := by
  obtain ⟨anchored, hfirst, -⟩ := flipQuotesFrom_start escaped q ss tail
  obtain ⟨anchored', hsecond, hstart⟩ :=
    flipQuotesFrom_start escaped q (sweep escaped q anchored ss) tail
  have hisolated := isolated_sweep escaped q anchored ss
  rw [flipQuotes, hfirst, hsecond, sweep_of_isolated escaped q hisolated, map_flipIf_sweep]
  rcases hstart with hstart | ⟨s, s', rest, hss, htarget⟩
  · exact .inl hstart
  · -- The segment before a target is none.
    right
    rw [hss, Isolated, List.isChain_cons] at hisolated
    rw [hss]
    simpa [htarget] using hisolated.1 s' (by simp)

theorem respell_backslashes (rule : Char → Bool → Bool) (n : Nat) (t : Text) :
    respell rule (List.replicate (2 * n) '\\' ++ t) =
      List.replicate (2 * n) '\\' ++ respell rule t := by
  induction n with
  | zero => rfl
  | succ n ih =>
      rw [show 2 * (n + 1) = 2 * n + 1 + 1 by omega, List.replicate_succ, List.replicate_succ,
        List.cons_append, List.cons_append, respell_escape, isQuote_backslash, ih]
      rfl

theorem respell_segment (hq : isQuote q = true) (s : Segment) (t : Text) :
    respell (setEscape q !escaped) (s.text ++ t) =
      (s.flipIf escaped q).text ++ respell (setEscape q !escaped) t := by
  obtain ⟨count, c, hc⟩ := s
  obtain ⟨n, rfl | rfl⟩ : ∃ n, count = 2 * n ∨ count = 2 * n + 1 := ⟨count / 2, by omega⟩
  · -- The quote has no backslash of its own.
    rw [Segment.text, List.append_assoc, respell_backslashes, List.singleton_append,
      respell_cons _ hc]
    by_cases hcq : c = q
    · subst hcq
      cases escaped with
      | false => simp [setEscape, hq, Segment.flipIf, Segment.isTarget, Segment.flip, Segment.text,
          List.replicate_succ']
      | true => simp [setEscape, Segment.flipIf, Segment.isTarget, Segment.text]
    · simp [setEscape, hcq, Segment.flipIf, Segment.isTarget, Segment.text]
  · have hodd : (2 * n + 1) % 2 = 1 := by omega
    rw [Segment.text, List.replicate_succ', List.append_assoc, List.append_assoc,
      respell_backslashes, List.singleton_append, List.singleton_append, respell_escape]
    by_cases hcq : c = q
    · subst hcq
      cases escaped with
      | false => simp [setEscape, Segment.flipIf, Segment.isTarget, Segment.text, hodd,
          List.replicate_succ']
      | true => simp [setEscape, hq, Segment.flipIf, Segment.isTarget, Segment.flip, Segment.text, hodd]
    · simp [setEscape, hcq, Segment.flipIf, Segment.isTarget, Segment.text, List.replicate_succ']

theorem respell_segmentsText (hq : isQuote q = true) (ss : List Segment) (tail : Nat) :
    respell (setEscape q !escaped) (segmentsText ss tail) =
      segmentsText (ss.map (Segment.flipIf escaped q)) tail := by
  induction ss with
  | nil =>
      rw [List.map_nil, segmentsText_nil]
      obtain ⟨n, rfl | rfl⟩ : ∃ n, tail = 2 * n ∨ tail = 2 * n + 1 := ⟨tail / 2, by omega⟩
      · simpa [respell] using respell_backslashes (setEscape q !escaped) n []
      · simpa [respell, isQuote_backslash, List.replicate_succ'] using
          respell_backslashes (setEscape q !escaped) n ['\\']
  | cons s ss ih =>
      have hcons (s : Segment) (ss : List Segment) :
          segmentsText (s :: ss) tail = s.text ++ segmentsText ss tail := by
        simp [segmentsText]
      rw [hcons, respell_segment escaped q hq, ih, List.map_cons, hcons]

/-- Two passes respell every quote. -/
theorem flipQuotes_eq_respell (hq : isQuote q = true) (t : Text) :
    flipQuotes escaped [q] t = respell (setEscape q !escaped) t := by
  obtain ⟨ss, tail, rfl⟩ := exists_segments t
  rw [flipQuotes_segmentsText, respell_segmentsText escaped q hq]

end Passes

/-! ## What respelling keeps -/

theorem isBody_respell {rule : Char → Bool → Bool} {q q' : Char} (hq' : isQuote q' = true)
    (hkeep : rule q' true = true) (hnew : q = q' ∨ rule q' false = true) {t : Text}
    (h : IsBody q t) : IsBody q' (respell rule t) := by
  induction h with
  | nil => exact .nil
  | @char c cs hescape hquote hbreak hcs ih =>
      rw [respell_cons rule hescape]
      split
      · exact .escape c ih
      · rename_i hbare
        refine .char hescape ?_ hbreak ih
        rintro rfl
        rcases hnew with hsame | hnew
        · exact hquote hsame.symm
        · exact hbare (by simp [hq', hnew])
  | @escape c cs hcs ih =>
      rw [respell_escape]
      split
      · rename_i hbare
        rw [Bool.and_eq_true, Bool.not_eq_true'] at hbare
        obtain ⟨hescape, hbreak, -⟩ := quote_facts hbare.1
        refine .char hescape ?_ hbreak ih
        rintro rfl
        exact absurd (hkeep.symm.trans hbare.2) (by simp)
      · exact .escape c ih
  | @lineBreak cs hcs ih =>
      rw [respell_lineBreak]
      exact .lineBreak ih

theorem areQuotes_both : AreQuotes ['"', '\''] := by
  simp [AreQuotes, isQuote]

theorem respelled_respell (rule : Char → Bool → Bool) (t : Text) :
    Respelled ['"', '\''] t (respell rule t) := by
  have hmem {c : Char} (hc : isQuote c = true) : c ∈ ['"', '\''] := by
    simpa using isQuote_iff.mp hc
  fun_induction respell rule t with
  | case1 => exact .nil
  | case2 c cs ih =>
      split
      · rename_i hbare
        rw [Bool.and_eq_true] at hbare
        exact .lose (hmem hbare.1) ih
      · exact .escape c ih
  | case3 c cs hescape ih =>
      split
      · rename_i hgain
        rw [Bool.and_eq_true] at hgain
        exact .gain (hmem hgain.1) ih
      · by_cases hc : c = '\\'
        · -- A backslash at the end of the text.
          subst hc
          cases cs with
          | nil => exact .backslash
          | cons d ds => exact absurd rfl (hescape d ds rfl)
        · exact .char hc ih

theorem decode_respell (named : Text → Option Nat) (bytes : Bool) (rule : Char → Bool → Bool)
    (t : Text) : decode named bytes 0 (respell rule t) = decode named bytes 0 t :=
  (respelled_respell rule t).decode areQuotes_both named bytes (by simp)

end SchemaTidy
