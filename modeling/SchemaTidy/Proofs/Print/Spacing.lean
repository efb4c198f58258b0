import SchemaTidy.Proofs.Print.Flat

/-!
# Words without a blank between them

The spacer leaves out a blank before brackets and some operators, and behind some operators. A word
that is followed without a blank is still a token by itself unless the two fuse: a number and a point,
a point and a digit, or operators that together start with a longer one.
-/

namespace SchemaTidy

def startsNumber : Text → Bool
  | c :: cs => c.isDigit || (c == '.' && cs.head?.any Char.isDigit)
  | [] => false

/-- Whether a word that stands directly before a text is no token of its own there. -/
def fuses (w x : Text) : Bool :=
  (startsNumber w && x.head? == some '.') || (w == ['.'] && x.head?.any Char.isDigit) ||
    Lexeme.longOperators.any fun op =>
      w.length < op.length && w.isPrefixOf op && op.isPrefixOf (w ++ x)

namespace Lexeme

/-- Whether a character starts no word, literal or trivia. -/
def isPlain (c : Char) : Bool :=
  !Text.isIndent c && c != '\\' && c != '#' && !Text.isLineBreak c && !Text.isWordStart c &&
    c != '"' && c != '\''

theorem scan_op_iff {inBrackets : Bool} {here : Position} {c : Char} {cs : Text} {n : Nat} :
    scan inBrackets here c cs = .ok (.token .op, n) ↔
      isPlain c = true ∧ startsNumber (c :: cs) = false ∧
        operatorLength? (c :: cs) = some (n + 1) := by
  constructor
  · intro h
    unfold scan at h
    split at h
    · cases h
    rename_i hindent
    split at h
    · split at h
      · cases h
      · split at h <;> cases h
    rename_i hslash
    split at h
    · cases h
    rename_i hcomment
    split at h
    · cases inBrackets <;> simp at h
    rename_i hbreak
    split at h
    · simp only at h
      split at h
      · split at h
        · obtain ⟨m, -, hpair⟩ := exists_of_map_eq_ok h
          simp at hpair
        · simp at h
      · simp at h
    rename_i hword
    split at h
    · obtain ⟨m, -, hpair⟩ := exists_of_map_eq_ok h
      simp at hpair
    rename_i hquote
    split at h
    · simp at h
    rename_i hnumber
    split at h
    · rename_i m hm
      have hpos := operatorLength?_pos hm
      simp only [Except.ok.injEq, Prod.mk.injEq, true_and] at h
      refine ⟨?_, by simpa [startsNumber] using hnumber, ?_⟩
      · simp only [Bool.or_eq_true, beq_iff_eq, not_or] at hquote
        simp only [beq_iff_eq] at hslash hcomment
        simp [isPlain, hindent, hslash, hcomment, hbreak, hword, hquote]
      · rw [hm]
        congr 1
        omega
    · cases h
  · rintro ⟨hplain, hnumber, hoperator⟩
    simp only [isPlain, Bool.and_eq_true, Bool.not_eq_true', bne_iff_ne, ne_eq] at hplain
    obtain ⟨⟨⟨⟨⟨⟨hindent, hslash⟩, hcomment⟩, hbreak⟩, hword⟩, hdouble⟩, hsingle⟩ := hplain
    have hnumber' : (c.isDigit || (c == '.' && cs.head?.any Char.isDigit)) = false := hnumber
    simp [scan, hindent, hslash, hcomment, hbreak, hword, hdouble, hsingle, hnumber', hoperator]

theorem find?_congr {α : Type} {p q : α → Bool} {xs : List α} (h : ∀ x ∈ xs, p x = q x) :
    xs.find? p = xs.find? q := by
  induction xs with
  | nil => rfl
  | cons x xs ih =>
      rw [List.find?_cons, List.find?_cons, h x (by simp), ih fun y hy => h y (by simp [hy])]

theorem operatorLength?_append_of_not_fuses {w x : Text} (hw : w ≠ []) (h : fuses w x = false) :
    operatorLength? (w ++ x) = operatorLength? w := by
  have hsame : ∀ op ∈ longOperators, op.isPrefixOf (w ++ x) = op.isPrefixOf w := by
    intro op hop
    rw [Bool.eq_iff_iff, List.isPrefixOf_iff_prefix, List.isPrefixOf_iff_prefix]
    refine ⟨fun hstarts => ?_, fun hstarts => hstarts.trans (List.prefix_append w x)⟩
    by_cases hlong : w.length < op.length
    · exfalso
      have hw' : w <+: op :=
        List.prefix_of_prefix_length_le (List.prefix_append w x) hstarts (Nat.le_of_lt hlong)
      have hfuse : fuses w x = true := by
        simp only [fuses, Bool.or_eq_true, List.any_eq_true, Bool.and_eq_true, decide_eq_true_eq]
        exact .inr ⟨op, hop, ⟨hlong, List.isPrefixOf_iff_prefix.mpr hw'⟩,
          List.isPrefixOf_iff_prefix.mpr hstarts⟩
      simp [h] at hfuse
    · exact List.prefix_of_prefix_length_le hstarts (List.prefix_append w x) (by omega)
  unfold operatorLength?
  rw [find?_congr hsame]
  obtain ⟨c, cs, rfl⟩ := List.exists_cons_of_ne_nil hw
  rfl

theorem Cuts.op_before {w x : Text} (hw : Cuts .op w []) (h : fuses w x = false) : Cuts .op w x := by
  obtain ⟨hkind, c, cs, rfl, hscan⟩ := hw
  refine ⟨hkind, c, cs, rfl, fun inBrackets here => ?_⟩
  have hop := hscan inBrackets here
  rw [List.append_nil, scan_op_iff] at hop
  obtain ⟨hplain, hnumber, hoperator⟩ := hop
  refine scan_op_iff.mpr ⟨hplain, ?_, ?_⟩
  · cases cs with
    | cons d cs => exact hnumber
    | nil =>
        have hpoint : ((c :: []) == ['.'] && x.head?.any Char.isDigit) = false := by
          simp only [fuses, Bool.or_eq_false_iff] at h
          exact h.1.2
        simp only [startsNumber, List.head?_nil, Option.any_none, Bool.and_false, Bool.or_false]
          at hnumber
        simpa [startsNumber, hnumber] using hpoint
  · rw [← List.cons_append, operatorLength?_append_of_not_fuses (by simp) h]
    exact hoperator

theorem startsNumber_of_cuts {w x : Text} (h : Cuts .number w x) : startsNumber (w ++ x) = true := by
  obtain ⟨-, c, cs, rfl, hscan⟩ := h
  have hscan := hscan true .start
  unfold scan at hscan
  split at hscan
  · cases hscan
  split at hscan
  · split at hscan
    · cases hscan
    · split at hscan <;> cases hscan
  split at hscan
  · cases hscan
  split at hscan
  · cases hscan
  split at hscan
  · simp only at hscan
    split at hscan
    · split at hscan
      · obtain ⟨m, -, hpair⟩ := exists_of_map_eq_ok hscan
        simp at hpair
      · simp at hscan
    · simp at hscan
  split at hscan
  · obtain ⟨m, -, hpair⟩ := exists_of_map_eq_ok hscan
    simp at hpair
  split at hscan
  · rename_i hnumber
    exact hnumber
  · split at hscan <;> simp at hscan

theorem isPlain_of_startsNumber {c : Char} {cs : Text} (h : startsNumber (c :: cs) = true) :
    isPlain c = true ∧ isNumberTail c = true := by
  simp only [startsNumber, Bool.or_eq_true, Bool.and_eq_true, beq_iff_eq] at h
  rcases h with hdigit | ⟨rfl, -⟩
  · exact ⟨forall_digit isPlain (by decide) hdigit, forall_digit isNumberTail (by decide) hdigit⟩
  · decide

theorem scan_number {inBrackets : Bool} {here : Position} {c : Char} {cs : Text}
    (h : startsNumber (c :: cs) = true) :
    scan inBrackets here c cs = .ok (.token .number, numberLength (c :: cs) - 1) := by
  obtain ⟨hplain, -⟩ := isPlain_of_startsNumber h
  simp only [isPlain, Bool.and_eq_true, Bool.not_eq_true', bne_iff_ne, ne_eq] at hplain
  obtain ⟨⟨⟨⟨⟨⟨hindent, hslash⟩, hcomment⟩, hbreak⟩, hword⟩, hdouble⟩, hsingle⟩ := hplain
  have hnumber : (c.isDigit || (c == '.' && cs.head?.any Char.isDigit)) = true := h
  simp [scan, hindent, hslash, hcomment, hbreak, hword, hdouble, hsingle, hnumber]

/-- The lexer takes the longest operator that a text starts with. -/
theorem le_operatorLength? {op t : Text} (hop : op ∈ longOperators) (h : op <+: t) :
    ∃ n, operatorLength? t = some n ∧ op.length ≤ n := by
  have hsorted : longOperators.Pairwise fun a b => b.length ≤ a.length := by decide
  cases hfind : longOperators.find? (·.isPrefixOf t) with
  | none =>
      have hnot := List.find?_eq_none.mp hfind op hop
      exact absurd (List.isPrefixOf_iff_prefix.mpr h) hnot
  | some longest =>
      refine ⟨longest.length, by simp only [operatorLength?, hfind], ?_⟩
      obtain ⟨-, before, behind, hsplit, hbefore⟩ := List.find?_eq_some_iff_append.mp hfind
      rw [hsplit] at hop hsorted
      rcases List.mem_append.mp hop with hop | hop
      · have hnot := hbefore op hop
        simp [List.isPrefixOf_iff_prefix.mpr h] at hnot
      rcases List.mem_cons.mp hop with rfl | hop
      · exact Nat.le_refl _
      · exact (List.pairwise_cons.mp (List.pairwise_append.mp hsorted).2.1).1 op hop

theorem isPlain_of_longOperator {op t : Text} {c : Char} (hop : op ∈ longOperators)
    (h : op <+: c :: t) : isPlain c = true ∧ startsNumber (c :: t) = false := by
  have hall : ∀ o ∈ longOperators, ∃ a b r, o = a :: b :: r ∧ isPlain a = true ∧
      startsNumber [a, b] = false := by
    intro o ho
    simp only [longOperators, List.map_cons, List.map_nil, String.reduceToList, List.mem_cons,
      List.not_mem_nil, or_false] at ho
    rcases ho with rfl | rfl | rfl | rfl | rfl | rfl | rfl | rfl | rfl | rfl | rfl | rfl | rfl |
      rfl | rfl | rfl | rfl | rfl | rfl | rfl | rfl | rfl | rfl | rfl <;>
      exact ⟨_, _, _, rfl, by decide, by decide⟩
  obtain ⟨a, b, r, rfl, hplain, hnumber⟩ := hall op hop
  obtain ⟨r', hr⟩ := h
  obtain ⟨rfl, rfl⟩ := List.cons.inj hr
  exact ⟨hplain, hnumber⟩

theorem Cuts.number_stop {kind : TokenKind} {w x : Text} (h : Cuts kind w x)
    (hstart : startsNumber (w ++ x) = true) : ∀ d, x.head? = some d → isNumberTail d = false := by
  obtain ⟨-, c, cs, rfl, hscan⟩ := h
  have hlength := hscan true .start
  rw [List.cons_append] at hstart
  rw [scan_number hstart] at hlength
  have hpos := numberLength_pos (cs ++ x) (isPlain_of_startsNumber hstart).2
  have hnumber : numberLength (c :: (cs ++ x)) = (c :: cs).length := by
    simp only [Except.ok.injEq, Prod.mk.injEq] at hlength
    rw [List.length_cons]
    omega
  exact stop_of_numberTail (w := c :: cs) hnumber

/-- A word that fuses with a text is no token before it. -/
theorem not_cuts_of_fuses {kind : TokenKind} {w x : Text} (h : fuses w x = true) :
    ¬ Cuts kind w x := by
  intro hcuts
  simp only [fuses, Bool.or_eq_true, or_assoc, Bool.and_eq_true, beq_iff_eq, List.any_eq_true,
    decide_eq_true_eq, List.isPrefixOf_iff_prefix] at h
  rcases h with ⟨hnumber, hpoint⟩ | ⟨rfl, hdigit⟩ | ⟨op, hop, ⟨hlong, hw⟩, hstarts⟩
  · have hstart : startsNumber (w ++ x) = true := by
      obtain ⟨-, c, cs, rfl, -⟩ := hcuts
      cases cs with
      | nil =>
          have hc : c.isDigit = true := by simpa [startsNumber] using hnumber
          simp [startsNumber, hc]
      | cons d cs => exact hnumber
    cases hcuts.number_stop hstart '.' hpoint
  · obtain ⟨d, hd, hdigit⟩ := (Option.any_eq_true ..).mp hdigit
    have hstart : startsNumber (['.'] ++ x) = true := by simp [startsNumber, hd, hdigit]
    have htail := hcuts.number_stop hstart d hd
    rw [forall_digit isNumberTail (by decide) hdigit] at htail
    cases htail
  · obtain ⟨n, hn, hle⟩ := le_operatorLength? hop hstarts
    obtain ⟨-, c, cs, rfl, hscan⟩ := hcuts
    obtain ⟨m, rfl⟩ : ∃ m, n = m + 1 := Nat.exists_eq_succ_of_ne_zero (by
      have := operatorLength?_pos hn
      omega)
    rw [List.cons_append] at hn hstarts
    obtain ⟨hplain, hnumber⟩ := isPlain_of_longOperator hop hstarts
    have hscanned := hscan true .start
    rw [scan_op_iff.mpr ⟨hplain, hnumber, hn⟩] at hscanned
    simp only [Except.ok.injEq, Prod.mk.injEq] at hscanned
    rw [List.length_cons] at hlong
    omega

end Lexeme

/-- Operators before which a blank may be left out behind any word. -/
def tightOperators : List Text := [[','], [';'], [':'], ['.'], ['=']]

/-- A word that is no operator is a token before a text that starts with such an operator, unless it
is a number before a point. -/
theorem cuts_tight {kind : TokenKind} {w x op : Text} (hkind : kind = .name ∨ kind = .number)
    (hw : Lexeme.Cuts kind w []) (hop : op ∈ tightOperators) (h : fuses w (op ++ x) = false) :
    Lexeme.Cuts kind w (op ++ x) := by
  refine hw.before ?_
  have htight : ∀ o ∈ tightOperators, ∃ c, o = [c] ∧ Text.isWord c = false ∧
      (c ≠ '"' ∧ c ≠ '\'') ∧ c ≠ '+' ∧ c ≠ '-' := by
    intro o ho
    simp only [tightOperators, List.mem_cons, List.not_mem_nil, or_false] at ho
    rcases ho with rfl | rfl | rfl | rfl | rfl <;> exact ⟨_, rfl, by decide⟩
  obtain ⟨c, rfl, hword, hquotes, hsigns⟩ := htight op hop
  intro d hd
  obtain rfl : c = d := by simpa using hd
  rcases hkind with rfl | rfl
  · exact ⟨hword, hquotes⟩
  · refine ⟨hword, ?_, hsigns⟩
    rintro rfl
    have hnumber := Lexeme.startsNumber_of_cuts hw
    rw [List.append_nil] at hnumber
    simp [fuses, hnumber] at h

namespace Spacer

/-- Behind a word that is no operator, or a bracket, a blank is left out only before a bracket and
before some operators. -/
theorem separates_of_not_op {s : Spacer} {a b : Atom}
    (ha : ∀ text, a ≠ .token .op text) (h : ((s.advance a).next b).1 = false) :
    (∃ kind, b = .opening kind) ∨ ∃ op ∈ tightOperators, b = .token .op op := by
  have hops (text : String) : a.isOp text = false := by
    unfold Atom.isOp
    split
    · rename_i t
      exact absurd rfl (ha t)
    · rfl
  have hprevious : (a.ending == .token .op ['.']) = false := by
    cases a with
    | opening kind => rfl
    | token kind text =>
        have hkind : kind ≠ .op := by
          rintro rfl
          exact ha text rfl
        simp [Atom.ending, hkind]
  have hseparates : (s.advance a).separates a.ending b = false := by
    simpa [next, advance] using h
  unfold separates at hseparates
  simp only [advance, hops, Bool.false_and, Bool.or_false, hprevious,
    Bool.false_eq_true, if_false] at hseparates
  cases b with
  | opening kind => exact .inl ⟨kind, rfl⟩
  | token kind text =>
      cases kind with
      | op =>
          refine .inr ⟨text, ?_, rfl⟩
          simp only at hseparates
          split at hseparates
          · rename_i htext
            simp only [Bool.or_eq_true, beq_iff_eq] at htext
            rcases htext with (rfl | rfl) | rfl <;> decide
          split at hseparates
          · rename_i htext
            rw [beq_iff_eq.mp htext]
            decide
          split at hseparates
          · rename_i htext
            rw [beq_iff_eq.mp htext]
            decide
          · cases hseparates
      | _ => cases hseparates

end Spacer

end SchemaTidy
