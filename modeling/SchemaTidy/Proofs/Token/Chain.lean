import SchemaTidy.Proofs.Token.Balance
import SchemaTidy.Proofs.Token.Margin

/-!
# Tokens that can be written one after another

Tokens that stand next to each other in a source are read again as themselves wherever they are written
between brackets, as long as nothing behind them can continue the last word. So parts of a source can be
put together in a new order when each of them is followed by a comma, a bracket or trivia.
-/

namespace SchemaTidy

/-- Characters that no word can run into. -/
def wordStops : Text := " \t\x0c\n\r#\\,:()[]\x7b\x7d".toList

def Stops (y : Text) : Prop := ∀ c, y.head? = some c → c ∈ wordStops

theorem Stops.ends {y : Text} (h : Stops y) {kind : TokenKind} (hkind : kind.isWord = true) :
    Lexeme.Ends kind y := by
  have hharmless : ∀ c ∈ wordStops, (Text.isWord c = false ∧ c ≠ '"' ∧ c ≠ '\'') ∧
      (c ≠ '.' ∧ c ≠ '+' ∧ c ≠ '-') ∧ c ∉ Lexeme.operatorTails ∧ c.isDigit = false :=
    Lexeme.forall_mem_of_all (by decide)
  intro c hc
  obtain ⟨⟨hword, hquotes⟩, ⟨hpoint, hsigns⟩, hop⟩ := hharmless c (h c hc)
  cases kind with
  | name => exact ⟨hword, hquotes⟩
  | number => exact ⟨hword, hpoint, hsigns⟩
  | string => exact hquotes
  | op => exact hop
  | _ => cases hkind

theorem stops_nil : Stops [] := by simp [Stops]

theorem stops_cons {c : Char} (hc : c ∈ wordStops) (y : Text) : Stops (c :: y) := by
  simpa [Stops] using hc

theorem IsMargin.stops_of_ne_nil {t : Text} (ht : IsMargin t) (hne : t ≠ []) (y : Text) :
    Stops (t ++ y) := by
  obtain ⟨c, t, rfl⟩ := List.exists_cons_of_ne_nil hne
  refine stops_cons ?_ _
  by_cases hindent : Text.isIndent c = true
  · simp only [Text.isIndent, Bool.or_eq_true, beq_iff_eq] at hindent
    rcases hindent with (rfl | rfl) | rfl <;> decide
  by_cases hbreak : Text.isLineBreak c = true
  · simp only [Text.isLineBreak, Bool.or_eq_true, beq_iff_eq] at hbreak
    rcases hbreak with rfl | rfl <;> decide
  by_cases hcomment : c = '#'
  · subst hcomment
    decide
  by_cases hslash : c = '\\'
  · subst hslash
    decide
  · simp [IsMargin, Margin.run_cons, Margin.step, hindent, hbreak, hcomment, hslash] at ht

theorem IsMargin.stops {t : Text} (ht : IsMargin t) {y : Text} (hy : Stops y) : Stops (t ++ y) := by
  by_cases hne : t = []
  · rwa [hne]
  · exact ht.stops_of_ne_nil hne y

def Token.IsLone (t : Token) : Prop := t.kind = .op ∧ ∃ c ∈ Lexeme.loneOperators, t.text = [c]

theorem Token.IsLone.stops {t : Token} (h : t.IsLone) (ht : IsMargin t.trivia) (y : Text) :
    Stops (t.source ++ y) := by
  obtain ⟨-, c, hc, htext⟩ := h
  have hstops : ∀ c ∈ Lexeme.loneOperators, c ∈ wordStops := Lexeme.forall_mem_of_all (by decide)
  rw [Token.source, htext, List.append_assoc]
  exact ht.stops (stops_cons (hstops c hc) y)

theorem Token.IsLone.cuts {t : Token} (h : t.IsLone) (y : Text) : Lexeme.Cuts t.kind t.text y := by
  obtain ⟨hkind, c, hc, htext⟩ := h
  rw [hkind, htext]
  exact Lexeme.cuts_lone hc y

theorem Token.IsLone.isWord {t : Token} (h : t.IsLone) : t.kind.isWord = true := by
  rw [h.1]
  rfl

namespace MatchingBrackets

variable {opening closing : Token} (h : MatchingBrackets opening closing)

include h

theorem isLone : opening.IsLone ∧ closing.IsLone := by
  obtain ⟨hopening, hclosing, c, hc, hopeningText, hclosingText⟩ := h
  obtain ⟨hc₁, hc₂⟩ := mem_loneOperators hc
  exact ⟨⟨hopening, _, hc₁, hopeningText⟩, hclosing, _, hc₂, hclosingText⟩

theorem bracketsAfter : ∃ c, ∀ outer,
    SchemaTidy.bracketsAfter opening.kind opening.text outer = some (c :: outer) ∧
      SchemaTidy.bracketsAfter closing.kind closing.text (c :: outer) = some outer := by
  obtain ⟨hopening, hclosing, c, hc, hopeningText, hclosingText⟩ := h
  rw [hopening, hclosing, hopeningText, hclosingText]
  exact ⟨c, fun outer => ⟨bracketsAfter_opening hc outer, bracketsAfter_closing hc outer⟩⟩

end MatchingBrackets

/-- Words that are read again as themselves when they are written one after another between brackets
and nothing continues the last one. -/
def Chained : List Token → Prop
  | [] => True
  | t :: ts =>
      t.kind.isWord = true ∧ IsMargin t.trivia ∧
        (∀ y, Stops y → Lexeme.Cuts t.kind t.text (spell ts ++ y)) ∧ Chained ts

namespace Chained

variable {a b ts : List Token} {t : Token}

theorem append (ha : Chained a) (hb : Chained b) (hstops : ∀ y, Stops y → Stops (spell b ++ y)) :
    Chained (a ++ b) := by
  induction a with
  | nil => exact hb
  | cons t a ih =>
      obtain ⟨hword, htrivia, hcuts, ha⟩ := ha
      refine ⟨hword, htrivia, fun y hy => ?_, ih ha⟩
      have hrest := hcuts _ (hstops y hy)
      rwa [← List.append_assoc, ← spell_append] at hrest

theorem left (h : Chained (a ++ b)) : Chained a := by
  induction a with
  | nil => trivial
  | cons t a ih =>
      obtain ⟨hword, htrivia, hcuts, h⟩ := h
      refine ⟨hword, htrivia, fun y hy => ?_, ih h⟩
      have hall : Lexeme.Cuts t.kind t.text (spell (a ++ b) ++ []) := hcuts [] stops_nil
      rw [List.append_nil, spell_append] at hall
      exact hall.exchange fun _ => hy.ends hword

theorem right (h : Chained (a ++ b)) : Chained b := by
  induction a with
  | nil => exact h
  | cons t a ih => exact ih h.2.2.2

theorem lone (ht : t.IsLone) (htrivia : IsMargin t.trivia) (h : Chained ts) : Chained (t :: ts) :=
  ⟨ht.isWord, htrivia, fun _ _ => ht.cuts _, h⟩

theorem append_lone (ha : Chained a) (ht : t.IsLone) (h : Chained (t :: ts)) :
    Chained (a ++ t :: ts) := by
  refine ha.append h fun y _ => ?_
  rw [spell_cons, List.append_assoc]
  exact ht.stops h.2.1 _

theorem isWord (h : Chained ts) : ∀ t ∈ ts, t.kind.isWord = true := by
  induction ts with
  | nil => nofun
  | cons t ts ih => exact List.forall_mem_cons.mpr ⟨h.1, ih h.2.2.2⟩

end Chained

/-! ## Reading -/

theorem lexes_token {t : Token} {x : Text} {indents : List Nat} {brackets outer : List Char}
    {last : Option TokenKind} {us : List Shape} (htrivia : IsMargin t.trivia)
    (hkind : t.kind.isWord = true) (hcuts : Lexeme.Cuts t.kind t.text x) (hopen : brackets ≠ [])
    (hbrackets : bracketsAfter t.kind t.text brackets = some outer)
    (h : Lexes ⟨x, indents, outer, false, some t.kind⟩ us []) :
    Lexes ⟨t.source ++ x, indents, brackets, false, last⟩ (t.spelling :: us) [] := by
  obtain ⟨c, cs, htext, ⟨-, -, hbreak⟩, -⟩ := hcuts.head
  have hnewline : (t.text ++ x).head? ≠ some '\n' := by
    rw [htext]
    intro hhead
    obtain rfl : c = '\n' := by simpa using hhead
    cases hbreak
  rw [Token.source, List.append_assoc]
  exact lexes_margin htrivia hnewline hopen (lexes_word hcuts hkind hbrackets h)

/-- Reading nested words between brackets. -/
theorem lexes_nested {ts : List Token} (hts : Nested ts) (hchained : Chained ts) {x : Text}
    (hx : Stops x) {indents : List Nat} {brackets : List Char} (hopen : brackets ≠ [])
    {us : List Shape} (h : ∀ last, Lexes ⟨x, indents, brackets, false, last⟩ us [])
    (last : Option TokenKind) :
    Lexes ⟨spell ts ++ x, indents, brackets, false, last⟩ (ts.map Token.spelling ++ us) [] := by
  induction hts generalizing x us brackets last with
  | nil => exact h last
  | @cons t ts hopening hclosing _ ih =>
      obtain ⟨hword, htrivia, hcuts, hchained⟩ := hchained
      have hbrackets := bracketsAfter_of_isLeaf hopening hclosing (hcuts x hx).alone brackets
      rw [spell_cons, List.append_assoc]
      exact lexes_token htrivia hword (hcuts x hx) hopen hbrackets (ih hchained hx hopen h _)
  | @group opening closing inner rest hmatch _ _ _ ihinner ihrest =>
      obtain ⟨hword, htrivia, hcuts, hchained⟩ := hchained
      obtain ⟨hclosingWord, hclosingTrivia, hclosingCuts, hrest⟩ := hchained.right
      have hlone := hmatch.isLone.2
      obtain ⟨c, hbrackets⟩ := hmatch.bracketsAfter
      obtain ⟨hopens, hcloses⟩ := hbrackets brackets
      have hclosed (last : Option TokenKind) :
          Lexes ⟨closing.source ++ (spell rest ++ x), indents, c :: brackets, false, last⟩
            (closing.spelling :: (rest.map Token.spelling ++ us)) [] :=
        lexes_token hclosingTrivia hclosingWord (hlone.cuts _) (by simp) hcloses
          (ihrest hrest hx hopen h _)
      have hinner := ihinner hchained.left (hlone.stops hclosingTrivia _) (by simp) hclosed
        (some opening.kind)
      have hread : Lexes ⟨opening.source ++ (spell (inner ++ closing :: rest) ++ x), indents,
          brackets, false, last⟩ (opening.spelling :: _) [] :=
        lexes_token htrivia hword (hcuts x hx) hopen hopens (by simpa using hinner)
      simpa using hread

end SchemaTidy
