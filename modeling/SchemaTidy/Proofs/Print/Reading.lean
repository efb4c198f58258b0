import SchemaTidy.Print.Layout
import SchemaTidy.Print.Module
import SchemaTidy.Proofs.Token.Lexing

/-!
# Reading printed text

`Reads` says which tokens the lexer takes off a part of a line, between which open brackets, before
anything that no word can run into. `LinesRead` says it of physical lines with terminators behind
them, which stand inside of brackets except for the last one, together with the comments in them.
-/

namespace SchemaTidy

def stops : Text := " \n\r,()[]\x7b\x7d".toList

def IsStop (x : Text) : Prop := ∀ c, x.head? = some c → c ∈ stops

theorem IsStop.ends {x : Text} (h : IsStop x) {kind : TokenKind} (hkind : kind.isWord = true) :
    Lexeme.Ends kind x := by
  have hharmless : ∀ c ∈ stops, (Text.isWord c = false ∧ c ≠ '"' ∧ c ≠ '\'') ∧
      (c ≠ '.' ∧ c ≠ '+' ∧ c ≠ '-') ∧ c ∉ Lexeme.operatorTails ∧ c.isDigit = false :=
    Lexeme.forall_mem_of_all (by decide)
  intro c hc
  obtain ⟨⟨hword, hquotes⟩, ⟨hpoint, hsigns⟩, hop⟩ := hharmless c (h c hc)
  cases kind with
  | name => exact ⟨hword, hquotes⟩
  | number => exact ⟨hword, hpoint, hsigns⟩
  | string => exact hquotes
  | op => exact hop
  | _ => cases hkind

theorem isStop_cons {c : Char} (hc : c ∈ stops) (x : Text) : IsStop (c :: x) := by
  simpa [IsStop] using hc

theorem isStop_break {lb : Text} (hlb : IsBreak lb) (x : Text) : IsStop (lb ++ x) := by
  rcases hlb with rfl | rfl | rfl <;> exact isStop_cons (by decide) _

/-- Before anything that no word can run into, the lexer takes tokens off a text and comes from some
open brackets to others. -/
def Reads (brackets : List Char) (w : Text) (us : List Shape) (brackets' : List Char) : Prop :=
  ∀ (x : Text) (indents : List Nat) (last : Option TokenKind) (vs : List Shape) (rs : List Text),
    IsStop x → (∀ last, Lexes ⟨x, indents, brackets', false, last⟩ vs rs) →
    Lexes ⟨w ++ x, indents, brackets, false, last⟩ (us ++ vs) rs

namespace Reads

variable {brackets brackets₁ brackets₂ : List Char} {w w' : Text} {us us' : List Shape}

theorem nil : Reads brackets [] [] brackets := fun _ _ _ _ _ _ h => h _

theorem append (h : Reads brackets w us brackets₁) (h' : Reads brackets₁ w' us' brackets₂)
    (hstop : ∀ x, IsStop x → IsStop (w' ++ x)) :
    Reads brackets (w ++ w') (us ++ us') brackets₂ := by
  intro x indents last vs rs hx hvs
  rw [List.append_assoc, List.append_assoc]
  exact h _ _ _ _ _ (hstop x hx) fun _ => h' _ _ _ _ _ hx hvs

theorem word {kind : TokenKind} (hkind : kind.isWord = true)
    (hcuts : ∀ x, IsStop x → Lexeme.Cuts kind w (w' ++ x))
    (hbrackets : bracketsAfter kind w brackets = some brackets₁)
    (h : Reads brackets₁ w' us brackets₂) :
    Reads brackets (w ++ w') ((kind, w) :: us) brackets₂ := by
  intro x indents last vs rs hx hvs
  rw [List.append_assoc, List.cons_append]
  exact lexes_word (hcuts x hx) hkind hbrackets (h _ _ _ _ _ hx hvs)

theorem single {kind : TokenKind} (hkind : kind.isWord = true) (hcuts : Lexeme.Cuts kind w [])
    (hbrackets : bracketsAfter kind w brackets = some brackets₁) :
    Reads brackets w [(kind, w)] brackets₁ := by
  have hfree : ∀ x, IsStop x → Lexeme.Cuts kind w ([] ++ x) :=
    fun x hx => hcuts.before (hx.ends hkind)
  have h := word hkind hfree hbrackets Reads.nil
  rwa [List.append_nil] at h

theorem blanks (hw : ∀ c ∈ w, Text.isIndent c = true) (h : Reads brackets w' us brackets₁) :
    Reads brackets (w ++ w') us brackets₁ := by
  intro x indents last vs rs hx hvs
  rw [List.append_assoc]
  exact lexes_blanks hw (h _ _ _ _ _ hx hvs)

end Reads

/-! ## Lines -/

theorem joinLines_append (lb : Text) (ls ms : List Text) :
    joinLines lb (ls ++ ms) = joinLines lb ls ++ joinLines lb ms := by
  simp [joinLines]

@[simp] theorem joinLines_cons (lb l : Text) (ls : List Text) :
    joinLines lb (l :: ls) = l ++ (lb ++ joinLines lb ls) := by
  simp [joinLines]

@[simp] theorem joinLines_nil (lb : Text) : joinLines lb [] = [] := rfl

theorem appendToLast_append (ending : Text) (ls : List Text) {ms : List Text} (h : ms ≠ []) :
    appendToLast ending (ls ++ ms) = ls ++ appendToLast ending ms := by
  induction ls with
  | nil => rfl
  | cons l ls ih =>
      obtain ⟨m, ns, hm⟩ := List.exists_cons_of_ne_nil (List.append_ne_nil_of_right_ne_nil ls h)
      rw [List.cons_append, hm, appendToLast, ← hm, ih, List.cons_append]
      simp

theorem appendToLast_cons (ending l : Text) {ls : List Text} (h : ls ≠ []) :
    appendToLast ending (l :: ls) = l :: appendToLast ending ls :=
  appendToLast_append ending [l] h

theorem appendToLast_ne_nil (ending : Text) {ls : List Text} (h : ls ≠ []) :
    appendToLast ending ls ≠ [] := by
  obtain ⟨l, ls, rfl⟩ := List.exists_cons_of_ne_nil h
  cases ls <;> simp [appendToLast]

theorem appendToLast_appendToLast (a b : Text) (ls : List Text) :
    appendToLast a (appendToLast b ls) = appendToLast (b ++ a) ls := by
  induction ls with
  | nil => rfl
  | cons l ls ih =>
      by_cases hls : ls = []
      · simp [hls, appendToLast]
      · rw [appendToLast_cons b l hls, appendToLast_cons a l (appendToLast_ne_nil b hls), ih,
          appendToLast_cons _ l hls]

@[simp] theorem appendToLast_nil (ls : List Text) : appendToLast [] ls = ls := by
  induction ls with
  | nil => rfl
  | cons l ls ih =>
      cases ls with
      | nil => simp [appendToLast]
      | cons m ms => rw [appendToLast, ih]; simp

/-- Physical lines from which the lexer takes tokens and the comments `cs`, among others, and comes
from some open brackets to others. The terminator of the last line is left to what follows. -/
structure LinesRead (lb : Text) (brackets : List Char) (lines : List Text) (us : List Shape)
    (cs : List Text) (brackets' : List Char) : Prop where
  ne_nil : lines ≠ []
  rows : ∀ l ∈ lines, l ≠ [] ∧ l.head? ≠ some '\n'
  reads : ∀ (x : Text) (indents : List Nat) (last : Option TokenKind) (vs : List Shape)
    (rs : List Text), (∀ last, Lexes ⟨lb ++ x, indents, brackets', false, last⟩ vs rs) →
    Lexes ⟨joinLines lb lines ++ x, indents, brackets, false, last⟩ (us ++ vs) (cs ++ rs)

theorem commentTail_cons (c : Text) (cs : List Text) :
    commentTail (c :: cs) = ' ' :: ' ' :: (c ++ commentTail cs) := by
  simp [commentTail]

theorem IsRemarkIn.commentTail {brackets : List Char} {c : Text} {cs : List Text}
    (hc : IsRemarkIn brackets c) (hcs : ∀ d ∈ cs, IsRemarkIn brackets d) :
    IsRemarkIn brackets (c ++ commentTail cs) := by
  induction cs generalizing c with
  | nil => simpa [SchemaTidy.commentTail] using hc
  | cons d cs ih =>
      have hrest := ih (hcs d (by simp)) fun e he => hcs e (by simp [he])
      have hgap : ∀ e ∈ [' ', ' '], Text.isIndent e = true := by simp [Text.isIndent]
      rw [commentTail_cons]
      exact ⟨hc.1.append hgap hrest.1, fun hnil => (hc.2 hnil).append hgap (hrest.2 hnil)⟩

theorem isStop_commentTail {cs : List Text} {lb : Text} (hlb : IsBreak lb) (x : Text) :
    IsStop (commentTail cs ++ (lb ++ x)) := by
  cases cs with
  | nil => exact isStop_break hlb x
  | cons c cs =>
      rw [commentTail_cons]
      exact isStop_cons (by decide) _

theorem atBreak_break {lb : Text} (hlb : IsBreak lb) (x : Text) : AtBreak (lb ++ x) := by
  rcases hlb with rfl | rfl | rfl <;> simp [AtBreak, Text.isLineBreak]

theorem lexes_commentTail {cs : List Text} {lb x : Text} {indents : List Nat}
    {brackets : List Char} {last : Option TokenKind} {us : List Shape} {rs : List Text}
    (hlb : IsBreak lb) (hcs : ∀ c ∈ cs, IsRemarkIn brackets c)
    (h : Lexes ⟨lb ++ x, indents, brackets, false, last⟩ us rs) :
    Lexes ⟨commentTail cs ++ (lb ++ x), indents, brackets, false, last⟩ us
      (Trivia.physicalComments (commentTail cs) ++ rs) := by
  cases cs with
  | nil => exact h
  | cons c cs =>
      have hcomment : IsRemarkIn brackets (c ++ commentTail cs) :=
        (hcs c (by simp)).commentTail fun d hd => hcs d (by simp [hd])
      have hgap : ∀ d ∈ [' ', ' '], Text.isIndent d = true := by simp [Text.isIndent]
      have hread := lexes_blanks hgap (lexes_remark hcomment (atBreak_break hlb x) h)
      rw [← physicalComments_blanks hgap] at hread
      rw [commentTail_cons]
      exact hread

namespace LinesRead

variable {lb : Text} {brackets brackets₁ brackets₂ : List Char} {ls ms : List Text}
  {us us' : List Shape} {rs rs' : List Text}

theorem mono (h : LinesRead lb brackets ls us rs brackets₁) (hsub : rs'.Sublist rs) :
    LinesRead lb brackets ls us rs' brackets₁ :=
  ⟨h.ne_nil, h.rows, fun x indents last vs ts hvs =>
    (h.reads x indents last vs ts hvs).mono (hsub.append_right ts)⟩

theorem single (hlb : IsBreak lb) {w : Text} (hw : w ≠ [] ∧ w.head? ≠ some '\n')
    (h : Reads brackets w us brackets₁) {cs : List Text} (hcs : ∀ c ∈ cs, IsRemarkIn brackets₁ c) :
    LinesRead lb brackets [w ++ commentTail cs] us (Trivia.physicalComments (commentTail cs))
      brackets₁ := by
  refine ⟨by simp, ?_, ?_⟩
  · intro l hl
    rw [List.mem_singleton.mp hl]
    obtain ⟨c, w, rfl⟩ := List.exists_cons_of_ne_nil hw.1
    exact ⟨by simp, by simpa using hw.2⟩
  · intro x indents last vs ts hvs
    rw [joinLines_cons, joinLines_nil, List.append_nil, List.append_assoc, List.append_assoc]
    exact h _ _ _ _ _ (isStop_commentTail hlb x) fun _ => lexes_commentTail hlb hcs (hvs _)

theorem line (hlb : IsBreak lb) {w : Text} (hw : w ≠ [] ∧ w.head? ≠ some '\n')
    (h : Reads brackets w us brackets₁) : LinesRead lb brackets [w] us [] brackets₁ := by
  have hnone : ∀ c ∈ ([] : List Text), IsRemarkIn brackets₁ c := by simp
  simpa [commentTail] using single hlb hw h hnone

theorem append (hlb : IsBreak lb) (h : LinesRead lb brackets ls us rs brackets₁)
    (hbrackets : brackets₁ ≠ []) (h' : LinesRead lb brackets₁ ms us' rs' brackets₂) :
    LinesRead lb brackets (ls ++ ms) (us ++ us') (rs ++ rs') brackets₂ := by
  refine ⟨by simp [h.ne_nil], ?_, ?_⟩
  · intro l hl
    rcases List.mem_append.mp hl with hl | hl
    · exact h.rows l hl
    · exact h'.rows l hl
  · intro x indents last vs ts hvs
    rw [joinLines_append, List.append_assoc, List.append_assoc, List.append_assoc]
    refine h.reads _ _ _ _ _ fun last =>
      lexes_break hlb (fun _ => ?_) hbrackets (h'.reads _ _ _ _ _ hvs)
    obtain ⟨m, ms', rfl⟩ := List.exists_cons_of_ne_nil h'.ne_nil
    obtain ⟨hne, hhead⟩ := h'.rows m (by simp)
    obtain ⟨c, m, rfl⟩ := List.exists_cons_of_ne_nil hne
    simpa using hhead

theorem indent {w l : Text} (hw : ∀ c ∈ w, Text.isIndent c = true)
    (h : LinesRead lb brackets (l :: ls) us rs brackets₁) :
    LinesRead lb brackets ((w ++ l) :: ls) us rs brackets₁ := by
  refine ⟨by simp, ?_, ?_⟩
  · intro m hm
    rcases List.mem_cons.mp hm with rfl | hm
    · obtain ⟨hne, hhead⟩ := h.rows l (by simp)
      cases w with
      | nil => exact ⟨hne, hhead⟩
      | cons c w =>
          refine ⟨by simp, ?_⟩
          have hc := hw c (by simp)
          rintro hnl
          obtain rfl : c = '\n' := by simpa using hnl
          cases hc
    · exact h.rows m (by simp [hm])
  · intro x indents last vs ts hvs
    have hread := h.reads x indents last vs ts hvs
    rw [joinLines_cons, List.append_assoc] at hread ⊢
    rw [List.append_assoc]
    exact lexes_blanks hw hread

theorem comments (hlb : IsBreak lb) {w : Text} (hw : ∀ c ∈ w, Text.isIndent c = true)
    {cs : List Text} (hcs : ∀ c ∈ cs, IsRemark c) (hbrackets : brackets ≠ [])
    (h : LinesRead lb brackets ls us rs brackets₁) :
    LinesRead lb brackets (cs.map (w ++ ·) ++ ls) us (cs.flatMap Trivia.physicalComments ++ rs)
      brackets₁ := by
  induction cs with
  | nil => exact h
  | cons c cs ih =>
      have hc := hcs c (by simp)
      have hrow : LinesRead lb brackets [c] [] (Trivia.physicalComments c) brackets := by
        refine ⟨by simp, ?_, ?_⟩
        · intro l hl
          rw [List.mem_singleton.mp hl]
          obtain ⟨v, rfl⟩ := hc.exists_cons
          simp
        · intro x indents last vs ts hvs
          rw [joinLines_cons, joinLines_nil, List.append_nil, List.append_assoc]
          exact lexes_remark (hc.within hbrackets) (atBreak_break hlb x) (hvs _)
      have hrest := ih fun d hd => hcs d (by simp [hd])
      rw [List.flatMap_cons, List.append_assoc]
      exact (hrow.indent hw).append hlb hbrackets hrest

end LinesRead

end SchemaTidy
