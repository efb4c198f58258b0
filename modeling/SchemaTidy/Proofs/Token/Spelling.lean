import SchemaTidy.Tree.Source
import SchemaTidy.Token.Lexer

/-!
# Tokens spell their source

What a cursor still has to give out is its trivia and the rest of the source. Every move of the
cursor hands over exactly a leading part of that text, so the tokens of a source spell the source.
Block markers carry no text, and the end marker comes last and only once.
-/

namespace SchemaTidy

theorem exists_of_map_eq_ok {ε α β : Type} {f : α → β} {x : Except ε α} {b : β}
    (h : x.map f = .ok b) : ∃ a, x = .ok a ∧ f a = b := by
  cases x with
  | error e => cases h
  | ok a => exact ⟨a, rfl, by simpa [Except.map] using h⟩

namespace Lexeme

/-- The piece that a scan finds is trivia, a line break or a word of the language: never a block
marker and never the end. -/
theorem scan_kind {inBrackets : Bool} {here : Position} {c : Char} {cs : Text} {kind : TokenKind}
    {n : Nat} (h : scan inBrackets here c cs = .ok (.token kind, n)) :
    kind = .name ∨ kind = .number ∨ kind = .string ∨ kind = .op ∨ kind = .newline := by
  unfold scan at h
  split at h
  · cases h
  split at h
  · split at h
    · cases h
    · split at h <;> cases h
  split at h
  · cases h
  split at h
  · cases inBrackets <;> simp_all
  split at h
  · simp only at h
    split at h
    · split at h
      · simp only [Except.map] at h
        split at h <;> simp_all
      · simp_all
    · simp_all
  split at h
  · simp only [Except.map] at h
    split at h <;> simp_all
  split at h
  · simp_all
  · split at h <;> simp_all

end Lexeme

namespace Token

/-- A token that stands before the end of a file, and that has no text if it marks a block. -/
def IsInner (t : Token) : Prop :=
  t.kind ≠ .endMarker ∧ (t.kind = .indent ∨ t.kind = .dedent → t.source = [])

end Token

namespace Cursor

/-- The text that the tokens still to come have to spell. -/
def pending (c : Cursor) : Text := c.trivia ++ c.rest

@[simp] theorem pending_ofSource (source : Text) : (ofSource source).pending = source := rfl

@[simp] theorem pending_skip (c : Cursor) (n : Nat) : (c.skip n).pending = c.pending := by
  simp [pending, skip]

@[simp] theorem source_marker (kind : TokenKind) (position : Position) :
    (marker kind position).source = [] := rfl

theorem spell_eq_nil {ts : List Token} (h : ∀ t ∈ ts, t.source = []) : spell ts = [] := by
  simpa [spell] using h

theorem indentTo_markers {c c' : Cursor} {width : Nat} {ts : List Token}
    (h : c.indentTo width = .ok (ts, c')) :
    c'.pending = c.pending ∧ ∀ t ∈ ts, t.source = [] ∧ t.IsInner := by
  simp only [indentTo] at h
  split at h
  · cases h
    simp [pending, Token.IsInner, marker, Token.source]
  split at h
  · split at h
    · cases h
      refine ⟨rfl, ?_⟩
      intro t ht
      obtain ⟨_, _, rfl⟩ := List.mem_map.mp ht
      simp [Token.IsInner, marker, Token.source]
    · cases h
  · cases h
    simp

theorem enterLine_markers {c c' : Cursor} {ts : List Token} (h : c.enterLine = .ok (ts, c')) :
    c'.pending = c.pending ∧ ∀ t ∈ ts, t.source = [] ∧ t.IsInner := by
  unfold enterLine at h
  split at h
  · simp only at h
    split at h
    · cases h
      simp
    · obtain ⟨hp, hm⟩ := indentTo_markers h
      refine ⟨hp.trans ?_, hm⟩
      exact (pending_skip (c.skip (triviaLinesLength c.rest)) _).trans (pending_skip c _)
  · cases h
    simp

theorem advance_spelling {c c' : Cursor} {ch : Char} {cs : Text} {t : Option Token}
    (h : c.advance ch cs = .ok (t, c')) :
    spell t.toList ++ c'.pending = c.pending ∧ ∀ u ∈ t, u.IsInner := by
  unfold advance at h
  split at h
  · cases h
  · cases h
    simp
  · rename_i kind n hscan
    split at h
    · cases h
    · cases h
      refine ⟨by simp [pending, Token.source], ?_⟩
      intro u hu
      cases hu
      have hkind := Lexeme.scan_kind hscan
      constructor
      · rintro rfl
        simp at hkind
      · rintro (rfl | rfl)
        · simp at hkind
        · simp at hkind

theorem finish_spelling {c : Cursor} {ts : List Token} (hrest : c.rest = [])
    (h : c.finish = .ok ts) :
    spell ts = c.pending ∧
      ∃ init last, ts = init ++ [last] ∧ last.kind = .endMarker ∧ ∀ t ∈ init, t.IsInner := by
  unfold finish at h
  split at h
  · cases h
  simp only at h
  have hmarkers (us : List Nat) (p : Position) :
      ∀ t ∈ us.map (fun _ => marker .dedent p), t.source = [] ∧ t.IsInner := by
    intro t ht
    obtain ⟨_, _, rfl⟩ := List.mem_map.mp ht
    simp [Token.IsInner, marker, Token.source]
  split at h
  · cases h
    have hm := hmarkers (c.take .newline 0).2.indents (c.take .newline 0).2.here
    refine ⟨?_, _, _, rfl, rfl, ?_⟩
    · have hn := spell_eq_nil fun t ht => (hm t ht).1
      simp only [spell_append, hn]
      simp [take, pending, hrest, Token.source]
    · intro t ht
      rcases List.mem_append.mp ht with ht | ht
      · rw [List.mem_singleton] at ht
        subst ht
        simp [Token.IsInner, take]
      · exact (hm t ht).2
  · cases h
    have hm := hmarkers c.indents c.here
    refine ⟨?_, _, _, rfl, rfl, ?_⟩
    · have hn := spell_eq_nil fun t ht => (hm t ht).1
      simp only [spell_append, hn]
      simp [take, pending, hrest, Token.source]
    · intro t ht
      rw [List.nil_append] at ht
      exact (hm t ht).2

/-- One round of `tokens`, without the equations that its recursion carries along. -/
theorem tokens_eq (c : Cursor) : c.tokens =
    match c.enterLine with
    | .error e => .error e
    | .ok (markers, c₁) =>
        match c₁.rest with
        | [] => c₁.finish.map (markers ++ ·)
        | ch :: cs =>
            match c₁.advance ch cs with
            | .error e => .error e
            | .ok (t, c₂) => c₂.tokens.map (markers ++ t.toList ++ ·) := by
  rw [tokens]
  grind

/-- The tokens of a cursor spell what it has to give out. -/
theorem tokens_spelling {c : Cursor} {ts : List Token} (h : c.tokens = .ok ts) :
    spell ts = c.pending ∧
      ∃ init last, ts = init ++ [last] ∧ last.kind = .endMarker ∧ ∀ t ∈ init, t.IsInner := by
  fun_induction tokens c generalizing ts with
  | case1 c e hl => cases h
  | case2 c markers c₁ hl hr =>
      obtain ⟨us, hus, rfl⟩ := exists_of_map_eq_ok h
      obtain ⟨hp, hm⟩ := enterLine_markers hl
      obtain ⟨hs, init, last, rfl, hlast, hinit⟩ := finish_spelling hr hus
      refine ⟨?_, markers ++ init, last, by simp, hlast, ?_⟩
      · rw [spell_append, spell_eq_nil fun t ht => (hm t ht).1, hs, hp]
        rfl
      · intro t ht
        rcases List.mem_append.mp ht with ht | ht
        · exact (hm t ht).2
        · exact hinit t ht
  | case3 c markers c₁ hl ch cs hr e ha => cases h
  | case4 c markers c₁ hl ch cs hr t c₂ ha ih =>
      obtain ⟨us, hus, rfl⟩ := exists_of_map_eq_ok h
      obtain ⟨hp, hm⟩ := enterLine_markers hl
      obtain ⟨ht, hti⟩ := advance_spelling ha
      obtain ⟨hs, init, last, rfl, hlast, hinit⟩ := ih hus
      refine ⟨?_, markers ++ t.toList ++ init, last, by simp, hlast, ?_⟩
      · rw [spell_append, spell_append, spell_eq_nil fun t ht => (hm t ht).1, hs, ← hp, ← ht]
        rfl
      · intro u hu
        rcases List.mem_append.mp hu with hu | hu
        · rcases List.mem_append.mp hu with hu | hu
          · exact (hm u hu).2
          · exact hti u (by simpa using hu)
        · exact hinit u hu

end Cursor

theorem spell_tokenize {source : Text} {ts : List Token} (h : tokenize source = .ok ts) :
    spell ts = source :=
  (Cursor.tokens_spelling h).1

theorem tokenize_ends {source : Text} {ts : List Token} (h : tokenize source = .ok ts) :
    ∃ init last, ts = init ++ [last] ∧ last.kind = .endMarker ∧ ∀ t ∈ init, t.IsInner :=
  (Cursor.tokens_spelling h).2

end SchemaTidy
