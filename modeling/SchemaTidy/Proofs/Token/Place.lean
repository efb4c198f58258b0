import SchemaTidy.Proofs.Token.Structure

/-!
# Places in a source

Lines and columns count from one. Every place that the lexer names is one of the source: the places of
tokens, of open brackets and literals, and of the fault that ends it.
-/

namespace SchemaTidy

theorem eq_error_of_map {ε α β : Type} {f : α → β} {x : Except ε α} {e : ε}
    (h : x.map f = .error e) : x = .error e := by
  cases x with
  | error e' => simpa [Except.map] using h
  | ok a => cases h

namespace Position

/-- A place in a source, as opposed to `Position.nowhere`. -/
def IsPlace (p : Position) : Prop := 0 < p.line ∧ 0 < p.column

theorem isPlace_start : start.IsPlace := ⟨Nat.one_pos, Nat.one_pos⟩

theorem IsPlace.after {p : Position} (h : p.IsPlace) (t : Text) : (p.after t).IsPlace := by
  fun_induction Position.after p t with
  | case1 p => exact h
  | case2 p cs ih => exact ih ⟨Nat.succ_pos _, Nat.one_pos⟩
  | case3 p c cs _ hbreak ih => exact ih ⟨Nat.succ_pos _, Nat.one_pos⟩
  | case4 p c cs _ hbreak ih => exact ih ⟨h.1, Nat.succ_pos _⟩

end Position

namespace Lexeme

def Frame.start : Frame → Position
  | .body _ _ _ start => start
  | .field _ _ _ start => start

theorem Frame.position_unfinished (f : Frame) : f.unfinished.position = f.start := by
  cases f <;> rfl

/-- A move over a literal that names places only: those of the frames that remain, or that of a
fault. -/
def Placed : Except ParseError (Nat × List Frame) → Prop
  | .ok (_, frames) => ∀ f ∈ frames, f.start.IsPlace
  | .error e => e.position.IsPlace

theorem Placed.ite {p : Prop} [Decidable p] {x y : Except ParseError (Nat × List Frame)}
    (hx : Placed x) (hy : Placed y) : Placed (if p then x else y) := by
  split
  · exact hx
  · exact hy

theorem placed_body {here start : Position} {c : Char} {cs : Text} {quote : Char}
    {triple formatted : Bool} {outer : List Frame} (hstart : start.IsPlace)
    (houter : ∀ f ∈ outer, f.start.IsPlace) :
    Placed (literalStep here c cs (.body quote triple formatted start :: outer)) := by
  have htop : ∀ f ∈ .body quote triple formatted start :: outer, f.start.IsPlace :=
    List.forall_mem_cons.mpr ⟨hstart, houter⟩
  simp only [literalStep]
  refine .ite ?_ (.ite (.ite htop hstart) (.ite (.ite (.ite houter htop) houter) (.ite ?_ htop)))
  · cases cs with
    | nil => exact htop
    | cons d cs => exact .ite htop htop
  · split
    · exact htop
    · exact List.forall_mem_cons.mpr ⟨hstart, htop⟩

theorem placed_field {here start : Position} {c : Char} {cs : Text} {triple inSpec : Bool}
    {depth : Nat} {outer : List Frame} (hhere : here.IsPlace) (hstart : start.IsPlace)
    (houter : ∀ f ∈ outer, f.start.IsPlace) :
    Placed (literalStep here c cs (.field triple depth inSpec start :: outer)) := by
  have htop (triple : Bool) (depth : Nat) (inSpec : Bool) :
      ∀ f ∈ .field triple depth inSpec start :: outer, f.start.IsPlace :=
    List.forall_mem_cons.mpr ⟨hstart, houter⟩
  have hinner {p : Position} (hp : p.IsPlace) (quote : Char) (triple' formatted : Bool) :
      ∀ f ∈ .body quote triple' formatted p :: .field triple depth inSpec start :: outer,
        f.start.IsPlace :=
    List.forall_mem_cons.mpr ⟨hp, htop _ _ _⟩
  rw [literalStep]
  refine .ite (.ite (htop _ _ _) hstart) (.ite houter (.ite ?_ (.ite (htop _ _ _)
    (.ite (htop _ _ _) (.ite (hinner hhere _ _ _) (.ite ?_ (.ite (htop _ _ _)
      (.ite (htop _ _ _) (htop _ _ _)))))))))
  · exact List.forall_mem_cons.mpr ⟨hstart, htop _ _ _⟩
  · simp only
    split
    · exact .ite (hinner (hhere.after _) _ _ _) (htop _ _ _)
    · exact htop _ _ _

/-- The move over one unit of a literal keeps the frames at places, and fails at one. -/
theorem placed_literalStep {here : Position} {c : Char} {cs : Text} {frames : List Frame}
    (hhere : here.IsPlace) (hframes : ∀ f ∈ frames, f.start.IsPlace) :
    Placed (literalStep here c cs frames) := by
  cases frames with
  | nil => simp [literalStep, Placed]
  | cons top outer =>
      obtain ⟨htop, houter⟩ := List.forall_mem_cons.mp hframes
      cases top with
      | body => exact placed_body htop houter
      | field => exact placed_field hhere htop houter

theorem isPlace_literalTail {here : Position} {frames : List Frame} {cs : Text} {e : ParseError}
    (hhere : here.IsPlace) (hframes : ∀ f ∈ frames, f.start.IsPlace)
    (h : literalTail here frames cs = .error e) : e.position.IsPlace := by
  fun_induction literalTail here frames cs with
  | case1 => cases h
  | case2 here top outer =>
      cases h
      rw [Frame.position_unfinished]
      exact hframes top (by simp)
  | case3 here top outer c rest e' hstep =>
      cases h
      have hplaced : Placed (literalStep here c rest (top :: outer)) :=
        placed_literalStep hhere hframes
      rw [hstep] at hplaced
      exact hplaced
  | case4 here top outer c rest n frames' hstep e' htail ih =>
      cases h
      have hplaced : Placed (literalStep here c rest (top :: outer)) :=
        placed_literalStep hhere hframes
      rw [hstep] at hplaced
      exact ih (hhere.after _) hplaced htail
  | case5 => cases h

theorem isPlace_literalLength {formatted : Bool} {start here : Position} {quote : Char}
    {quoted : Text} {e : ParseError} (hstart : start.IsPlace) (hhere : here.IsPlace)
    (h : literalLength formatted start here quote quoted = .error e) : e.position.IsPlace := by
  exact isPlace_literalTail (hhere.after _) (by simpa [Frame.start] using hstart)
    (eq_error_of_map h)

theorem isPlace_scan {inBrackets : Bool} {here : Position} {c : Char} {cs : Text} {e : ParseError}
    (hhere : here.IsPlace) (h : scan inBrackets here c cs = .error e) : e.position.IsPlace := by
  unfold scan at h
  split at h
  · cases h
  split at h
  · split at h
    · cases h
      exact hhere
    · split at h
      · cases h
      · cases h
        exact hhere
  split at h
  · cases h
  split at h
  · cases h
  split at h
  · simp only at h
    split at h
    · split at h
      · exact isPlace_literalLength hhere (hhere.after _) (eq_error_of_map h)
      · cases h
    · cases h
  split at h
  · exact isPlace_literalLength hhere hhere (eq_error_of_map h)
  split at h
  · cases h
  · split at h
    · cases h
    · cases h
      exact hhere

end Lexeme

namespace Cursor

/-- A cursor that stands at a place and knows brackets that are opened at places. -/
structure IsPlaced (c : Cursor) : Prop where
  here : c.here.IsPlace
  brackets : ∀ b ∈ c.brackets, b.2.IsPlace

variable {c c' : Cursor} {ts : List Token} {e : ParseError}

theorem IsPlaced.skip (h : c.IsPlaced) (n : Nat) : (c.skip n).IsPlaced :=
  ⟨h.here.after _, h.brackets⟩

theorem isPlace_indentTo_error {width : Nat} (hc : c.IsPlaced) (h : c.indentTo width = .error e) :
    e.position.IsPlace := by
  simp only [indentTo] at h
  split at h
  · cases h
  split at h
  · split at h
    · cases h
    · cases h
      exact hc.here
  · cases h

theorem isPlaced_indentTo {width : Nat} (hc : c.IsPlaced) (h : c.indentTo width = .ok (ts, c')) :
    (∀ t ∈ ts, t.position.IsPlace) ∧ c'.IsPlaced := by
  simp only [indentTo] at h
  split at h
  · cases h
    exact ⟨by simp [marker, Position.IsPlace, hc.here.1], hc.here, hc.brackets⟩
  split at h
  · split at h
    · cases h
      refine ⟨?_, hc.here, hc.brackets⟩
      intro t ht
      obtain ⟨_, _, rfl⟩ := List.mem_map.mp ht
      exact hc.here
    · cases h
  · cases h
    exact ⟨by simp, hc⟩

theorem isPlace_enterLine_error (hc : c.IsPlaced) (h : c.enterLine = .error e) :
    e.position.IsPlace := by
  unfold enterLine at h
  split at h
  · simp only at h
    split at h
    · cases h
    · refine isPlace_indentTo_error ?_ h
      exact ⟨((hc.skip _).skip _).here, hc.brackets⟩
  · cases h

theorem isPlaced_enterLine (hc : c.IsPlaced) (h : c.enterLine = .ok (ts, c')) :
    (∀ t ∈ ts, t.position.IsPlace) ∧ c'.IsPlaced := by
  unfold enterLine at h
  split at h
  · simp only at h
    split at h
    · cases h
      exact ⟨by simp, (hc.skip _).skip _⟩
    · refine isPlaced_indentTo ?_ h
      exact ⟨((hc.skip _).skip _).here, hc.brackets⟩
  · cases h
    exact ⟨by simp, hc⟩

theorem isPlace_account_error {ch : Char} {p : Position} {brackets : List (Char × Position)}
    (hp : p.IsPlace) (h : account ch p brackets = .error e) : e.position.IsPlace := by
  unfold account at h
  split at h
  · cases h
  split at h
  · split at h
    · cases h
      exact hp
    · split at h
      · cases h
      · cases h
        exact hp
  · cases h

theorem isPlace_account {ch : Char} {p : Position} {brackets outer : List (Char × Position)}
    (hp : p.IsPlace) (hbrackets : ∀ b ∈ brackets, b.2.IsPlace)
    (h : account ch p brackets = .ok outer) : ∀ b ∈ outer, b.2.IsPlace := by
  unfold account at h
  split at h
  · cases h
    exact List.forall_mem_cons.mpr ⟨hp, hbrackets⟩
  split at h
  · split at h
    · cases h
    · split at h
      · cases h
        exact (List.forall_mem_cons.mp hbrackets).2
      · cases h
  · cases h
    exact hbrackets

theorem isPlace_advance_error {ch : Char} {cs : Text} (hc : c.IsPlaced)
    (h : c.advance ch cs = .error e) : e.position.IsPlace := by
  unfold advance at h
  split at h
  · rename_i e' hscan
    cases h
    exact Lexeme.isPlace_scan hc.here hscan
  · cases h
  · split at h
    · rename_i e' haccount
      cases h
      split at haccount
      · exact isPlace_account_error hc.here haccount
      · cases haccount
    · cases h

theorem isPlaced_advance {ch : Char} {cs : Text} {t : Option Token} (hc : c.IsPlaced)
    (h : c.advance ch cs = .ok (t, c')) : (∀ u ∈ t, u.position.IsPlace) ∧ c'.IsPlaced := by
  unfold advance at h
  split at h
  · cases h
  · cases h
    exact ⟨by simp, hc.skip _⟩
  · split at h
    · cases h
    · rename_i brackets haccount
      cases h
      refine ⟨by simpa [take] using hc.here, hc.here.after _, ?_⟩
      split at haccount
      · exact isPlace_account hc.here hc.brackets haccount
      · cases haccount
        exact hc.brackets

theorem isPlace_finish_error (hc : c.IsPlaced) (h : c.finish = .error e) : e.position.IsPlace := by
  unfold finish at h
  split at h
  · rename_i opening position outer hbrackets
    cases h
    exact hc.brackets (opening, position) (by simp [hbrackets])
  · simp only at h
    split at h <;> cases h

theorem isPlace_finish (hc : c.IsPlaced) (h : c.finish = .ok ts) :
    ∀ t ∈ ts, t.position.IsPlace := by
  unfold finish at h
  split at h
  · cases h
  have hmarkers (us : List Nat) {p : Position} (hp : p.IsPlace) :
      ∀ t ∈ us.map (fun _ => marker .dedent p), t.position.IsPlace := by
    intro t ht
    obtain ⟨_, _, rfl⟩ := List.mem_map.mp ht
    exact hp
  simp only at h
  split at h
  · cases h
    intro t ht
    rcases List.mem_append.mp ht with ht | ht
    · rcases List.mem_append.mp ht with ht | ht
      · rw [List.mem_singleton.mp ht]
        exact hc.here
      · exact hmarkers _ (hc.here.after _) t ht
    · rw [List.mem_singleton.mp ht]
      exact hc.here.after _
  · cases h
    intro t ht
    rcases List.mem_append.mp ht with ht | ht
    · exact hmarkers _ hc.here t ht
    · rw [List.mem_singleton.mp ht]
      exact hc.here

/-- Reading on from a place fails at a place. -/
theorem isPlace_tokens_error (hc : c.IsPlaced) (h : c.tokens = .error e) : e.position.IsPlace := by
  fun_induction tokens c with
  | case1 c e' hl =>
      cases h
      exact isPlace_enterLine_error hc hl
  | case2 c markers c₁ hl hr =>
      exact isPlace_finish_error (isPlaced_enterLine hc hl).2 (eq_error_of_map h)
  | case3 c markers c₁ hl ch cs hr e' ha =>
      cases h
      exact isPlace_advance_error (isPlaced_enterLine hc hl).2 ha
  | case4 c markers c₁ hl ch cs hr t c₂ ha ih =>
      exact ih (isPlaced_advance (isPlaced_enterLine hc hl).2 ha).2 (eq_error_of_map h)

theorem isPlace_tokens (hc : c.IsPlaced) (h : c.tokens = .ok ts) :
    ∀ t ∈ ts, t.position.IsPlace := by
  fun_induction tokens c generalizing ts with
  | case1 c e' hl => cases h
  | case2 c markers c₁ hl hr =>
      obtain ⟨us, hus, rfl⟩ := exists_of_map_eq_ok h
      obtain ⟨hmarkers, hc₁⟩ := isPlaced_enterLine hc hl
      exact List.forall_mem_append.mpr ⟨hmarkers, isPlace_finish hc₁ hus⟩
  | case3 c markers c₁ hl ch cs hr e' ha => cases h
  | case4 c markers c₁ hl ch cs hr t c₂ ha ih =>
      obtain ⟨us, hus, rfl⟩ := exists_of_map_eq_ok h
      obtain ⟨hmarkers, hc₁⟩ := isPlaced_enterLine hc hl
      obtain ⟨ht, hc₂⟩ := isPlaced_advance hc₁ ha
      refine List.forall_mem_append.mpr ⟨List.forall_mem_append.mpr ⟨hmarkers, ?_⟩, ih hc₂ hus⟩
      exact fun u hu => ht u (by simpa using hu)

end Cursor

theorem isPlaced_ofSource (source : Text) : (Cursor.ofSource source).IsPlaced :=
  ⟨Position.isPlace_start, by simp [Cursor.ofSource]⟩

theorem isPlace_tokenize_error {source : Text} {e : ParseError} (h : tokenize source = .error e) :
    e.position.IsPlace :=
  Cursor.isPlace_tokens_error (isPlaced_ofSource source) h

theorem isPlace_tokenize {source : Text} {ts : List Token} (h : tokenize source = .ok ts) :
    ∀ t ∈ ts, t.position.IsPlace :=
  Cursor.isPlace_tokens (isPlaced_ofSource source) h

end SchemaTidy
