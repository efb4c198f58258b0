import SchemaTidy.Proofs.Print.Comment
import SchemaTidy.Proofs.Print.Spacing

/-!
# The chunks of a tree

The chunks of well-formed items are sound unless words fuse, a comment hides code or the style breaks
literals. When literals keep their spellings, whatever the chunks may be printed as is a print of the
items.
-/

namespace SchemaTidy

/-- Whether a chunk is a word that fuses with the words behind it. -/
def wordFuses : Chunk → List Chunk → Bool
  | .text t _, cs => fuses t (gluedText cs)
  | _, _ => false

mutual

def Chunk.fuses : Chunk → Bool
  | .text _ _ => false
  | .strings _ _ => false
  | .bracket b => b.fuses

def Bracket.fuses : Bracket → Bool
  | ⟨_, _, _, slots, _, _, _, _, _, _⟩ => slotsFuse slots

def slotsFuse : List Slot → Bool
  | [] => false
  | s :: ss => s.fuses || slotsFuse ss

def Slot.fuses : Slot → Bool
  | ⟨chunks, _, _, _⟩ => chunksFuse chunks

def chunksFuse : List Chunk → Bool
  | [] => false
  | c :: cs => wordFuses c cs || c.fuses || chunksFuse cs

end

theorem Bracket.sound_iff (b : Bracket) : b.Sound ↔
    (∃ c, (c = '(' ∨ c = '[' ∨ c = '{') ∧ b.opening = [c] ∧ b.closing = [Cursor.matching c]) ∧
      SlotsSound b.slots ∧ (∀ c ∈ b.openingComment, IsRemark c) ∧ (∀ c ∈ b.dangling, IsRemark c) ∧
      (b.commaWhenFlat = true → b.slots ≠ []) ∧
      (b.isVirtual = true → (∃ run spaced, run.Sound ∧
        b.slots = [⟨[.strings run spaced], [], [], none⟩]) ∧ b.commaWhenExploded = false ∧
        b.commaWhenFlat = false) := by
  cases b
  rfl

theorem Bracket.prints_iff (b : Bracket) (us : List Shape) : b.Prints us ↔
    ∃ vs, SlotsPrint (b.commaWhenExploded || b.commaWhenFlat) b.slots vs ∧
      (us = (.op, b.opening) :: (vs ++ [(.op, b.closing)]) ∨ b.isVirtual = true ∧ us = vs) := by
  cases b
  rfl

theorem Bracket.fuses_eq (b : Bracket) : b.fuses = slotsFuse b.slots := by
  cases b
  rfl

theorem Slot.sound_iff (s : Slot) : s.Sound ↔
    s.chunks ≠ [] ∧ (∀ brackets, ChunksSound brackets s.chunks brackets) ∧
      (∀ c ∈ s.leading, IsRemark c) ∧ ∀ c ∈ s.trailing, IsRemark c := by
  cases s
  rfl

theorem Slot.fuses_eq (s : Slot) : s.fuses = chunksFuse s.chunks := by
  cases s
  rfl

theorem Slot.prints_iff (s : Slot) (us : List Shape) : s.Prints us ↔ ChunksPrint s.chunks us := by
  cases s
  rfl

/-! ## Parentheses around literals at the end -/

section Wrap

variable {introducers : List Text} {cs : List Chunk}

theorem gluedText_wrapLastRun : gluedText (wrapLastRun introducers cs) = gluedText cs := by
  fun_induction wrapLastRun introducers cs with
  | case1 t spaced run spaced' h => cases spaced <;> rfl
  | case2 t spaced run spaced' h => rfl
  | case3 c cs h ih =>
      cases c with
      | text t spaced =>
          cases spaced with
          | false => rw [gluedText, gluedText, ih]
          | true => rfl
      | strings run spaced => rfl
      | bracket b => rfl
  | case4 => rfl

theorem literalsFollow_wrapLastRun :
    literalsFollow (wrapLastRun introducers cs) = literalsFollow cs := by
  fun_cases wrapLastRun introducers cs with
  | case1 t spaced run spaced' h => rfl
  | case2 t spaced run spaced' h => rfl
  | case3 c cs h => cases c <;> rfl
  | case4 => rfl

theorem wrapLastRun_ne_nil (h : cs ≠ []) : wrapLastRun introducers cs ≠ [] := by
  fun_cases wrapLastRun introducers cs with
  | case1 t spaced run spaced' h => simp
  | case2 t spaced run spaced' h => simp
  | case3 c cs h => simp
  | case4 => exact h

theorem wordFuses_wrapLastRun (c : Chunk) :
    wordFuses c (wrapLastRun introducers cs) = wordFuses c cs := by
  cases c with
  | text t spaced => rw [wordFuses, wordFuses, gluedText_wrapLastRun]
  | _ => rfl

theorem chunksFuse_wrapLastRun : chunksFuse (wrapLastRun introducers cs) = chunksFuse cs := by
  fun_induction wrapLastRun introducers cs with
  | case1 t spaced run spaced' h =>
      simp [chunksFuse, wordFuses, gluedText, Chunk.fuses, Bracket.fuses_eq, Bracket.virtual,
        slotsFuse, Slot.fuses_eq]
  | case2 t spaced run spaced' h => rfl
  | case3 c cs h ih => rw [chunksFuse, chunksFuse, ih, wordFuses_wrapLastRun]
  | case4 => rfl

theorem sound_virtual {run : StringRun} (h : run.Sound) (spaced : Bool) :
    (Bracket.virtual run spaced).Sound := by
  have hslot : Slot.Sound ⟨[.strings run false], [], [], none⟩ :=
    ⟨by simp, fun _ => ⟨h, rfl, rfl⟩, by simp, by simp⟩
  exact ⟨⟨'(', .inl rfl, rfl, rfl⟩, ⟨hslot, trivial⟩, by simp, by simp, by simp,
    fun _ => ⟨⟨run, false, h, rfl⟩, rfl, rfl⟩⟩

theorem ChunksSound.wrap {brackets brackets' : List Char} (h : ChunksSound brackets cs brackets') :
    ChunksSound brackets (wrapLastRun introducers cs) brackets' := by
  fun_induction wrapLastRun introducers cs generalizing brackets with
  | case1 t spaced run spaced' hmem =>
      obtain ⟨brackets₁, ⟨kind, hkind, hstring, hcuts, hbrackets, hliterals⟩, hrun, -, hrest⟩ := h
      refine ⟨brackets₁, ⟨kind, hkind, hstring, hcuts, hbrackets, fun hfollow => ?_⟩,
        sound_virtual hrun spaced', fun _ => rfl, hrest⟩
      exact hliterals (by simpa [literalsFollow, Bracket.virtual] using hfollow)
  | case2 t spaced run spaced' hmem => exact h
  | case3 c cs hne ih =>
      cases c with
      | text t spaced =>
          obtain ⟨brackets₁, ⟨kind, hkind, hstring, hcuts, hbrackets, hliterals⟩, hrest⟩ := h
          refine ⟨brackets₁, ⟨kind, hkind, hstring, ?_, hbrackets, ?_⟩, ih hrest⟩
          · rw [gluedText_wrapLastRun]
            exact hcuts
          · rw [literalsFollow_wrapLastRun]
            exact hliterals
      | strings run spaced =>
          obtain ⟨hrun, hfollow, hrest⟩ := h
          exact ⟨hrun, literalsFollow_wrapLastRun.trans hfollow, ih hrest⟩
      | bracket b =>
          obtain ⟨hb, hfollow, hrest⟩ := h
          exact ⟨hb, fun hvirtual => literalsFollow_wrapLastRun.trans (hfollow hvirtual), ih hrest⟩
  | case4 => exact h

end Wrap

/-- A token sequence that chunks may be printed as when literals at the end may get parentheses. -/
def ChunksPrintWrapped : List Chunk → List Shape → Prop
  | [], us => us = []
  | c :: cs, us =>
      (∃ vs ws, c.Prints vs ∧ ChunksPrintWrapped cs ws ∧ us = vs ++ ws) ∨
        (cs = [] ∧ ∃ run spaced vs, c = .strings run spaced ∧ run.Prints vs ∧
          us = Shape.openingParen :: (vs ++ [Shape.closingParen]))

theorem ChunksPrint.wrapped {cs : List Chunk} {us : List Shape} (h : ChunksPrint cs us) :
    ChunksPrintWrapped cs us := by
  induction cs generalizing us with
  | nil => exact h
  | cons c cs ih =>
      obtain ⟨vs, ws, hvs, hws, rfl⟩ := h
      exact .inl ⟨vs, ws, hvs, ih hws, rfl⟩

theorem wrapped_of_wrapLastRun {introducers : List Text} {cs : List Chunk} {us : List Shape}
    (h : ChunksPrint (wrapLastRun introducers cs) us) : ChunksPrintWrapped cs us := by
  fun_induction wrapLastRun introducers cs generalizing us with
  | case1 t spaced run spaced' hmem =>
      obtain ⟨vs, ws, hvs, ⟨xs, ys, hxs, hys, rfl⟩, rfl⟩ := h
      obtain rfl : ys = [] := hys
      refine .inl ⟨vs, xs, hvs, ?_, by simp⟩
      obtain ⟨zs, hzs, hparens⟩ := hxs
      obtain ⟨as, bs, ⟨ps, qs, hps, rfl, rfl⟩, rfl, hbs⟩ := hzs
      obtain rfl : bs = [] := by
        rcases hbs with ⟨-, rfl | ⟨hcomma, -⟩⟩ | ⟨hne, -⟩
        · rfl
        · cases hcomma
        · exact absurd rfl hne
      rcases hparens with rfl | ⟨-, rfl⟩
      · exact .inr ⟨rfl, run, spaced', ps, rfl, hps, by simp [Shape.openingParen, Shape.closingParen]⟩
      · exact .inl ⟨ps, [], hps, rfl, by simp⟩
  | case2 t spaced run spaced' hmem => exact h.wrapped
  | case3 c cs hne ih =>
      obtain ⟨vs, ws, hvs, hws, rfl⟩ := h
      exact .inl ⟨vs, ws, hvs, ih hws, rfl⟩
  | case4 => exact h

/-! ## Soundness -/

section Equations

variable (style : Style) (spacer : Spacer) (run : List Text) (rest : List Item)

theorem chunksOf_string {t : Token} (h : t.kind = .string) :
    chunksOf style spacer run (.token t :: rest) =
      chunksOf style spacer (run ++ [t.text]) rest := by
  rw [chunksOf, h]
  rfl

theorem chunksOf_word {t : Token} (h : t.kind ≠ .string) :
    chunksOf style spacer run (.token t :: rest) =
      (runChunk style spacer run).1 ++
        .text t.text ((runChunk style spacer run).2.next (.token t.kind t.text)).1 ::
          chunksOf style ((runChunk style spacer run).2.advance (.token t.kind t.text)) [] rest := by
  rw [chunksOf, beq_false_of_ne h]
  rfl

theorem chunksOf_group (g : Group) :
    chunksOf style spacer run (.group g :: rest) =
      (runChunk style spacer run).1 ++
        .bracket (g.bracket style ((runChunk style spacer run).2.next (.opening g.kind)).1) ::
          chunksOf style ((runChunk style spacer run).2.advance (.opening g.kind)) [] rest := by
  rw [chunksOf]
  rfl

theorem chunksOf_literals (x : Text) : ∃ r cs, chunksOf style spacer (x :: run) rest =
    .strings r (spacer.next (.token .string x)).1 :: cs := by
  induction rest generalizing run with
  | nil => exact ⟨_, _, rfl⟩
  | cons i rest ih =>
      cases i with
      | token t =>
          by_cases h : t.kind = .string
          · rw [chunksOf_string _ _ _ _ h]
            exact ih (run ++ [t.text])
          · rw [chunksOf_word _ _ _ _ h]
            exact ⟨_, _, rfl⟩
      | group g =>
          rw [chunksOf_group]
          exact ⟨_, _, rfl⟩

theorem chunksOf_ne_nil (h : run ≠ [] ∨ rest ≠ []) : chunksOf style spacer run rest ≠ [] := by
  induction rest generalizing run with
  | nil =>
      obtain ⟨x, run, rfl⟩ := List.exists_cons_of_ne_nil (h.resolve_right (by simp))
      simp [chunksOf, runChunk]
  | cons i rest ih =>
      cases i with
      | token t =>
          by_cases hkind : t.kind = .string
          · rw [chunksOf_string _ _ _ _ hkind]
            exact ih _ (.inl (by simp))
          · simp [chunksOf_word _ _ _ _ hkind]
      | group g => simp [chunksOf_group]

end Equations

@[simp] theorem isVirtual_bracket (style : Style) (spaced : Bool) (g : Group) :
    (g.bracket style spaced).isVirtual = false := by
  cases g
  rfl

/-- A style under which literals keep their spellings. -/
structure Style.KeepsLiterals (style : Style) : Prop where
  quotes : style.normalizeQuotes = false
  wrap : style.wrapStrings = false

mutual

/-- The runs of literals of some items. `run` holds the literals directly before them. -/
def literalRunsFrom (run : List Text) : List Item → List (List Text)
  | [] => [run]
  | .token t :: rest =>
      if t.kind == .string then literalRunsFrom (run ++ [t.text]) rest
      else run :: literalRunsFrom [] rest
  | .group g :: rest => run :: (g.literalRuns ++ literalRunsFrom [] rest)

def Group.literalRuns : Group → List (List Text)
  | ⟨_, elements, _, _, _⟩ => literalRunsOf elements

def literalRunsOf : List Element → List (List Text)
  | [] => []
  | ⟨items, _⟩ :: es => literalRunsFrom [] items ++ literalRunsOf es

end

/-- Literals that are read as literals however the style prints them. -/
def Style.SoundOn (style : Style) (runs : List (List Text)) : Prop :=
  ∀ run ∈ runs, run ≠ [] → (StringRun.ofTexts style run).Sound

theorem Style.soundOn_cons {style : Style} {run : List Text} {runs : List (List Text)} :
    style.SoundOn (run :: runs) ↔
      (run ≠ [] → (StringRun.ofTexts style run).Sound) ∧ style.SoundOn runs :=
  List.forall_mem_cons

theorem Style.soundOn_append {style : Style} {runs runs' : List (List Text)} :
    style.SoundOn (runs ++ runs') ↔ style.SoundOn runs ∧ style.SoundOn runs' :=
  List.forall_mem_append

section Runs

variable {style : Style} (run : List Text) (rest : List Item)

theorem literalRunsFrom_string {t : Token} (h : t.kind = .string) :
    literalRunsFrom run (.token t :: rest) = literalRunsFrom (run ++ [t.text]) rest := by
  rw [literalRunsFrom, if_pos (by simp [h])]

theorem literalRunsFrom_word {t : Token} (h : t.kind ≠ .string) :
    literalRunsFrom run (.token t :: rest) = run :: literalRunsFrom [] rest := by
  rw [literalRunsFrom, if_neg (by simp [h])]

theorem pieces_ofTexts (hstyle : style.KeepsLiterals) :
    (StringRun.ofTexts style run).flatPieces = run ∧
      ∀ available, (StringRun.ofTexts style run).lines available = run := by
  have hmerged : mergeLiterals? style run = none := by
    simp [mergeLiterals?, hstyle.wrap]
  have hsame : normalizeLiteral style = id := by
    funext t
    simp [normalizeLiteral, hstyle.quotes]
  simp [StringRun.ofTexts, StringRun.flatPieces, StringRun.lines, hmerged, hsame]

theorem prints_ofTexts (hstyle : style.KeepsLiterals) {us : List Shape}
    (h : (StringRun.ofTexts style run).Prints us) : us = run.map (TokenKind.string, ·) := by
  obtain ⟨hflat, hlines⟩ := pieces_ofTexts run hstyle
  obtain ⟨ps, rfl | ⟨available, rfl⟩, rfl⟩ := h
  · rw [hflat]
  · rw [hlines]

theorem sound_ofTexts (hstyle : style.KeepsLiterals) (hne : run ≠ [])
    (h : ∀ y ∈ run, Lexeme.Cuts .string y []) : (StringRun.ofTexts style run).Sound := by
  obtain ⟨hflat, hlines⟩ := pieces_ofTexts run hstyle
  exact ⟨by rwa [hflat], by rwa [hflat], fun available => by rwa [hlines]⟩

mutual

theorem soundOn_literalRunsFrom (hstyle : style.KeepsLiterals) : ∀ {items : List Item}
    {run : List Text}, ItemsWellFormed items → (∀ x ∈ run, Lexeme.Cuts .string x []) →
    style.SoundOn (literalRunsFrom run items)
  | [], run, _, hrun =>
      Style.soundOn_cons.mpr ⟨fun hne => sound_ofTexts _ hstyle hne hrun, by simp [Style.SoundOn]⟩
  | .token t :: rest, run, hitems, hrun => by
      by_cases hkind : t.kind = .string
      · rw [literalRunsFrom_string _ _ hkind]
        refine soundOn_literalRunsFrom hstyle hitems.2 fun x hx => ?_
        rcases List.mem_append.mp hx with hx | hx
        · exact hrun x hx
        · rw [List.mem_singleton.mp hx, ← hkind]
          exact hitems.1.2.1
      · rw [literalRunsFrom_word _ _ hkind]
        exact Style.soundOn_cons.mpr ⟨fun hne => sound_ofTexts _ hstyle hne hrun,
          soundOn_literalRunsFrom hstyle hitems.2 (by simp)⟩
  | .group g :: rest, run, hitems, hrun => by
      rw [literalRunsFrom]
      exact Style.soundOn_cons.mpr ⟨fun hne => sound_ofTexts _ hstyle hne hrun,
        Style.soundOn_append.mpr ⟨soundOn_literalRuns hstyle hitems.1,
          soundOn_literalRunsFrom hstyle hitems.2 (by simp)⟩⟩

theorem soundOn_literalRuns (hstyle : style.KeepsLiterals) : ∀ {g : Group}, g.WellFormed →
    style.SoundOn g.literalRuns
  | ⟨_, _, _, _, _⟩, hg => soundOn_literalRunsOf hstyle hg.2.1

theorem soundOn_literalRunsOf (hstyle : style.KeepsLiterals) : ∀ {s : Scope}
    {elements : List Element}, ElementsWellFormed s elements → style.SoundOn (literalRunsOf elements)
  | s, [], _ => by simp [Style.SoundOn, literalRunsOf]
  | s, ⟨items, comma⟩ :: es, hes => by
      obtain ⟨⟨-, -, hitems⟩, hcomma⟩ := hes
      rw [literalRunsOf]
      refine Style.soundOn_append.mpr ⟨soundOn_literalRunsFrom hstyle hitems (by simp), ?_⟩
      cases comma with
      | none =>
          obtain rfl : es = [] := hcomma
          simp [Style.SoundOn, literalRunsOf]
      | some c => exact soundOn_literalRunsOf hstyle hcomma.2

end

end Runs

section Sound

variable {style : Style}

theorem chunksFuse_runChunk (spacer : Spacer) (run : List Text) (cs : List Chunk) :
    chunksFuse ((runChunk style spacer run).1 ++ cs) = chunksFuse cs := by
  cases run with
  | nil => rfl
  | cons x run =>
      show chunksFuse (.strings _ _ :: cs) = chunksFuse cs
      rw [chunksFuse]
      rfl

theorem sound_runChunk {spacer : Spacer} {run : List Text} {cs : List Chunk}
    {brackets brackets' : List Char} (hrun : run ≠ [] → (StringRun.ofTexts style run).Sound)
    (hfollow : literalsFollow cs = false) (h : ChunksSound brackets cs brackets') :
    ChunksSound brackets ((runChunk style spacer run).1 ++ cs) brackets' := by
  cases run with
  | nil => exact h
  | cons x run => exact ⟨hrun (by simp), hfollow, h⟩

/-- A word is a token before the chunks of the items that follow it, unless it fuses with them. -/
theorem wordSound_of_not_fuses {spacer : Spacer} {t : Token} {rest : List Item}
    (brackets : List Char) (ht : t.IsLeaf) (hkind : t.kind ≠ .string)
    (h : fuses t.text
      (gluedText (chunksOf style (spacer.advance (.token t.kind t.text)) [] rest)) = false) :
    WordSound brackets t.text (chunksOf style (spacer.advance (.token t.kind t.text)) [] rest)
      brackets := by
  obtain ⟨hword, hcuts, hopening, hclosing⟩ := ht
  have hbrackets := bracketsAfter_of_isLeaf hopening hclosing hcuts brackets
  by_cases hop : t.kind = .op
  · refine ⟨t.kind, hword, hkind, ?_, hbrackets, fun _ => hop⟩
    rw [hop] at hcuts h ⊢
    exact hcuts.op_before h
  have hplain : t.kind = .name ∨ t.kind = .number := by
    cases hk : t.kind <;> simp_all [TokenKind.isWord]
  have hatom : ∀ text, Atom.token t.kind t.text ≠ .token .op text := by
    intro text heq
    exact hop (Atom.token.inj heq).1
  generalize hs : spacer.advance (.token t.kind t.text) = s at h ⊢
  have hnext (b : Atom) (hb : (s.next b).1 = false) :
      (∃ kind, b = .opening kind) ∨ ∃ op ∈ tightOperators, b = .token .op op := by
    rw [← hs] at hb
    exact Spacer.separates_of_not_op hatom hb
  have halone (cs : List Chunk) (hglued : gluedText cs = []) (hfollow : literalsFollow cs = false) :
      WordSound brackets t.text cs brackets :=
    ⟨t.kind, hword, hkind, by rwa [hglued], hbrackets, by simp [hfollow]⟩
  cases rest with
  | nil => exact halone _ rfl rfl
  | cons i rest =>
      cases i with
      | group g =>
          rw [chunksOf_group]
          exact halone _ rfl (by simp [runChunk, literalsFollow])
      | token u =>
          by_cases hu : u.kind = .string
          · rw [chunksOf_string _ _ _ _ hu]
            obtain ⟨r, cs, hcs⟩ := chunksOf_literals style s [] rest u.text
            have hspaced : (s.next (.token .string u.text)).1 = true := by
              cases hsp : (s.next (.token .string u.text)).1 with
              | true => rfl
              | false =>
                  rcases hnext _ hsp with ⟨kind, hb⟩ | ⟨op, -, hb⟩
                  · cases hb
                  · cases hb
            rw [List.nil_append, hcs, hspaced]
            exact halone _ rfl rfl
          · rw [chunksOf_word _ _ _ _ hu] at h ⊢
            simp only [runChunk, List.nil_append] at h ⊢
            cases hsp : (s.next (.token u.kind u.text)).1 with
            | true => exact halone _ rfl rfl
            | false =>
                rw [hsp, gluedText] at h
                rcases hnext _ hsp with ⟨kind, hb⟩ | ⟨op, hmem, hb⟩
                · cases hb
                · obtain ⟨-, htext⟩ := Atom.token.inj hb
                  rw [htext] at h ⊢
                  refine ⟨t.kind, hword, hkind, ?_, hbrackets, by simp [literalsFollow]⟩
                  rw [gluedText]
                  exact cuts_tight hplain hcuts hmem h

theorem slots_bracket {style : Style} {spaced : Bool} {opening closing : Token}
    {elements : List Element} {kind : GroupKind} :
    (Group.bracket style spaced ⟨opening, elements, closing, kind, false⟩).slots =
      slotsOf style kind closing.trivia elements := by
  simp [Group.bracket, Group.bracketOf]

theorem slotsOf_ne_nil {kind : GroupKind} {closing : Text} {elements : List Element}
    (h : elements ≠ []) : slotsOf style kind closing elements ≠ [] := by
  cases elements with
  | nil => exact absurd rfl h
  | cons e es => simp [slotsOf]

theorem firstToken_mem (i : Item) : i.firstToken ∈ i.tokens := by
  cases i with
  | token t => simp [Item.firstToken]
  | group g =>
      cases g
      simp [Item.firstToken, Group.tokens]

theorem firstToken_mem_tokensOfItems {items : List Item} {i : Item} (h : i ∈ items) :
    i.firstToken ∈ tokensOfItems items := by
  induction items with
  | nil => simp at h
  | cons j items ih =>
      rw [tokensOfItems_cons, List.mem_append]
      rcases List.mem_cons.mp h with rfl | h
      · exact .inl (firstToken_mem i)
      · exact .inr (ih h)

theorem isRemark_innerComments {items : List Item}
    (h : ∀ t ∈ tokensOfItems items, Trivia.hidesCode t.trivia = false) :
    ∀ c ∈ innerComments items, IsRemark c := by
  intro c hc
  obtain ⟨i, hi, hc⟩ := List.mem_flatMap.mp hc
  refine Trivia.isRemark_comments (h _ ?_) c hc
  exact firstToken_mem_tokensOfItems (List.mem_of_mem_tail hi)

theorem isRemark_leading {items : List Item} {comma : Option Token}
    (h : ∀ t ∈ tokensOfItems items, Trivia.hidesCode t.trivia = false) :
    ∀ c ∈ Trivia.ownLineComments (Element.leadingTrivia ⟨items, comma⟩) ++ innerComments items,
      IsRemark c := by
  intro c hc
  rcases List.mem_append.mp hc with hc | hc
  · cases items with
    | nil => simp [Element.leadingTrivia, Trivia.ownLineComments, Trivia.splitSameLine,
        Trivia.lines, Text.splitAfter] at hc
    | cons i items =>
        exact Trivia.isRemark_ownLine (h _ (firstToken_mem_tokensOfItems (by simp))) c hc
  · exact isRemark_innerComments h c hc

/-- Soundness of the slot of an element, given that of the chunks of its items. -/
theorem sound_slotOf {kind : GroupKind} {following : Text} {items : List Item}
    {comma : Option Token} {chunks : List Chunk} (hne : chunks ≠ [])
    (hchunks : chunksFuse chunks = false → ∀ brackets, ChunksSound brackets chunks brackets)
    (hitems : ∀ t ∈ tokensOfItems items, Trivia.hidesCode t.trivia = false)
    (hcomma : ∀ t ∈ comma, Trivia.hidesCode t.trivia = false)
    (h : (Element.slotOf kind following ⟨items, comma⟩ chunks).fuses = false) :
    (Element.slotOf kind following ⟨items, comma⟩ chunks).Sound := by
  rw [Slot.fuses_eq] at h
  rw [Slot.sound_iff]
  refine ⟨?_, ?_, isRemark_leading hitems, ?_⟩
  · simp only [Element.slotOf]
    split
    · exact wrapLastRun_ne_nil hne
    split
    · exact wrapLastRun_ne_nil hne
    · exact hne
  · intro brackets
    simp only [Element.slotOf] at h ⊢
    split
    · rename_i hbrace
      rw [if_pos hbrace, chunksFuse_wrapLastRun] at h
      exact (hchunks h brackets).wrap
    rename_i hbrace
    rw [if_neg hbrace] at h
    split
    · rename_i hcall
      rw [if_pos hcall, chunksFuse_wrapLastRun] at h
      exact (hchunks h brackets).wrap
    · rename_i hcall
      rw [if_neg hcall] at h
      exact hchunks h brackets
  · intro c hc
    rcases List.mem_append.mp hc with hc | hc
    · cases comma with
      | none => simp at hc
      | some t => exact Trivia.isRemark_comments (hcomma t rfl) c hc
    · exact (Trivia.isComment_sameLine c hc).isRemark

mutual

/-- The chunks of well-formed items are sound, unless words fuse. -/
theorem chunksOf_sound : ∀ {items : List Item} (spacer : Spacer) {run : List Text}
    (brackets : List Char), ItemsWellFormed items →
    (∀ t ∈ tokensOfItems items, Trivia.hidesCode t.trivia = false) →
    style.SoundOn (literalRunsFrom run items) →
    chunksFuse (chunksOf style spacer run items) = false →
    ChunksSound brackets (chunksOf style spacer run items) brackets
  | [], spacer, run, brackets, _, _, hrun, _ => by
      have hnil : ChunksSound brackets [] brackets := rfl
      have hsound := @sound_runChunk _ spacer run _ _ _ (Style.soundOn_cons.mp hrun).1 rfl hnil
      rwa [List.append_nil] at hsound
  | .token t :: rest, spacer, run, brackets, hitems, hplain, hrun, hfuse => by
      have hrest : ∀ u ∈ tokensOfItems rest, Trivia.hidesCode u.trivia = false :=
        fun u hu => hplain u (by simp [hu])
      by_cases hkind : t.kind = .string
      · rw [chunksOf_string _ _ _ _ hkind] at hfuse ⊢
        rw [literalRunsFrom_string _ _ hkind] at hrun
        exact chunksOf_sound spacer brackets hitems.2 hrest hrun hfuse
      · rw [chunksOf_word _ _ _ _ hkind] at hfuse ⊢
        rw [literalRunsFrom_word _ _ hkind] at hrun
        obtain ⟨hrun, hruns⟩ := Style.soundOn_cons.mp hrun
        rw [chunksFuse_runChunk, chunksFuse] at hfuse
        simp only [Bool.or_eq_false_iff] at hfuse
        obtain ⟨⟨hword, -⟩, hfuse⟩ := hfuse
        refine sound_runChunk hrun rfl ⟨brackets, ?_, ?_⟩
        · exact wordSound_of_not_fuses brackets hitems.1 hkind hword
        · exact chunksOf_sound _ brackets hitems.2 hrest hruns hfuse
  | .group g :: rest, spacer, run, brackets, hitems, hplain, hrun, hfuse => by
      have hrest : ∀ u ∈ tokensOfItems rest, Trivia.hidesCode u.trivia = false :=
        fun u hu => hplain u (by simp [hu])
      have hgroup : ∀ u ∈ g.tokens, Trivia.hidesCode u.trivia = false :=
        fun u hu => hplain u (by simp [hu])
      rw [chunksOf_group] at hfuse ⊢
      rw [chunksFuse_runChunk, chunksFuse] at hfuse
      rw [literalRunsFrom] at hrun
      simp only [Bool.or_eq_false_iff] at hfuse
      obtain ⟨⟨-, hbracket⟩, hfuse⟩ := hfuse
      obtain ⟨hrun, hruns⟩ := Style.soundOn_cons.mp hrun
      obtain ⟨hinner, hruns⟩ := Style.soundOn_append.mp hruns
      refine sound_runChunk hrun (by simp [literalsFollow])
        ⟨bracket_sound _ hitems.1 hgroup hinner hbracket, by simp, ?_⟩
      exact chunksOf_sound _ brackets hitems.2 hrest hruns hfuse

theorem bracket_sound : ∀ {g : Group} (spaced : Bool), g.WellFormed →
    (∀ t ∈ g.tokens, Trivia.hidesCode t.trivia = false) → style.SoundOn g.literalRuns →
    (g.bracket style spaced).fuses = false → (g.bracket style spaced).Sound
  | ⟨opening, elements, closing, kind, sortable⟩, spaced, hg, hplain, hruns, hfuse => by
      obtain ⟨⟨-, -, c, hc, hopening, hclosing⟩, helements, rfl⟩ := hg
      have helementsPlain : ∀ t ∈ tokensOfElements elements, Trivia.hidesCode t.trivia = false :=
        fun t ht => hplain t (by simp [Group.tokens, ht])
      have hclosingPlain : Trivia.hidesCode closing.trivia = false :=
        hplain closing (by simp [Group.tokens])
      rw [Bracket.fuses_eq, slots_bracket] at hfuse
      rw [Bracket.sound_iff, slots_bracket]
      refine ⟨⟨c, hc, hopening, hclosing⟩, slotsOf_sound helements helementsPlain hruns hfuse,
        fun c hc => (Trivia.isComment_sameLine c hc).isRemark,
        Trivia.isRemark_ownLine hclosingPlain, ?_, by simp⟩
      intro hcomma
      refine slotsOf_ne_nil ?_
      rintro rfl
      cases hcomma

theorem slotsOf_sound : ∀ {s : Scope} {elements : List Element} {kind : GroupKind}
    {closing : Text}, ElementsWellFormed s elements →
    (∀ t ∈ tokensOfElements elements, Trivia.hidesCode t.trivia = false) →
    style.SoundOn (literalRunsOf elements) →
    slotsFuse (slotsOf style kind closing elements) = false →
    SlotsSound (slotsOf style kind closing elements)
  | s, [], kind, closing, _, _, _, _ => trivial
  | s, ⟨items, comma⟩ :: es, kind, closing, hes, hplain, hruns, hfuse => by
      obtain ⟨⟨hne, -, hitems⟩, hcomma⟩ := hes
      have hitemsPlain : ∀ t ∈ tokensOfItems items, Trivia.hidesCode t.trivia = false :=
        fun t ht => hplain t (by simp [tokensOfElements, Element.tokens, ht])
      have hcommaPlain : ∀ t ∈ comma, Trivia.hidesCode t.trivia = false :=
        fun t ht => hplain t (by simp [tokensOfElements, Element.tokens, Option.mem_def.mp ht])
      have hrestPlain : ∀ t ∈ tokensOfElements es, Trivia.hidesCode t.trivia = false :=
        fun t ht => hplain t (by simp [tokensOfElements, ht])
      rw [slotsOf, slotsFuse] at hfuse
      rw [literalRunsOf] at hruns
      simp only [Bool.or_eq_false_iff] at hfuse
      obtain ⟨hruns, hrestRuns⟩ := Style.soundOn_append.mp hruns
      refine ⟨?_, ?_⟩
      · refine sound_slotOf (chunksOf_ne_nil _ _ _ _ (.inr hne)) ?_ hitemsPlain
          hcommaPlain hfuse.1
        intro hfuse brackets
        exact chunksOf_sound _ brackets hitems hitemsPlain hruns hfuse
      · cases comma with
        | none =>
            obtain rfl : es = [] := hcomma
            trivial
        | some c => exact slotsOf_sound hcomma.2 hrestPlain hrestRuns hfuse.2

end

end Sound

/-! ## Prints -/

def literalItems (ts : List Token) : List Item := ts.map .token

theorem isLiteralRun_literalItems {ts : List Token} (h : ∀ t ∈ ts, t.kind = .string) :
    IsLiteralRun (literalItems ts) := by
  intro i hi
  obtain ⟨t, ht, rfl⟩ := List.mem_map.mp hi
  exact ⟨t, rfl, h t ht⟩

theorem shapesOf_literalItems {ts : List Token} (h : ∀ t ∈ ts, t.kind = .string) :
    shapesOf (literalItems ts) = (ts.map Token.text).map (TokenKind.string, ·) := by
  induction ts with
  | nil => rfl
  | cons t ts ih =>
      have ht := h t (by simp)
      have hrest := ih fun u hu => h u (by simp [hu])
      simp only [shapesOf, literalItems] at hrest ⊢
      simp [hrest, Token.shape, ht, TokenKind.isWord]

theorem itemsPrint_literalItems {ts : List Token} (h : ∀ t ∈ ts, t.kind = .string)
    {items : List Item} {us : List Shape} (hus : ItemsPrint items us) :
    ItemsPrint (literalItems ts ++ items)
      ((ts.map Token.text).map (TokenKind.string, ·) ++ us) := by
  induction ts with
  | nil => exact hus
  | cons t ts ih =>
      have ht := h t (by simp)
      have hrest := ih fun u hu => h u (by simp [hu])
      refine .inl ⟨[t.shape], _, rfl, hrest, ?_⟩
      simp [Token.shape, ht, TokenKind.isWord]

section Prints

variable {style : Style}

theorem wrapped_runChunk (hstyle : style.KeepsLiterals) {spacer : Spacer} {run : List Text}
    {c : Chunk} {cs : List Chunk} {us : List Shape}
    (h : ChunksPrintWrapped ((runChunk style spacer run).1 ++ c :: cs) us) :
    ∃ vs, ChunksPrintWrapped (c :: cs) vs ∧ us = run.map (TokenKind.string, ·) ++ vs := by
  cases run with
  | nil => exact ⟨us, h, rfl⟩
  | cons x run =>
      rcases h with ⟨vs, ws, hvs, hws, rfl⟩ | ⟨hnil, -⟩
      · obtain rfl := prints_ofTexts (x :: run) hstyle hvs
        exact ⟨ws, hws, rfl⟩
      · simp at hnil

theorem wrapped_of_slotOf {kind : GroupKind} {following : Text} {e : Element} {chunks : List Chunk}
    {us : List Shape} (h : (e.slotOf kind following chunks).Prints us) :
    ChunksPrintWrapped chunks us := by
  rw [Slot.prints_iff] at h
  simp only [Element.slotOf] at h
  split at h
  · exact wrapped_of_wrapLastRun h
  split at h
  · exact wrapped_of_wrapLastRun h
  · exact h.wrapped

mutual

/-- What the chunks of items may be printed as is a print of the items. -/
theorem chunksOf_prints (hstyle : style.KeepsLiterals) : ∀ {items : List Item} {spacer : Spacer}
    {ts : List Token} {us : List Shape}, ItemsWellFormed items → (∀ t ∈ ts, t.kind = .string) →
    ChunksPrintWrapped (chunksOf style spacer (ts.map Token.text) items) us →
    ItemsPrint (literalItems ts ++ items) us
  | [], spacer, ts, us, _, hts, hus => by
      cases ts with
      | nil => exact hus
      | cons t ts =>
          rcases hus with ⟨vs, ws, hvs, hws, rfl⟩ | ⟨-, r, sp, vs, hr, hvs, rfl⟩
          · obtain rfl := prints_ofTexts (t.text :: ts.map Token.text) hstyle hvs
            obtain rfl : ws = [] := hws
            exact itemsPrint_literalItems hts rfl
          · obtain ⟨rfl, -⟩ := Chunk.strings.inj hr
            obtain rfl := prints_ofTexts (t.text :: ts.map Token.text) hstyle hvs
            rw [List.append_nil, ← List.map_cons, ← shapesOf_literalItems hts]
            exact .inr ⟨isLiteralRun_literalItems hts, rfl⟩
  | .token t :: rest, spacer, ts, us, hitems, hts, hus => by
      by_cases hkind : t.kind = .string
      · rw [chunksOf_string _ _ _ _ hkind] at hus
        have hmap : ts.map Token.text ++ [t.text] = (ts ++ [t]).map Token.text := by simp
        rw [hmap] at hus
        have hall : ∀ u ∈ ts ++ [t], u.kind = .string := by
          intro u hu
          rcases List.mem_append.mp hu with hu | hu
          · exact hts u hu
          · rw [List.mem_singleton.mp hu]
            exact hkind
        have hprint := chunksOf_prints hstyle hitems.2 hall hus
        simpa [literalItems] using hprint
      · rw [chunksOf_word _ _ _ _ hkind] at hus
        obtain ⟨vs, hvs, rfl⟩ := wrapped_runChunk hstyle hus
        refine itemsPrint_literalItems hts ?_
        rcases hvs with ⟨xs, ys, ⟨kind, hcuts, rfl⟩, hys, rfl⟩ | ⟨-, _, _, _, hc, -⟩
        · obtain ⟨hword, hcuts', -⟩ := hitems.1
          obtain rfl := hcuts.kind_eq hcuts'
          refine .inl ⟨[t.shape], ys, rfl, ?_, ?_⟩
          · have hprint := @chunksOf_prints hstyle rest _ [] ys hitems.2 (by simp) hys
            exact hprint
          · simp [Token.shape, hword]
        · cases hc
  | .group g :: rest, spacer, ts, us, hitems, hts, hus => by
      rw [chunksOf_group] at hus
      obtain ⟨vs, hvs, rfl⟩ := wrapped_runChunk hstyle hus
      refine itemsPrint_literalItems hts ?_
      rcases hvs with ⟨xs, ys, hxs, hys, rfl⟩ | ⟨-, _, _, _, hc, -⟩
      · refine .inl ⟨xs, ys, bracket_prints hstyle hitems.1 hxs, ?_, rfl⟩
        have hprint := @chunksOf_prints hstyle rest _ [] ys hitems.2 (by simp) hys
        exact hprint
      · cases hc

theorem bracket_prints (hstyle : style.KeepsLiterals) : ∀ {g : Group} {spaced : Bool}
    {us : List Shape}, g.WellFormed → (g.bracket style spaced).Prints us → g.Prints us
  | ⟨opening, elements, closing, kind, sortable⟩, spaced, us, hg, hus => by
      obtain ⟨⟨hopening, hclosing, -⟩, helements, rfl⟩ := hg
      rw [Bracket.prints_iff, slots_bracket] at hus
      obtain ⟨vs, hvs, hus⟩ := hus
      refine ⟨vs, slotsOf_prints hstyle helements hvs, ?_⟩
      have hopen : opening.shape = (.op, opening.text) := by
        simp [Token.shape, hopening, TokenKind.isWord]
      have hclose : closing.shape = (.op, closing.text) := by
        simp [Token.shape, hclosing, TokenKind.isWord]
      rcases hus with hus | ⟨hvirtual, -⟩
      · rw [hopen, hclose]
        exact hus
      · simp at hvirtual

theorem slotsOf_prints (hstyle : style.KeepsLiterals) : ∀ {s : Scope} {elements : List Element}
    {kind : GroupKind} {closing : Text} {comma : Bool} {us : List Shape},
    ElementsWellFormed s elements → SlotsPrint comma (slotsOf style kind closing elements) us →
    ElementsPrint elements us
  | s, [], kind, closing, comma, us, _, hus => hus
  | s, ⟨items, c⟩ :: es, kind, closing, comma, us, hes, hus => by
      obtain ⟨⟨hne, -, hitems⟩, hcomma⟩ := hes
      obtain ⟨vs, ws, hvs, rfl, hws⟩ := hus
      refine ⟨vs, ws, ?_, rfl, ?_⟩
      · exact @chunksOf_prints hstyle items _ [] vs hitems (by simp) (wrapped_of_slotOf hvs)
      · rcases hws with ⟨hnil, hws⟩ | ⟨hmore, ws', hws', rfl⟩
        · left
          refine ⟨?_, hws.imp_right And.right⟩
          by_cases hes : es = []
          · exact hes
          · exact absurd hnil (slotsOf_ne_nil hes)
        · right
          refine ⟨?_, ws', ?_, rfl⟩
          · rintro rfl
            exact hmore rfl
          · cases c with
            | none =>
                obtain rfl : es = [] := hcomma
                exact absurd rfl hmore
            | some t => exact slotsOf_prints hstyle hcomma.2 hws'

end

end Prints

end SchemaTidy
