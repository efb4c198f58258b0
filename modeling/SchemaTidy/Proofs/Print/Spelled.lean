import SchemaTidy.Proofs.Print.Rows

/-!
# The words of a layout

`LinesSpell` reads physical lines as words and comments. However chunks are laid out, their lines
spell the texts of the chunks in order, each bracket either flat or exploded, and hold every comment
of the chunks in order, each at the end of a line. No soundness of the chunks is asked for.
-/

namespace SchemaTidy

/-- A comment that stays on one line. -/
def IsNote (c : Text) : Prop := c.head? = some '#' ∧ '\n' ∉ c

/-- Words in a row, with blanks before, between and behind them. -/
inductive Spaced : List Text → Text → Prop
  | nil : Spaced [] []
  | blank {ws : List Text} {t : Text} : Spaced ws t → Spaced ws (' ' :: t)
  | word {ws : List Text} {t : Text} (w : Text) : Spaced ws t → Spaced (w :: ws) (w ++ t)

/-- A physical line at or below an indentation: words and comments behind them, or a comment. -/
inductive LineSpells (indent : Text) : Text → List Text → List Text → Prop
  | code {ws cs : List Text} {t : Text} (h : Spaced ws t) (hcs : ∀ c ∈ cs, IsNote c) :
      LineSpells indent (indent ++ (t ++ commentTail cs)) ws cs
  | comment {c : Text} (n : Nat) (hc : IsNote c) :
      LineSpells indent (indent ++ (List.replicate n ' ' ++ c)) [] [c]

/-- Physical lines with their words and their comments. -/
inductive LinesSpell (indent : Text) : List Text → List Text → List Text → Prop
  | nil : LinesSpell indent [] [] []
  | cons {l : Text} {ls ws ws' cs cs' : List Text} (h : LineSpells indent l ws cs)
      (hls : LinesSpell indent ls ws' cs') :
      LinesSpell indent (l :: ls) (ws ++ ws') (cs ++ cs')

def wordOf (t : Text) : List Text := if t.isEmpty then [] else [t]

def commaWord (comma : Bool) : List Text := if comma then [[',']] else []

mutual

def Chunk.flatWords : Chunk → List Text
  | .text t _ => [t]
  | .strings run _ => run.flatPieces
  | .bracket b => b.flatWords

def Bracket.flatWords : Bracket → List Text
  | ⟨_, opening, closing, slots, _, _, _, commaWhenFlat, isVirtual, _⟩ =>
      if isVirtual then slotsFlatWords slots
      else opening :: (slotsFlatWords slots ++ commaWord commaWhenFlat ++ [closing])

def Slot.flatWords : Slot → List Text
  | ⟨chunks, _, _, _⟩ => chunksFlatWords chunks

/-- The words of slots on one line, with commas between them. -/
def slotsFlatWords : List Slot → List Text
  | [] => []
  | s :: ss => s.flatWords ++ commaWord (!ss.isEmpty) ++ slotsFlatWords ss

/-- The words of a sequence of chunks on one line. -/
def chunksFlatWords : List Chunk → List Text
  | [] => []
  | c :: cs => c.flatWords ++ chunksFlatWords cs

end

/-- Whether a run of literals may be laid out as words: flat, or one literal for each line. -/
def StringRun.Spells (run : StringRun) (ws : List Text) : Prop :=
  ws = run.flatPieces ∨ ∃ available, ws = run.lines available

mutual

def ChunksSpell : List Chunk → List Text → Prop
  | [], ws => ws = []
  | c :: cs, ws => ∃ us vs, c.Spells us ∧ ChunksSpell cs vs ∧ ws = us ++ vs

def Chunk.Spells : Chunk → List Text → Prop
  | .text t _, ws => ws = [t]
  | .strings run _, ws => run.Spells ws
  | .bracket b, ws => b.Spells ws

/-- Whether a bracket may be laid out as words. It is flat or exploded. -/
def Bracket.Spells : Bracket → List Text → Prop
  | ⟨spaced, opening, closing, slots, openingComment, dangling, commaWhenExploded, commaWhenFlat,
      isVirtual, forced⟩, ws =>
      ws = Bracket.flatWords ⟨spaced, opening, closing, slots, openingComment, dangling,
        commaWhenExploded, commaWhenFlat, isVirtual, forced⟩ ∨
      ∃ us, SlotsSpell commaWhenExploded slots us ∧ ws = opening :: (us ++ [closing])

/-- Whether slots may be laid out as words. Commas stand between them, and behind the last one if
`comma` is set. -/
def SlotsSpell (comma : Bool) : List Slot → List Text → Prop
  | [], ws => ws = []
  | s :: ss, ws => ∃ us vs, s.Spells us ∧ SlotsSpell comma ss vs ∧
      ws = us ++ commaWord (comma || !ss.isEmpty) ++ vs

def Slot.Spells : Slot → List Text → Prop
  | ⟨chunks, _, _, _⟩, ws => ChunksSpell chunks ws

end

mutual

def Chunk.comments : Chunk → List Text
  | .text _ _ => []
  | .strings _ _ => []
  | .bracket b => b.comments

def Bracket.comments : Bracket → List Text
  | ⟨_, _, _, slots, openingComment, dangling, _, _, _, _⟩ =>
      openingComment ++ (slotsComments slots ++ dangling)

def Slot.comments : Slot → List Text
  | ⟨chunks, leading, trailing, _⟩ => leading ++ (chunksComments chunks ++ trailing)

def slotsComments : List Slot → List Text
  | [] => []
  | s :: ss => s.comments ++ slotsComments ss

def chunksComments : List Chunk → List Text
  | [] => []
  | c :: cs => c.comments ++ chunksComments cs

end

mutual

def Chunk.brackets : Chunk → List Bracket
  | .text _ _ => []
  | .strings _ _ => []
  | .bracket b => b.brackets

/-- A bracket and the brackets in it, at any depth. -/
def Bracket.brackets : Bracket → List Bracket
  | ⟨spaced, opening, closing, slots, openingComment, dangling, commaWhenExploded, commaWhenFlat,
      isVirtual, forced⟩ =>
      ⟨spaced, opening, closing, slots, openingComment, dangling, commaWhenExploded, commaWhenFlat,
        isVirtual, forced⟩ :: slotsBrackets slots

def Slot.brackets : Slot → List Bracket
  | ⟨chunks, _, _, _⟩ => chunksBrackets chunks

def slotsBrackets : List Slot → List Bracket
  | [] => []
  | s :: ss => s.brackets ++ slotsBrackets ss

/-- The brackets in a sequence of chunks, at any depth. -/
def chunksBrackets : List Chunk → List Bracket
  | [] => []
  | c :: cs => c.brackets ++ chunksBrackets cs

end

/-- A bracket that may stay on one line has no comments around its slots and nothing that is forced
in them. -/
def Bracket.ShowsComments (b : Bracket) : Prop :=
  b.forced = false → b.hasComments = false ∧ ∀ s ∈ b.slots, ∀ c ∈ s.chunks, c.isForced = false

section Parts

theorem Bracket.flatWords_eq (b : Bracket) : b.flatWords =
    if b.isVirtual then slotsFlatWords b.slots
    else b.opening :: (slotsFlatWords b.slots ++ commaWord b.commaWhenFlat ++ [b.closing]) := by
  cases b
  rfl

theorem Bracket.spells_iff (b : Bracket) (ws : List Text) : b.Spells ws ↔
    ws = b.flatWords ∨
      ∃ us, SlotsSpell b.commaWhenExploded b.slots us ∧ ws = b.opening :: (us ++ [b.closing]) := by
  cases b
  rfl

theorem Bracket.comments_eq (b : Bracket) :
    b.comments = b.openingComment ++ (slotsComments b.slots ++ b.dangling) := by
  cases b
  rfl

theorem Bracket.brackets_eq (b : Bracket) : b.brackets = b :: slotsBrackets b.slots := by
  cases b
  rfl

theorem Slot.flatWords_eq (s : Slot) : s.flatWords = chunksFlatWords s.chunks := by
  cases s
  rfl

theorem Slot.spells_iff (s : Slot) (ws : List Text) : s.Spells ws ↔ ChunksSpell s.chunks ws := by
  cases s
  rfl

theorem Slot.comments_eq (s : Slot) :
    s.comments = s.leading ++ (chunksComments s.chunks ++ s.trailing) := by
  cases s
  rfl

theorem Slot.brackets_eq (s : Slot) : s.brackets = chunksBrackets s.chunks := by
  cases s
  rfl

theorem chunksComments_append (cs ds : List Chunk) :
    chunksComments (cs ++ ds) = chunksComments cs ++ chunksComments ds := by
  induction cs with
  | nil => rfl
  | cons c cs ih => simp [chunksComments, ih]

theorem slotsComments_eq_flatMap (ss : List Slot) :
    slotsComments ss = ss.flatMap Slot.comments := by
  induction ss with
  | nil => rfl
  | cons s ss ih => rw [slotsComments, ih, List.flatMap_cons]

theorem chunksBrackets_append (cs ds : List Chunk) :
    chunksBrackets (cs ++ ds) = chunksBrackets cs ++ chunksBrackets ds := by
  induction cs with
  | nil => rfl
  | cons c cs ih => simp [chunksBrackets, ih]

theorem slotsBrackets_eq_flatMap (ss : List Slot) :
    slotsBrackets ss = ss.flatMap Slot.brackets := by
  induction ss with
  | nil => rfl
  | cons s ss ih => rw [slotsBrackets, ih, List.flatMap_cons]

theorem Chunk.spells_flatWords (c : Chunk) : c.Spells c.flatWords := by
  cases c with
  | text t spaced => rfl
  | strings run spaced => exact .inl rfl
  | bracket b => exact (b.spells_iff _).mpr (.inl rfl)

theorem chunksSpell_flatWords (cs : List Chunk) : ChunksSpell cs (chunksFlatWords cs) := by
  induction cs with
  | nil => rfl
  | cons c cs ih => exact ⟨_, _, c.spells_flatWords, ih, rfl⟩

theorem chunksSpell_append {cs ds : List Chunk} {us vs : List Text} (hus : ChunksSpell cs us)
    (hvs : ChunksSpell ds vs) : ChunksSpell (cs ++ ds) (us ++ vs) := by
  induction cs generalizing us with
  | nil =>
      obtain rfl : us = [] := hus
      exact hvs
  | cons c cs ih =>
      obtain ⟨xs, ys, hxs, hys, rfl⟩ := hus
      exact ⟨xs, ys ++ vs, hxs, ih hys, by rw [List.append_assoc]⟩

mutual

theorem bracketComments_eq_nil : ∀ b : Bracket, (∀ d ∈ b.brackets, d.ShowsComments) →
    b.forced = false → b.comments = []
  | ⟨spaced, opening, closing, slots, openingComment, dangling, commaWhenExploded, commaWhenFlat,
      isVirtual, forced⟩, hshow, hforced => by
      obtain ⟨hnone, hplain⟩ := hshow _ List.mem_cons_self hforced
      simp only [Bracket.hasComments, Bool.or_eq_false_iff, Bool.not_eq_false', List.isEmpty_iff,
        List.any_eq_false, Bool.or_eq_true, Bool.not_eq_true', not_or, Bool.not_eq_false] at hnone
      obtain ⟨⟨rfl, rfl⟩, hslots⟩ := hnone
      have hinner := slotsComments_eq_nil slots
        (fun d hd => hshow d (List.mem_cons_of_mem _ hd)) hslots hplain
      rw [Bracket.comments, hinner]
      rfl

theorem slotsComments_eq_nil : ∀ ss : List Slot, (∀ d ∈ slotsBrackets ss, d.ShowsComments) →
    (∀ s ∈ ss, s.leading = [] ∧ s.trailing = []) →
    (∀ s ∈ ss, ∀ c ∈ s.chunks, c.isForced = false) → slotsComments ss = []
  | [], _, _, _ => rfl
  | ⟨chunks, leading, trailing, sortKey⟩ :: ss, hshow, hnone, hplain => by
      obtain ⟨⟨rfl, rfl⟩, hrest⟩ := List.forall_mem_cons.mp hnone
      have hfirst := chunksComments_eq_nil chunks
        (fun d hd => hshow d (List.mem_append_left _ hd)) (hplain _ List.mem_cons_self)
      rw [slotsComments, Slot.comments, hfirst, slotsComments_eq_nil ss
        (fun d hd => hshow d (List.mem_append_right _ hd)) hrest
        fun s hs => hplain s (List.mem_cons_of_mem _ hs)]
      rfl

theorem chunksComments_eq_nil : ∀ cs : List Chunk, (∀ d ∈ chunksBrackets cs, d.ShowsComments) →
    (∀ c ∈ cs, c.isForced = false) → chunksComments cs = []
  | [], _, _ => rfl
  | .text t spaced :: cs, hshow, hplain =>
      chunksComments_eq_nil cs hshow fun c hc => hplain c (List.mem_cons_of_mem _ hc)
  | .strings run spaced :: cs, hshow, hplain =>
      chunksComments_eq_nil cs hshow fun c hc => hplain c (List.mem_cons_of_mem _ hc)
  | .bracket b :: cs, hshow, hplain => by
      have hfirst := bracketComments_eq_nil b (fun d hd => hshow d (List.mem_append_left _ hd))
        (hplain (.bracket b) List.mem_cons_self)
      rw [chunksComments, Chunk.comments, hfirst, chunksComments_eq_nil cs
        (fun d hd => hshow d (List.mem_append_right _ hd))
        fun c hc => hplain c (List.mem_cons_of_mem _ hc)]
      rfl

end

theorem split_of_getElem? {cs : List Chunk} {i : Nat} {c : Chunk} (h : cs[i]? = some c) :
    cs = cs.take i ++ c :: cs.drop (i + 1) := by
  obtain ⟨hlt, hget⟩ := List.getElem?_eq_some_iff.mp h
  rw [← hget, ← List.drop_eq_getElem_cons hlt, List.take_append_drop]

theorem chunksComments_split {cs : List Chunk} {i : Nat} {b : Bracket}
    (h : cs[i]? = some (.bracket b)) : chunksComments cs = chunksComments (cs.take i) ++
      (b.openingComment ++
        (slotsComments b.slots ++ b.dangling ++ chunksComments (cs.drop (i + 1)))) := by
  conv => lhs; rw [split_of_getElem? h, chunksComments_append]
  rw [chunksComments, Chunk.comments, b.comments_eq, List.append_assoc]

theorem chunksBrackets_split {cs : List Chunk} {i : Nat} {b : Bracket}
    (h : cs[i]? = some (.bracket b)) : chunksBrackets cs =
      chunksBrackets (cs.take i) ++
        (b :: (slotsBrackets b.slots ++ chunksBrackets (cs.drop (i + 1)))) := by
  conv => lhs; rw [split_of_getElem? h, chunksBrackets_append]
  rw [chunksBrackets, Chunk.brackets, b.brackets_eq, List.cons_append]

end Parts

/-! ## Words with blanks -/

namespace Spaced

variable {ws us : List Text} {t u : Text}

theorem append (h : Spaced ws t) (h' : Spaced us u) : Spaced (ws ++ us) (t ++ u) := by
  induction h with
  | nil => exact h'
  | blank _ ih => exact ih.blank
  | word w _ ih =>
      rw [List.append_assoc]
      exact ih.word w

theorem single (w : Text) : Spaced [w] w := by
  simpa using Spaced.nil.word w

theorem blanks (n : Nat) (h : Spaced ws t) : Spaced ws (List.replicate n ' ' ++ t) := by
  induction n with
  | zero => exact h
  | succ n ih => exact ih.blank

theorem ifSpaced (h : Spaced ws t) (spaced : Bool) :
    Spaced ws ((if spaced then [' '] else []) ++ t) := by
  cases spaced with
  | true => exact h.blank
  | false => exact h

theorem comma (comma : Bool) : Spaced (commaWord comma) (if comma then [','] else []) := by
  cases comma with
  | true => exact single [',']
  | false => exact nil

theorem wordOf (t : Text) : Spaced (wordOf t) t := by
  cases t with
  | nil => exact nil
  | cons c cs => exact single (c :: cs)

theorem literals (ps : List Text) : Spaced ps (List.intercalate [' '] ps) := by
  induction ps with
  | nil => exact nil
  | cons p ps ih =>
      cases ps with
      | nil =>
          rw [List.intercalate_singleton]
          exact single p
      | cons q qs =>
          rw [List.intercalate_cons_cons, List.append_assoc]
          exact (ih.blank).word p

end Spaced

theorem wordOf_comma (comma : Bool) : wordOf (if comma then [','] else []) = commaWord comma := by
  cases comma <;> rfl

mutual

theorem spaced_chunk : ∀ c : Chunk, Spaced c.flatWords c.flat
  | .text t _ => Spaced.single t
  | .strings run _ => by
      rw [Chunk.flatWords, Chunk.flat, run.flat_eq]
      exact Spaced.literals _
  | .bracket b => spaced_bracket b

theorem spaced_bracket : ∀ b : Bracket, Spaced b.flatWords b.flat
  | ⟨_, opening, closing, slots, _, _, _, commaWhenFlat, isVirtual, _⟩ => by
      have hslots := spaced_slots slots
      cases isVirtual with
      | true => exact hslots
      | false =>
          have hinner := (hslots.append (Spaced.comma commaWhenFlat)).append (Spaced.single closing)
          simpa [Bracket.flatWords, Bracket.flat] using hinner.word opening

theorem spaced_slots : ∀ ss : List Slot, Spaced (slotsFlatWords ss) (flatSlots ss)
  | [] => Spaced.nil
  | [⟨chunks, leading, trailing, sortKey⟩] => by
      simpa [slotsFlatWords, flatSlots, Slot.flatWords, Slot.flat, commaWord] using
        spaced_chunks chunks
  | ⟨chunks, leading, trailing, sortKey⟩ :: s :: ss => by
      have hcomma : Spaced [[',']] [',', ' '] := Spaced.nil.blank.word [',']
      exact ((spaced_chunks chunks).append hcomma).append (spaced_slots (s :: ss))

theorem spaced_chunks : ∀ cs : List Chunk, Spaced (chunksFlatWords cs) (flatChunks cs)
  | [] => Spaced.nil
  | c :: cs => (spaced_chunk c).append (spaced_tail cs)

theorem spaced_tail : ∀ cs : List Chunk, Spaced (chunksFlatWords cs) (flatTail cs)
  | [] => Spaced.nil
  | c :: cs => by
      rw [flatTail, List.append_assoc]
      exact ((spaced_chunk c).append (spaced_tail cs)).ifSpaced c.isSpaced

end

/-! ## Lines -/

namespace LinesSpell

variable {indent : Text} {ls ms ws us cs ds : List Text}

theorem append (h : LinesSpell indent ls ws cs) (h' : LinesSpell indent ms us ds) :
    LinesSpell indent (ls ++ ms) (ws ++ us) (cs ++ ds) := by
  induction h with
  | nil => exact h'
  | cons hl _ ih =>
      rw [List.append_assoc, List.append_assoc]
      exact .cons hl ih

theorem single {l : Text} (h : LineSpells indent l ws cs) : LinesSpell indent [l] ws cs := by
  simpa using LinesSpell.cons h .nil

theorem comments (n : Nat) (h : ∀ c ∈ cs, IsNote c) :
    LinesSpell indent (cs.map (indent ++ List.replicate n ' ' ++ ·)) [] cs := by
  induction cs with
  | nil => exact .nil
  | cons c cs ih =>
      have hline : LineSpells indent (indent ++ (List.replicate n ' ' ++ c)) [] [c] :=
        .comment n (h c (by simp))
      rw [← List.append_assoc] at hline
      exact .cons hline (ih fun d hd => h d (by simp [hd]))

theorem outdent {n : Nat} (h : LinesSpell (indent ++ List.replicate n ' ') ls ws cs) :
    LinesSpell indent ls ws cs := by
  induction h with
  | nil => exact .nil
  | cons hl _ ih =>
      refine .cons ?_ ih
      cases hl with
      | code ht hcs =>
          rw [List.append_assoc, ← List.append_assoc (List.replicate n ' ')]
          exact .code (ht.blanks n) hcs
      | comment m hc =>
          rw [List.append_assoc, ← List.append_assoc (List.replicate n ' '),
            List.replicate_append_replicate]
          exact .comment (n + m) hc

end LinesSpell

/-- The lines of a layout. The last one is free of comments. -/
def LayoutSpells (indent : Text) (lines ws cs : List Text) : Prop :=
  ∃ init last us vs, lines = init ++ [indent ++ last] ∧ LinesSpell indent init us cs ∧
    Spaced vs last ∧ ws = us ++ vs

namespace LayoutSpells

variable {indent : Text} {lines ls ws us cs ds : List Text}

theorem single {t : Text} (h : Spaced ws t) : LayoutSpells indent [indent ++ t] ws [] :=
  ⟨[], t, [], ws, rfl, .nil, h, rfl⟩

theorem append (h : LinesSpell indent ls us ds) (h' : LayoutSpells indent lines ws cs) :
    LayoutSpells indent (ls ++ lines) (us ++ ws) (ds ++ cs) := by
  obtain ⟨init, last, vs, vs', rfl, hinit, hlast, rfl⟩ := h'
  exact ⟨ls ++ init, last, us ++ vs, vs', by simp, h.append hinit, hlast, by simp⟩

theorem withComments (h : LayoutSpells indent lines ws cs) (hds : ∀ d ∈ ds, IsNote d) :
    LinesSpell indent (appendToLast (commentTail ds) lines) ws (cs ++ ds) := by
  obtain ⟨init, last, us, vs, rfl, hinit, hlast, rfl⟩ := h
  rw [appendToLast_append _ _ (by simp), appendToLast, List.append_assoc]
  exact hinit.append (.single (.code hlast hds))

theorem toLines (h : LayoutSpells indent lines ws cs) : LinesSpell indent lines ws cs := by
  have hall := h.withComments (List.forall_mem_nil IsNote)
  simpa [commentTail] using hall

theorem literals (ending : Text) {ps : List Text} (hne : ps ≠ []) :
    LayoutSpells indent (appendToLast ending (ps.map (indent ++ ·))) (ps ++ wordOf ending) [] := by
  induction ps with
  | nil => exact absurd rfl hne
  | cons p ps ih =>
      cases ps with
      | nil =>
          rw [List.map_singleton, appendToLast, List.append_assoc]
          exact single ((Spaced.single p).append (Spaced.wordOf ending))
      | cons q qs =>
          have hfirst : LineSpells indent (indent ++ (p ++ commentTail [])) [p] [] :=
            .code (Spaced.single p) (by simp)
          rw [commentTail, List.flatMap_nil, List.append_nil] at hfirst
          rw [List.map_cons, appendToLast_cons _ _ (by simp)]
          exact append (.single hfirst) (ih (by simp))

end LayoutSpells

section Cases

variable {style : Style} {indent ending : Text} {inBrackets : Bool} {chunks : List Chunk}

theorem not_isForced (h : chunks.findIdx? Chunk.isForced = none) :
    ∀ c ∈ chunks, c.isForced = false := by
  simpa using h

theorem isCandidate_of_explodePoint? {i : Nat}
    (h : style.explodePoint? indent ending chunks = some i) :
    style.isCandidate indent chunks i = true := by
  have hmem : i ∈ (List.range chunks.length).filter (style.isCandidate indent chunks) := by
    unfold Style.explodePoint? at h
    simp only [Option.orElse_eq_orElse, Option.orElse_eq_or] at h
    rcases Option.or_eq_some_iff.mp h with h | ⟨-, h⟩
    · exact List.mem_reverse.mp (List.mem_of_find?_eq_some h)
    · exact List.mem_of_getLast? h
  exact (List.mem_filter.mp hmem).2

/-- Chunks stay flat only if none of them is forced. -/
theorem arrange_flat (h : style.arrange indent ending inBrackets chunks = .flat) :
    ∀ c ∈ chunks, c.isForced = false := by
  unfold Style.arrange at h
  split at h
  · cases h
  · exact not_isForced ‹_›

/-- What is exploded is a bracket, and no chunk before it is forced. -/
theorem arrange_explode {i : Nat}
    (h : style.arrange indent ending inBrackets chunks = .explode i) :
    (∃ b, chunks[i]? = some (.bracket b)) ∧ ∀ c ∈ chunks.take i, c.isForced = false := by
  unfold Style.arrange at h
  split at h
  · rename_i j hj
    obtain rfl : j = i := by simpa using h
    obtain ⟨hlt, hforced, hbefore⟩ := List.findIdx?_eq_some_iff_getElem.mp hj
    refine ⟨?_, fun c hc => ?_⟩
    · cases hc : chunks[j] with
      | text t spaced => simp [hc, Chunk.isForced] at hforced
      | strings run spaced => simp [hc, Chunk.isForced] at hforced
      | bracket b => exact ⟨b, by rw [List.getElem?_eq_getElem hlt, hc]⟩
    · obtain ⟨k, hk, rfl⟩ := List.mem_take_iff_getElem.mp hc
      exact Bool.eq_false_iff.mpr (hbefore k (by omega))
  · rename_i hnone
    refine ⟨?_, fun c hc => not_isForced hnone c (List.mem_of_mem_take hc)⟩
    split at h
    · cases h
    split at h
    · cases h
    split at h
    · rename_i j hj
      obtain rfl : j = i := by simpa using h
      have hcandidate := isCandidate_of_explodePoint? hj
      unfold Style.isCandidate at hcandidate
      split at hcandidate
      · rename_i b hb
        exact ⟨b, hb⟩
      · cases hcandidate
    · cases h

theorem layoutSpells_explode {i : Nat} {b : Bracket} {slotLines restLines us ws : List Text}
    (hb : chunks[i]? = some (.bracket b))
    (hshow : ∀ d ∈ chunksBrackets (chunks.take i), d.ShowsComments)
    (hnotes : ∀ c ∈ chunksComments chunks, IsNote c)
    (hplain : ∀ c ∈ chunks.take i, c.isForced = false)
    (hus : SlotsSpell b.commaWhenExploded b.slots us)
    (hslots : LinesSpell (indent ++ style.indentUnit) slotLines us (slotsComments b.slots))
    (hws : ChunksSpell (.text b.closing false :: chunks.drop (i + 1)) ws)
    (hrest : LayoutSpells indent restLines (ws ++ wordOf ending)
      (chunksComments (.text b.closing false :: chunks.drop (i + 1)))) :
    ∃ vs, ChunksSpell chunks vs ∧ LayoutSpells indent
      ((headLine indent (chunks.take i) b ++ commentTail b.openingComment) ::
        (slotLines ++ b.dangling.map (indent ++ style.indentUnit ++ ·) ++ restLines))
      (vs ++ wordOf ending) (chunksComments chunks) := by
  have hbefore := chunksComments_eq_nil (chunks.take i) hshow hplain
  rw [chunksComments_split hb, hbefore, List.nil_append] at hnotes ⊢
  simp only [List.forall_mem_append] at hnotes
  obtain ⟨hopening, ⟨-, hdangling⟩, -⟩ := hnotes
  obtain ⟨_, xs, rfl, hxs, rfl⟩ := hws
  have hbracket : b.Spells (b.opening :: (us ++ [b.closing])) :=
    (b.spells_iff _).mpr (.inr ⟨us, hus, rfl⟩)
  refine ⟨chunksFlatWords (chunks.take i) ++ (b.opening :: (us ++ [b.closing]) ++ xs), ?_, ?_⟩
  · conv => arg 1; rw [split_of_getElem? hb]
    exact chunksSpell_append (chunksSpell_flatWords _) ⟨_, xs, hbracket, hxs, rfl⟩
  · have hhead : LineSpells indent
        (headLine indent (chunks.take i) b ++ commentTail b.openingComment)
        (chunksFlatWords (chunks.take i) ++ [b.opening]) b.openingComment := by
      have hwords := (spaced_chunks (chunks.take i)).append
        ((Spaced.single b.opening).ifSpaced (!(chunks.take i).isEmpty && b.spaced))
      have hline : LineSpells indent (indent ++ (_ ++ commentTail b.openingComment))
          (chunksFlatWords (chunks.take i) ++ [b.opening]) b.openingComment := .code hwords hopening
      simpa [headLine] using hline
    have hrows := (hslots.outdent.append (.comments style.indentSize hdangling))
    have hall := LayoutSpells.append ((LinesSpell.single hhead).append hrows) hrest
    simpa [chunksComments, Chunk.comments, Style.indentUnit] using hall

end Cases

mutual

/-- However chunks are laid out, the lines spell the chunks and hold their comments. -/
theorem layout_spells (style : Style) (indent ending : Text) (inBrackets : Bool)
    (chunks : List Chunk) (hshow : ∀ d ∈ chunksBrackets chunks, d.ShowsComments)
    (hnotes : ∀ c ∈ chunksComments chunks, IsNote c) :
    ∃ ws, ChunksSpell chunks ws ∧ LayoutSpells indent (layout style indent ending inBrackets chunks)
      (ws ++ wordOf ending) (chunksComments chunks) := by
  match harrange : style.arrange indent ending inBrackets chunks with
  | .flat =>
      rw [layout_flat harrange, chunksComments_eq_nil _ hshow (arrange_flat harrange)]
      exact ⟨_, chunksSpell_flatWords chunks,
        .single ((spaced_chunks chunks).append (Spaced.wordOf ending))⟩
  | .literals lines =>
      obtain ⟨-, run, spaced, available, rfl, rfl, hlong⟩ := arrange_literals harrange
      rw [layout_literals harrange]
      refine ⟨run.lines available, ⟨_, [], .inr ⟨available, rfl⟩, rfl, by simp⟩, ?_⟩
      exact LayoutSpells.literals ending (List.ne_nil_of_length_pos (by omega))
  | .explode i =>
      obtain ⟨⟨b, hb⟩, hplain⟩ := arrange_explode harrange
      rw [chunksBrackets_split hb] at hshow
      simp only [List.forall_mem_append, List.forall_mem_cons] at hshow
      obtain ⟨hshowBefore, -, hshowSlots, hshowRest⟩ := hshow
      have hinner := hnotes
      rw [chunksComments_split hb] at hinner
      simp only [List.forall_mem_append] at hinner
      obtain ⟨-, -, ⟨hnotesSlots, -⟩, hnotesRest⟩ := hinner
      obtain ⟨us, hus, hslots⟩ := layoutSlots_spells style (indent ++ style.indentUnit)
        b.commaWhenExploded b.slots hshowSlots hnotesSlots
      obtain ⟨ws, hws, hrest⟩ := layout_spells style indent ending inBrackets
        (.text b.closing false :: chunks.drop (i + 1)) hshowRest hnotesRest
      rw [layout_explode harrange hb]
      exact layoutSpells_explode hb hshowBefore hnotes hplain hus hslots hws hrest
termination_by (weightChunks chunks, 0)
decreasing_by
  · have := weight_getElem?_drop hb
    simp only [Chunk.weight, weight_bracket] at this
    apply Prod.Lex.left
    omega
  · have := weight_getElem?_drop hb
    simp only [Chunk.weight, weight_bracket] at this
    apply Prod.Lex.left
    simp only [weightChunks, Chunk.weight]
    omega

theorem layoutSlots_spells (style : Style) (inner : Text) (comma : Bool) (slots : List Slot)
    (hshow : ∀ d ∈ slotsBrackets slots, d.ShowsComments)
    (hnotes : ∀ c ∈ slotsComments slots, IsNote c) :
    ∃ ws, SlotsSpell comma slots ws ∧
      LinesSpell inner (layoutSlots style inner comma slots) ws (slotsComments slots) := by
  match slots with
  | [] =>
      rw [layoutSlots]
      exact ⟨[], rfl, .nil⟩
  | s :: ss =>
      rw [slotsBrackets, s.brackets_eq, List.forall_mem_append] at hshow
      rw [slotsComments, s.comments_eq] at hnotes ⊢
      simp only [List.forall_mem_append] at hnotes
      obtain ⟨⟨hleading, hchunks, htrailing⟩, hrest⟩ := hnotes
      obtain ⟨us, hus, hlines⟩ := layout_spells style inner
        (if comma || !ss.isEmpty then [','] else []) true s.chunks
        hshow.1 hchunks
      obtain ⟨vs, hvs, hlines'⟩ := layoutSlots_spells style inner comma ss hshow.2 hrest
      rw [wordOf_comma] at hlines
      have habove : LinesSpell inner (s.leading.map (inner ++ ·)) [] s.leading := by
        have hlines : LinesSpell inner (s.leading.map (inner ++ List.replicate 0 ' ' ++ ·)) []
            s.leading := .comments 0 hleading
        simpa using hlines
      refine ⟨us ++ commaWord (comma || !ss.isEmpty) ++ vs,
        ⟨us, vs, (s.spells_iff us).mpr hus, hvs, rfl⟩, ?_⟩
      rw [layoutSlots]
      have hall := (habove.append (hlines.withComments htrailing)).append hlines'
      simpa using hall
termination_by (weightSlots slots, slots.length + 1)
decreasing_by
  · simp only [weightSlots, weight_slot]
    by_cases h : weightSlots ss = 0
    · simp only [h, Nat.add_zero]
      exact Prod.Lex.right _ (by omega)
    · exact Prod.Lex.left _ _ (by omega)
  · simp only [weightSlots]
    by_cases h : s.weight = 0
    · simp only [h, Nat.zero_add]
      exact Prod.Lex.right _ (by simp)
    · exact Prod.Lex.left _ _ (by omega)

end

end SchemaTidy
