import SchemaTidy.Proofs.Print.Flat

/-!
# Chunks on several lines

However sound chunks are laid out, their lines are read as tokens that the chunks stand for: an
exploded bracket holds its slots, comments end their lines, and what follows the bracket is laid out
anew.
-/

namespace SchemaTidy

section Equations

variable {style : Style} {indent ending : Text} {inBrackets : Bool} {chunks : List Chunk}

theorem layout_flat (h : style.arrange indent ending inBrackets chunks = .flat) :
    layout style indent ending inBrackets chunks = [indent ++ (flatChunks chunks ++ ending)] := by
  rw [layout, h, List.append_assoc]

theorem layout_literals {lines : List Text}
    (h : style.arrange indent ending inBrackets chunks = .literals lines) :
    layout style indent ending inBrackets chunks = appendToLast ending (lines.map (indent ++ ·)) := by
  rw [layout, h]

theorem layout_explode {i : Nat} {b : Bracket}
    (h : style.arrange indent ending inBrackets chunks = .explode i)
    (hb : chunks[i]? = some (.bracket b)) :
    layout style indent ending inBrackets chunks =
      (headLine indent (chunks.take i) b ++ commentTail b.openingComment) ::
        (layoutSlots style (indent ++ style.indentUnit) b.commaWhenExploded b.slots ++
          b.dangling.map (indent ++ style.indentUnit ++ ·) ++
          layout style indent ending inBrackets (.text b.closing false :: chunks.drop (i + 1))) := by
  rw [layout, h]
  simp only
  split
  · rename_i b' hb'
    obtain rfl : b = b' := by simpa [hb] using hb'
    rfl
  · rename_i hnone
    exact absurd hb (hnone b)

theorem layout_explode_flat {i : Nat}
    (h : style.arrange indent ending inBrackets chunks = .explode i)
    (hb : ∀ b, chunks[i]? ≠ some (.bracket b)) :
    layout style indent ending inBrackets chunks = [indent ++ (flatChunks chunks ++ ending)] := by
  rw [layout, h]
  simp only [List.append_assoc]

end Equations

/-- Only a run of several literals in brackets is laid out one literal for each line. -/
theorem arrange_literals {style : Style} {indent ending : Text} {inBrackets : Bool}
    {chunks : List Chunk} {lines : List Text}
    (h : style.arrange indent ending inBrackets chunks = .literals lines) :
    inBrackets = true ∧ ∃ run spaced available, chunks = [.strings run spaced] ∧
      lines = run.lines available ∧ 1 < lines.length := by
  unfold Style.arrange at h
  split at h
  · cases h
  split at h
  · cases h
  split at h
  · rename_i lines' hlines
    obtain rfl : lines' = lines := by simpa using h
    split at hlines
    · rename_i hbrackets
      refine ⟨hbrackets, ?_⟩
      unfold Style.literalLines? at hlines
      split at hlines
      · simp only at hlines
        split at hlines
        · rename_i hlong
          obtain rfl := Option.some.inj hlines
          exact ⟨_, _, _, rfl, rfl, hlong⟩
        · cases hlines
      · cases hlines
    · cases hlines
  · split at h <;> cases h

/-! ## Parts of a sequence -/

theorem gluedText_take {cs : List Chunk} {i : Nat} {b : Bracket} (h : cs[i]? = some (.bracket b)) :
    gluedText (cs.take i) = gluedText cs := by
  induction cs generalizing i with
  | nil => simp at h
  | cons c cs ih =>
      cases i with
      | zero =>
          obtain rfl : c = .bracket b := by simpa using h
          rfl
      | succ i =>
          rw [List.take_succ_cons]
          unfold gluedText
          split
          · rename_i t cs' hcs
            obtain ⟨rfl, rfl⟩ := List.cons.inj hcs
            simp only
            rw [ih (by simpa using h)]
          · rename_i hne
            split
            · rename_i t cs' hcs
              obtain ⟨rfl, rfl⟩ := List.cons.inj hcs
              exact absurd rfl (hne t _)
            · rfl

theorem literalsFollow_take {cs : List Chunk} {i : Nat} (h : literalsFollow (cs.take i) = true) :
    literalsFollow cs = true := by
  cases i with
  | zero => cases h
  | succ i =>
      cases cs with
      | nil => exact h
      | cons c cs => cases c <;> exact h

theorem ChunksSound.split {brackets brackets' : List Char} {cs : List Chunk} {i : Nat} {b : Bracket}
    (h : ChunksSound brackets cs brackets') (hb : cs[i]? = some (.bracket b)) :
    ∃ brackets₁, ChunksSound brackets (cs.take i) brackets₁ ∧ b.Sound ∧
      ChunksSound brackets₁ (cs.drop (i + 1)) brackets' := by
  induction cs generalizing brackets i with
  | nil => simp at hb
  | cons c cs ih =>
      cases i with
      | zero =>
          obtain rfl : c = .bracket b := by simpa using hb
          exact ⟨brackets, rfl, h.1, h.2.2⟩
      | succ i =>
          have hb' : cs[i]? = some (.bracket b) := by simpa using hb
          rw [List.take_succ_cons, List.drop_succ_cons]
          cases c with
          | text t spaced =>
              obtain ⟨brackets₁, ⟨kind, hkind, hstring, hcuts, hbrackets, hliterals⟩, hcs⟩ := h
              obtain ⟨brackets₂, hbefore, hsound, hafter⟩ := ih hcs hb'
              refine ⟨brackets₂, ⟨brackets₁, ⟨kind, hkind, hstring, ?_, hbrackets, ?_⟩, hbefore⟩,
                hsound, hafter⟩
              · rw [gluedText_take hb']
                exact hcuts
              · exact fun hfollow => hliterals (literalsFollow_take hfollow)
          | strings run spaced =>
              obtain ⟨hrun, hfollow, hcs⟩ := h
              obtain ⟨brackets₂, hbefore, hsound, hafter⟩ := ih hcs hb'
              refine ⟨brackets₂, ⟨hrun, ?_, hbefore⟩, hsound, hafter⟩
              cases hfollow' : literalsFollow (cs.take i) with
              | false => rfl
              | true => exact absurd (literalsFollow_take hfollow') (by simp [hfollow])
          | bracket d =>
              obtain ⟨hd, hfollow, hcs⟩ := h
              obtain ⟨brackets₂, hbefore, hsound, hafter⟩ := ih hcs hb'
              refine ⟨brackets₂, ⟨hd, fun hvirtual => ?_, hbefore⟩, hsound, hafter⟩
              cases hfollow' : literalsFollow (cs.take i) with
              | false => rfl
              | true => exact absurd (literalsFollow_take hfollow') (by simp [hfollow hvirtual])

theorem chunksPrint_append {cs ds : List Chunk} {us vs : List Shape} (hus : ChunksPrint cs us)
    (hvs : ChunksPrint ds vs) : ChunksPrint (cs ++ ds) (us ++ vs) := by
  induction cs generalizing us with
  | nil =>
      rw [ChunksPrint] at hus
      rw [hus]
      exact hvs
  | cons c cs ih =>
      obtain ⟨xs, ys, hxs, hys, rfl⟩ := hus
      exact ⟨xs, ys ++ vs, hxs, ih hys, by rw [List.append_assoc]⟩

/-- A text that starts with a word of the program. -/
def StartsWord (w : Text) : Prop :=
  ∃ c cs, w = c :: cs ∧ (Text.isIndent c = false ∧ c ≠ '#' ∧ Text.isLineBreak c = false)

theorem StartsWord.append {w : Text} (h : StartsWord w) (x : Text) : StartsWord (w ++ x) := by
  obtain ⟨c, cs, rfl, hc⟩ := h
  exact ⟨c, cs ++ x, rfl, hc⟩

theorem StartsWord.row {w : Text} (h : StartsWord w) : w ≠ [] ∧ w.head? ≠ some '\n' := by
  obtain ⟨c, cs, rfl, -, -, hbreak⟩ := h
  refine ⟨by simp, fun hnl => ?_⟩
  obtain rfl : c = '\n' := by simpa using hnl
  cases hbreak

theorem startsWord_of_cuts {kind : TokenKind} {w x : Text} (h : Lexeme.Cuts kind w x) :
    StartsWord w := by
  obtain ⟨c, cs, hw, hc, -⟩ := h.head
  exact ⟨c, cs, hw, hc⟩

theorem startsWord_opening {b : Bracket} (h : b.Sound) : StartsWord b.opening := by
  obtain ⟨c, hc, hopening, -⟩ := h.opening
  refine ⟨c, [], hopening, ?_⟩
  rcases hc with rfl | rfl | rfl <;> decide

theorem startsWord_flat {run : StringRun} (h : run.Sound) : StartsWord run.flat := by
  obtain ⟨p, ps, hpieces⟩ := List.exists_cons_of_ne_nil h.ne_nil
  have hp := startsWord_of_cuts (h.flat p (by simp [hpieces]))
  rw [run.flat_eq, hpieces]
  cases ps with
  | nil => simpa using hp
  | cons q qs =>
      rw [List.intercalate_cons_cons, List.append_assoc]
      exact hp.append _

theorem startsWord_flatChunks {brackets brackets' : List Char} {cs : List Chunk}
    (h : ChunksSound brackets cs brackets') (hne : cs ≠ []) : StartsWord (flatChunks cs) := by
  cases cs with
  | nil => exact absurd rfl hne
  | cons c cs =>
      rw [flatChunks]
      refine StartsWord.append ?_ _
      cases c with
      | text t spaced =>
          obtain ⟨-, ⟨kind, -, -, hcuts, -⟩, -⟩ := h
          exact startsWord_of_cuts hcuts
      | strings run spaced => exact startsWord_flat h.1
      | bracket b =>
          rw [Chunk.flat]
          cases hvirtual : b.isVirtual with
          | true =>
              obtain ⟨run, -, hrun, -, -, -, hflat⟩ := h.1.literals hvirtual
              rw [hflat]
              exact startsWord_flat hrun
          | false =>
              rw [b.flat_of_not_isVirtual hvirtual]
              exact (startsWord_opening h.1).append _

/-! ## Reading a layout -/

/-- The comma that may end the last line of a slot. -/
def commaShapes (comma : Bool) : List Shape := if comma then [.comma] else []

theorem Reads.comma {brackets brackets' : List Char} {w : Text} {us : List Shape}
    (h : Reads brackets w us brackets') (comma : Bool) :
    Reads brackets (w ++ (if comma then [','] else [])) (us ++ commaShapes comma) brackets' := by
  cases comma with
  | false => simpa [commaShapes] using h
  | true =>
      refine h.append (Reads.nil.lone (by decide) ?_) fun x _ => isStop_cons (by decide) _
      rfl

namespace LinesRead

variable {lb : Text} {brackets brackets' : List Char} {us : List Shape}

theorem indentFirst {w l tail : Text} {ls rs : List Text} (hw : ∀ c ∈ w, Text.isIndent c = true)
    (h : LinesRead lb brackets (appendToLast tail (l :: ls)) us rs brackets') :
    LinesRead lb brackets (appendToLast tail ((w ++ l) :: ls)) us rs brackets' := by
  by_cases hls : ls = []
  · rw [hls, appendToLast] at h ⊢
    rw [List.append_assoc]
    exact h.indent hw
  · rw [appendToLast_cons _ _ hls] at h ⊢
    exact h.indent hw

theorem literals (hlb : IsBreak lb) {indent : Text} (hindent : ∀ c ∈ indent, Text.isIndent c = true)
    {ps : List Text} (hne : ps ≠ []) (hps : ∀ p ∈ ps, Lexeme.Cuts .string p [])
    (hbrackets : brackets ≠ []) (comma : Bool) {cs : List Text} (hcs : ∀ c ∈ cs, IsRemark c) :
    LinesRead lb brackets
      (appendToLast ((if comma then [','] else []) ++ commentTail cs) (ps.map (indent ++ ·)))
      (ps.map (TokenKind.string, ·) ++ commaShapes comma)
      (Trivia.physicalComments (commentTail cs)) brackets := by
  induction ps with
  | nil => exact absurd rfl hne
  | cons p ps ih =>
      have hp := hps p (by simp)
      have hread : Reads brackets p [(.string, p)] brackets :=
        Reads.single rfl hp (bracketsAfter_of_ne_op (by simp) p brackets)
      have hstart := startsWord_of_cuts hp
      cases ps with
      | nil =>
          have hline := (single hlb (hstart.append _).row (hread.comma comma)
            fun c hc => (hcs c hc).within hbrackets).indent hindent
          simpa [appendToLast] using hline
      | cons q qs =>
          have hrest := ih (by simp) fun r hr => hps r (by simp [hr])
          have hline := (line hlb hstart.row hread).indent hindent
          have hall := hline.append hlb hbrackets hrest
          rw [List.map_cons, appendToLast_cons _ _ (by simp)]
          exact hall

end LinesRead

/-- The lines of chunks at an indentation start with a word and are read as tokens that the chunks
stand for, also with comments behind the last line. -/
def LayoutReads (lb : Text) (brackets : List Char) (indent : Text) (lines : List Text)
    (chunks : List Chunk) (comma : Bool) (brackets' : List Char) : Prop :=
  ∃ first rest us, lines = (indent ++ first) :: rest ∧ StartsWord first ∧ ChunksPrint chunks us ∧
    ∀ cs, (∀ c ∈ cs, IsRemarkIn brackets' c) →
      LinesRead lb brackets (appendToLast (commentTail cs) (first :: rest)) (us ++ commaShapes comma)
        (Trivia.physicalComments (commentTail cs)) brackets'

section Cases

variable {lb indent : Text} {brackets brackets' : List Char} {chunks : List Chunk} {comma : Bool}

theorem layoutReads_flat (hlb : IsBreak lb) (h : ChunksSound brackets chunks brackets')
    (hne : chunks ≠ []) :
    LayoutReads lb brackets indent [indent ++ (flatChunks chunks ++ (if comma then [','] else []))]
      chunks comma brackets' := by
  obtain ⟨us, hus, -, hread⟩ := reads_chunks h
  have hstart : StartsWord (flatChunks chunks ++ (if comma then [','] else [])) :=
    (startsWord_flatChunks h hne).append _
  refine ⟨_, [], us, rfl, hstart, hus, fun cs hcs => ?_⟩
  exact LinesRead.single hlb hstart.row (hread.comma comma) hcs

theorem layoutReads_literals (hlb : IsBreak lb) (hindent : ∀ c ∈ indent, Text.isIndent c = true)
    {run : StringRun} {spaced : Bool} (hrun : run.Sound) (hbrackets : brackets ≠ [])
    {available : Nat} (hlong : 1 < (run.lines available).length) :
    LayoutReads lb brackets indent
      (appendToLast (if comma then [','] else []) ((run.lines available).map (indent ++ ·)))
      [.strings run spaced] comma brackets := by
  have hlines := hrun.lines available
  obtain ⟨p, ps, hpieces⟩ := List.exists_cons_of_length_pos (Nat.zero_lt_of_lt hlong)
  have hps : ps ≠ [] := by
    rintro rfl
    simp [hpieces] at hlong
  have hp := hlines p (by simp [hpieces])
  have hstart := startsWord_of_cuts hp
  refine ⟨p, appendToLast (if comma then [','] else []) (ps.map (indent ++ ·)),
    (run.lines available).map (TokenKind.string, ·), ?_, hstart,
    ⟨_, [], ⟨_, .inr ⟨available, rfl⟩, rfl⟩, rfl, by simp⟩, ?_⟩
  · rw [hpieces, List.map_cons]
    exact appendToLast_cons _ _ (by simpa using hps)
  · intro cs hcs
    have hread : Reads brackets p [(.string, p)] brackets :=
      Reads.single rfl hp (bracketsAfter_of_ne_op (by simp) p brackets)
    have hrest := LinesRead.literals hlb hindent hps
      (fun q hq => hlines q (by simp [hpieces, hq])) hbrackets comma fun c hc => (hcs c hc).1
    have hall := (LinesRead.line hlb hstart.row hread).append hlb hbrackets hrest
    rw [appendToLast_cons _ _ (appendToLast_ne_nil _ (by simpa using hps)),
      appendToLast_appendToLast]
    simpa [hpieces] using hall

theorem chunksSound_closing {c : Char} (hc : c = '(' ∨ c = '[' ∨ c = '{')
    (h : ChunksSound brackets chunks brackets') :
    ChunksSound (c :: brackets) (.text [Cursor.matching c] false :: chunks) brackets' :=
  ⟨brackets, ⟨.op, rfl, by simp, Lexeme.cuts_lone (mem_loneOperators hc).2 _,
    bracketsAfter_closing hc brackets, fun _ => rfl⟩, h⟩

theorem reads_headLine {before : List Chunk} {b : Bracket} {c : Char}
    (hc : c = '(' ∨ c = '[' ∨ c = '{') (hopening : b.opening = [c]) {us : List Shape}
    (h : Reads brackets (flatChunks before) us brackets') :
    Reads brackets
      (flatChunks before ++ ((if !before.isEmpty && b.spaced then [' '] else []) ++ b.opening))
      (us ++ [(.op, b.opening)]) (c :: brackets') := by
  have hlone : Reads brackets' [c] [(.op, [c])] (c :: brackets') :=
    Reads.nil.lone (mem_loneOperators hc).1 (bracketsAfter_opening hc brackets')
  have hspace : ∀ d ∈ (if !before.isEmpty && b.spaced then [' '] else []),
      Text.isIndent d = true := by
    split <;> simp [Text.isIndent]
  rw [hopening]
  refine h.append (hlone.blanks hspace) fun x _ => ?_
  split
  · exact isStop_cons (by decide) _
  · refine isStop_cons ?_ _
    rcases hc with rfl | rfl | rfl <;> decide

/-- The lines of slots before other lines in brackets. -/
def SlotLinesRead (lb : Text) (brackets : List Char) (lines : List Text) (slots : List Slot)
    (comma : Bool) : Prop :=
  ∃ us, (∀ allowed : Bool, (comma = true → allowed = true) → SlotsPrint allowed slots us) ∧
    ∀ (ls : List Text) (vs : List Shape) (rs : List Text) (brackets' : List Char),
      LinesRead lb brackets ls vs rs brackets' →
      LinesRead lb brackets (lines ++ ls) (us ++ vs) rs brackets'

theorem layoutReads_explode {inner : Text} {slotLines restLines : List Text} {i : Nat} {b : Bracket}
    (hlb : IsBreak lb) (hindent : ∀ c ∈ indent, Text.isIndent c = true)
    (hinner : ∀ c ∈ inner, Text.isIndent c = true) (h : ChunksSound brackets chunks brackets')
    (hb : chunks[i]? = some (.bracket b))
    (hslots : ∀ brackets, brackets ≠ [] →
      SlotLinesRead lb brackets slotLines b.slots b.commaWhenExploded)
    (hrest : ∀ brackets,
      ChunksSound brackets (.text b.closing false :: chunks.drop (i + 1)) brackets' →
      LayoutReads lb brackets indent restLines (.text b.closing false :: chunks.drop (i + 1)) comma
        brackets') :
    LayoutReads lb brackets indent
      ((headLine indent (chunks.take i) b ++ commentTail b.openingComment) ::
        (slotLines ++ b.dangling.map (inner ++ ·) ++ restLines)) chunks comma brackets' := by
  obtain ⟨brackets₁, hbefore, hsound, hafter⟩ := h.split hb
  obtain ⟨c, hc, hopening, hclosing⟩ := hsound.opening
  obtain ⟨us, hus, -, hread⟩ := reads_chunks hbefore
  obtain ⟨vs, hvs, hslotLines⟩ := hslots (c :: brackets₁) (by simp)
  obtain ⟨first, rest, ws, rfl, hstart, hws, hlines⟩ :=
    hrest (c :: brackets₁) (by rw [hclosing]; exact chunksSound_closing hc hafter)
  obtain ⟨xs, ys, ⟨kind, hcuts, rfl⟩, hys, rfl⟩ := hws
  obtain rfl : kind = .op := by
    rw [hclosing] at hcuts
    exact hcuts.kind_eq (Lexeme.cuts_lone (mem_loneOperators hc).2 [])
  have hcomments : (∀ d ∈ b.openingComment, IsRemark d) ∧ ∀ d ∈ b.dangling, IsRemark d := by
    cases b
    exact ⟨hsound.2.2.1, hsound.2.2.2.1⟩
  have hhead := reads_headLine hc hopening hread
  have hheadStart : StartsWord (flatChunks (chunks.take i) ++
      ((if !(chunks.take i).isEmpty && b.spaced then [' '] else []) ++ b.opening)) := by
    by_cases hnil : chunks.take i = []
    · rw [hnil]
      simpa [flatChunks] using startsWord_opening hsound
    · exact (startsWord_flatChunks hbefore hnil).append _
  refine ⟨_, slotLines ++ b.dangling.map (inner ++ ·) ++ (indent ++ first) :: rest,
    us ++ ((.op, b.opening) :: (vs ++ [(.op, b.closing)]) ++ ys), ?_,
    hheadStart.append (commentTail b.openingComment), ?_, ?_⟩
  · simp only [headLine, List.append_assoc]
  · have hsplit : chunks = chunks.take i ++ .bracket b :: chunks.drop (i + 1) := by
      obtain ⟨hlt, hget⟩ := List.getElem?_eq_some_iff.mp hb
      rw [← hget, ← List.drop_eq_getElem_cons hlt, List.take_append_drop]
    have hbracket : b.Prints ((.op, b.opening) :: (vs ++ [(.op, b.closing)])) := by
      cases b
      exact ⟨vs, hvs _ (by simp +contextual), .inl rfl⟩
    rw [hsplit]
    exact chunksPrint_append hus ⟨_, ys, hbracket, hys, rfl⟩
  · intro cs hcs
    have hdangling := LinesRead.comments hlb hinner hcomments.2 (by simp)
      ((hlines cs hcs).indentFirst hindent)
    have hopening := LinesRead.single hlb hheadStart.row hhead
      fun d hd => (hcomments.1 d hd).within (by simp)
    have hall := hopening.append hlb (by simp) (hslotLines _ _ _ _ hdangling)
    have hown : (Trivia.physicalComments (commentTail cs)).Sublist
        (Trivia.physicalComments (commentTail b.openingComment) ++
          (b.dangling.flatMap Trivia.physicalComments ++
            Trivia.physicalComments (commentTail cs))) :=
      (List.sublist_append_right _ _).trans (List.sublist_append_right _ _)
    have hne : (indent ++ first) :: rest ≠ [] := by simp
    rw [appendToLast_cons _ _ (by simp), appendToLast_append _ _ hne]
    simpa using hall.mono hown

end Cases

mutual

/-- The lines of sound chunks are read as tokens that the chunks stand for. -/
theorem layout_reads (style : Style) {lb : Text} (hlb : IsBreak lb) {indent : Text}
    (hindent : ∀ c ∈ indent, Text.isIndent c = true) (comma inBrackets : Bool)
    {chunks : List Chunk} {brackets brackets' : List Char} (hne : chunks ≠ [])
    (hbrackets : inBrackets = true → brackets' ≠ []) (h : ChunksSound brackets chunks brackets') :
    LayoutReads lb brackets indent
      (layout style indent (if comma then [','] else []) inBrackets chunks) chunks comma
      brackets' := by
  match harrange : style.arrange indent (if comma then [','] else []) inBrackets chunks with
  | .flat =>
      rw [layout_flat harrange]
      exact layoutReads_flat hlb h hne
  | .literals lines =>
      obtain ⟨hin, run, spaced, available, rfl, rfl, hlong⟩ := arrange_literals harrange
      obtain ⟨hrun, -, rfl⟩ := h
      rw [layout_literals harrange]
      exact layoutReads_literals hlb hindent hrun (hbrackets hin) hlong
  | .explode i =>
      match hb : chunks[i]? with
      | some (.bracket b) =>
          have hinner : ∀ c ∈ indent ++ style.indentUnit, Text.isIndent c = true := by
            intro c hc
            rcases List.mem_append.mp hc with hc | hc
            · exact hindent c hc
            · rw [(List.mem_replicate.mp hc).2]
              rfl
          obtain ⟨-, -, hsound, -⟩ := h.split hb
          have hslots : SlotsSound b.slots := by
            cases b
            exact hsound.2.1
          rw [layout_explode harrange hb]
          refine layoutReads_explode hlb hindent hinner h hb ?_ ?_
          · intro brackets hbrackets
            exact layoutSlots_reads style hlb hinner hbrackets hslots
          · intro brackets hrest
            exact layout_reads style hlb hindent comma inBrackets (by simp) hbrackets hrest
      | some (.text _ _) | some (.strings _ _) | none =>
          rw [layout_explode_flat harrange (by simp [hb])]
          exact layoutReads_flat hlb h hne
termination_by (weightChunks chunks, 0)
decreasing_by
  · have := weight_getElem?_drop hb
    simp only [Chunk.weight, weight_bracket] at this
    apply Prod.Lex.left
    omega
  · have := weight_getElem?_drop hb
    simp only [Chunk.weight, weight_bracket] at this
    apply Prod.Lex.left
    simp only [weightChunks, Chunk.weight]
    omega

theorem layoutSlots_reads (style : Style) {lb : Text} (hlb : IsBreak lb) {inner : Text}
    (hinner : ∀ c ∈ inner, Text.isIndent c = true) {comma : Bool} {slots : List Slot}
    {brackets : List Char} (hbrackets : brackets ≠ []) (h : SlotsSound slots) :
    SlotLinesRead lb brackets (layoutSlots style inner comma slots) slots comma := by
  match slots with
  | [] =>
      rw [layoutSlots]
      exact ⟨[], fun _ _ => rfl, fun ls vs rs brackets' hls => hls⟩
  | ⟨chunks, leading, trailing, sortKey⟩ :: ss =>
      obtain ⟨⟨hne, hchunks, hleading, htrailing⟩, hss⟩ := h
      obtain ⟨first, rest, us, hlines, -, hus, hread⟩ :=
        layout_reads style hlb hinner (comma || !ss.isEmpty) true hne (fun _ => hbrackets)
          (hchunks brackets)
      obtain ⟨vs, hvs, hread'⟩ := @layoutSlots_reads style lb hlb inner hinner comma ss brackets
        hbrackets hss
      have hslot := (hread trailing fun c hc => (htrailing c hc).within hbrackets).indentFirst hinner
      refine ⟨us ++ commaShapes (comma || !ss.isEmpty) ++ vs, fun allowed hallowed => ?_, ?_⟩
      · refine ⟨us, commaShapes (comma || !ss.isEmpty) ++ vs, hus, by simp, ?_⟩
        cases ss with
        | nil =>
            obtain rfl : vs = [] := hvs allowed hallowed
            refine .inl ⟨rfl, ?_⟩
            cases comma with
            | true => exact .inr ⟨hallowed rfl, rfl⟩
            | false => exact .inl rfl
        | cons s ss => exact .inr ⟨by simp, vs, hvs allowed hallowed, by simp [commaShapes]⟩
      · intro ls ws rs brackets' hls
        have hrest := hslot.append hlb hbrackets (hread' ls ws rs brackets' hls)
        have hall := LinesRead.comments hlb hinner hleading hbrackets hrest
        have hown : rs.Sublist (leading.flatMap Trivia.physicalComments ++
            (Trivia.physicalComments (commentTail trailing) ++ rs)) :=
          (List.sublist_append_right _ _).trans (List.sublist_append_right _ _)
        rw [layoutSlots]
        simp only [hlines]
        simpa using hall.mono hown
termination_by (weightSlots slots, slots.length + 1)
decreasing_by
  · simp only [weightSlots, weight_slot]
    by_cases h : weightSlots ss = 0
    · simp only [h, Nat.add_zero]
      exact Prod.Lex.right _ (by omega)
    · exact Prod.Lex.left _ _ (by omega)
  · simp only [weightSlots]
    by_cases h : Slot.weight ⟨chunks, leading, trailing, sortKey⟩ = 0
    · simp only [h, Nat.zero_add]
      exact Prod.Lex.right _ (by simp)
    · exact Prod.Lex.left _ _ (by omega)

end

end SchemaTidy
