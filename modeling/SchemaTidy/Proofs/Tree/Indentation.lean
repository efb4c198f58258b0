import SchemaTidy.Proofs.Token.Indentation
import SchemaTidy.Proofs.Tree.FinalLine
import SchemaTidy.Proofs.Tree.Reprint

/-!
# Blocks and indentation

The blocks of a tree are the levels of indentation of its source. The first word of a statement begins a
logical line, the indentation of that line is as wide as the column of the block tells, and a block stands
to the right of the one that holds it. Comments that have moved onto closing markers stand before the same
words as they did.
-/

namespace SchemaTidy

/-- The first word of a statement behind the tokens `before` begins a logical line of the given
indentation: behind the end of a line, or at the start, only markers of blocks come before it. -/
def Statement.BeginsAt (s : Statement) (before : List Token) (width : Nat) : Prop :=
  ∃ earlier markers first rest, before = earlier ++ markers ∧
    (earlier = [] ∨ ∃ t, earlier.getLast? = some t ∧ t.kind = .newline) ∧
    (∀ t ∈ markers, t.kind = .indent ∨ t.kind = .dedent) ∧
    s.tokens = first :: rest ∧ first.kind.isWord = true ∧
    BeginsLine width (spell markers ++ first.trivia)

mutual

/-- A statement behind the tokens `before` begins at the given column, and its block to the right. -/
def Statement.Indented (before : List Token) (width : Nat) : Statement → Prop
  | .simple line => Statement.BeginsAt (.simple line) before width
  | .compound signature header newline block =>
      Statement.BeginsAt (.compound signature header newline block) before width ∧
        width < block.column ∧ block.Indented (before ++ tokensOfItems header ++ [newline])

/-- The statements of a block begin at its column. -/
def Block.Indented (before : List Token) : Block → Prop
  | ⟨indent, body, dedent⟩ =>
      BodyIndented (before ++ [indent]) (Block.column ⟨indent, body, dedent⟩) body

def BodyIndented (before : List Token) (width : Nat) : List Statement → Prop
  | [] => True
  | s :: ss => s.Indented before width ∧ BodyIndented (before ++ s.tokens) width ss

end

/-! ## Comments that move onto closing markers -/

theorem IsClosingRun.linesOpen {run : List (Nat × Token)} (h : IsClosingRun run) (trivia : Text)
    (columns : List Nat) (gathered : Option Text) :
    LinesOpen columns gathered (fillDedents run trivia).1 :=
  linesOpen_of_layout fun t ht => by simp [h.kind_fillDedents trivia t ht, TokenKind.isWord]

/-- A marker that takes trivia leaves the rest of it, so what is gathered at the word is the same. -/
theorem linesOpen_attachTrailersFrom (depths : List Nat) {run : List (Nat × Token)}
    {columns : List Nat} {gathered : Option Text} {ts : List Token} (hrun : IsClosingRun run)
    (hts : ∀ t ∈ ts, t.kind = .dedent → t.source = [])
    (h : LinesOpen columns gathered (run.map Prod.snd ++ ts)) :
    LinesOpen columns gathered (attachTrailersFrom depths run ts) := by
  induction ts generalizing depths run columns gathered with
  | nil => simpa [attachTrailersFrom] using h
  | cons t ts ih =>
      have hsources : ∀ u ∈ ts, u.kind = .dedent → u.source = [] :=
        fun u hu => hts u (List.mem_cons_of_mem _ hu)
      rw [attachTrailersFrom]
      split
      · rename_i hkind
        have hkind : t.kind = .dedent := by simpa using hkind
        refine ih _ (hrun.concat hkind (hts t (by simp) hkind) _) hsources ?_
        simpa using h
      · have hnone : IsClosingRun [] := by simp [IsClosingRun]
        have hbare : ∀ u ∈ run.map Prod.snd, u.kind = .dedent ∧ u.source = [] := by
          intro u hu
          obtain ⟨r, hr, rfl⟩ := List.mem_map.mp hu
          exact hrun r hr
        have hfilled := spell_fillDedents t.trivia fun r hr => (hrun r hr).2
        have hgathered : (run.map Prod.snd).foldl gatheredAfter gathered = gathered := by
          rw [foldl_gatheredAfter_markers fun u hu => .inr (hbare u hu).1,
            Cursor.spell_eq_nil fun u hu => (hbare u hu).2]
          cases gathered <;> simp
        obtain ⟨-, hword, hindent, hrest⟩ := linesOpen_append.mp h
        rw [hgathered] at hword hrest
        rw [← foldl_columnsAfter_fillDedents run t.trivia] at hword hindent hrest
        refine linesOpen_append.mpr ⟨hrun.linesOpen _ _ _, ?_⟩
        rw [foldl_gatheredAfter_markers fun u hu => .inr (hrun.kind_fillDedents _ u hu)]
        refine ⟨fun before hbefore hkind => ?_, hindent, ih _ hnone hsources ?_⟩
        · obtain ⟨text, rfl, rfl⟩ := Option.map_eq_some_iff.mp hbefore
          rw [List.append_assoc, hfilled]
          exact hword text rfl hkind
        · have hsame : gatheredAfter (gathered.map (· ++ spell (fillDedents run t.trivia).1))
              { t with trivia := (fillDedents run t.trivia).2 } = gatheredAfter gathered t := by
            have hsource (text : Text) : (text ++ spell (fillDedents run t.trivia).1) ++
                ((fillDedents run t.trivia).2 ++ t.text) = text ++ (t.trivia ++ t.text) := by
              rw [List.append_assoc, ← List.append_assoc (spell _), hfilled]
            cases gathered with
            | none => cases hkind : t.kind <;> simp [gatheredAfter, hkind]
            | some text => cases hkind : t.kind <;> simp [gatheredAfter, hkind, Token.source, hsource]
          rw [hsame]
          exact hrest

theorem linesOpen_parse {source : Text} {m : Module} (h : parse source = .ok m) :
    LinesOpen [] (some []) m.tokens := by
  obtain ⟨ts, hts, hm⟩ := tokens_parse h
  rw [hm]
  refine linesOpen_attachTrailersFrom [] (by simp [IsClosingRun]) (fun t ht hkind => ?_)
    (linesOpen_tokenize hts)
  obtain ⟨init, last, rfl, hlast, hinit⟩ := tokenize_ends hts
  rcases List.mem_append.mp ht with ht | ht
  · exact (hinit t ht).2 (.inr hkind)
  · rw [List.mem_singleton.mp ht, hlast] at hkind
    cases hkind

/-! ## Statements -/

/-- Behind these tokens a logical line can begin: a line has ended, and markers of blocks may follow. -/
def BehindLine (before : List Token) : Prop :=
  ∃ earlier markers, before = earlier ++ markers ∧
    (earlier = [] ∨ ∃ t, earlier.getLast? = some t ∧ t.kind = .newline) ∧
    ∀ t ∈ markers, t.kind = .indent ∨ t.kind = .dedent

theorem behindLine_newline (before : List Token) {t : Token} (ht : t.kind = .newline) :
    BehindLine (before ++ [t]) :=
  ⟨before ++ [t], [], by simp, .inr ⟨t, by simp, ht⟩, by simp⟩

theorem BehindLine.marker {before : List Token} (h : BehindLine before) {t : Token}
    (ht : t.kind = .indent ∨ t.kind = .dedent) : BehindLine (before ++ [t]) := by
  obtain ⟨earlier, markers, rfl, hearlier, hmarkers⟩ := h
  refine ⟨earlier, markers ++ [t], by simp, hearlier, fun u hu => ?_⟩
  rcases List.mem_append.mp hu with hu | hu
  · exact hmarkers u hu
  · rw [List.mem_singleton.mp hu]
    exact ht

/-- A word behind the end of a line stands at the column of the innermost open block. -/
theorem BehindLine.beginsLine {before later : List Token} {first : Token} (h : BehindLine before)
    (hlines : LinesOpen [] (some []) (before ++ first :: later)) (hword : first.kind.isWord = true) :
    ∃ earlier markers, before = earlier ++ markers ∧
      (earlier = [] ∨ ∃ t, earlier.getLast? = some t ∧ t.kind = .newline) ∧
      (∀ t ∈ markers, t.kind = .indent ∨ t.kind = .dedent) ∧
      BeginsLine ((before.foldl columnsAfter []).headD 0) (spell markers ++ first.trivia) := by
  obtain ⟨earlier, markers, rfl, hearlier, hmarkers⟩ := h
  refine ⟨earlier, markers, rfl, hearlier, hmarkers, ?_⟩
  refine (linesOpen_append.mp hlines).2.1 _ ?_ hword
  have hfresh : earlier.foldl gatheredAfter (some []) = some [] := by
    rcases hearlier with rfl | ⟨t, hlast, hkind⟩
    · rfl
    · obtain ⟨init, rfl⟩ := List.getLast?_eq_some_iff.mp hlast
      rw [List.foldl_append, List.foldl_cons, List.foldl_nil, gatheredAfter, hkind]
  rw [List.foldl_append, hfresh, foldl_gatheredAfter_markers hmarkers]
  rfl

theorem tokensOfItems_ne_nil {items : List Item} (h : items ≠ []) : tokensOfItems items ≠ [] := by
  obtain ⟨i, is, rfl⟩ := List.exists_cons_of_ne_nil h
  cases i with
  | token t => simp
  | group g =>
      cases g
      simp [Group.tokens]

theorem exists_word_of_statement {s : Statement} (h : s.WellFormed) :
    ∃ first rest, s.tokens = first :: rest ∧ first.kind.isWord = true := by
  have hline {items : List Item} (hitems : LineWellFormed items) (behind : List Token) :
      ∃ first rest, tokensOfItems items ++ behind = first :: rest ∧ first.kind.isWord = true := by
    obtain ⟨first, rest, hfirst⟩ :=
      List.exists_cons_of_ne_nil (tokensOfItems_ne_nil hitems.ne_nil)
    refine ⟨first, rest ++ behind, by rw [hfirst, List.cons_append], ?_⟩
    exact isWord_of_mem_items hitems.wellFormed first (by simp [hfirst])
  cases s with
  | simple line =>
      obtain ⟨hitems, -, -⟩ := h
      exact hline hitems [line.newline]
  | compound signature header newline block =>
      obtain ⟨-, -, original, horiginal, -, hcompound⟩ := h
      rw [tokens_compoundOf hcompound]
      exact hline horiginal _

mutual

theorem behindLine_statement : ∀ {s : Statement}, s.WellFormed → ∀ {before : List Token},
    BehindLine (before ++ s.tokens)
  | .simple ⟨items, newline, reformat⟩, hs, before => by
      obtain ⟨-, -, hnewline⟩ := hs
      rw [Statement.tokens, Line.tokens, ← List.append_assoc]
      exact behindLine_newline _ hnewline.1
  | .compound signature header newline block, hs, before => by
      obtain ⟨hblock, hnewline, -⟩ := hs
      rw [Statement.tokens, ← List.singleton_append, ← List.append_assoc, ← List.append_assoc]
      exact behindLine_block hblock (behindLine_newline _ hnewline.1)

theorem behindLine_block : ∀ {b : Block}, b.WellFormed → ∀ {before : List Token},
    BehindLine before → BehindLine (before ++ b.tokens)
  | ⟨indent, body, dedent⟩, hb, before, h => by
      obtain ⟨hindent, hdedent, -, hbody⟩ := hb
      rw [Block.tokens, ← List.singleton_append, ← List.append_assoc, ← List.append_assoc]
      exact (behindLine_body hbody (h.marker (.inl hindent))).marker (.inr hdedent)

theorem behindLine_body : ∀ {ss : List Statement}, BodyWellFormed ss → ∀ {before : List Token},
    BehindLine before → BehindLine (before ++ tokensOfBody ss)
  | [], _, before, h => by simpa [tokensOfBody] using h
  | s :: ss, hss, before, h => by
      rw [tokensOfBody, ← List.append_assoc]
      exact behindLine_body hss.2 (behindLine_statement hss.1)

end

theorem beginsAt_of_linesOpen {ts : List Token} (hlines : LinesOpen [] (some []) ts) {s : Statement}
    (hs : s.WellFormed) {before later : List Token} (hts : ts = before ++ (s.tokens ++ later))
    (hbehind : BehindLine before) {width : Nat}
    (hwidth : (before.foldl columnsAfter []).headD 0 = width) : s.BeginsAt before width := by
  obtain ⟨first, rest, htokens, hword⟩ := exists_word_of_statement hs
  rw [hts, htokens, List.cons_append] at hlines
  obtain ⟨earlier, markers, hsplit, hearlier, hmarkers, hbegins⟩ := hbehind.beginsLine hlines hword
  rw [hwidth] at hbegins
  exact ⟨earlier, markers, first, rest, hsplit, hearlier, hmarkers, htokens, hword, hbegins⟩

mutual

theorem indented_statement {ts : List Token} (hlines : LinesOpen [] (some []) ts) :
    ∀ {s : Statement}, s.WellFormed → ∀ {before later : List Token},
      ts = before ++ (s.tokens ++ later) → BehindLine before → ∀ {width : Nat},
        (before.foldl columnsAfter []).headD 0 = width → s.Indented before width
  | .simple line, hs, before, later, hts, hbehind, width, hwidth =>
      beginsAt_of_linesOpen hlines hs hts hbehind hwidth
  | .compound signature header newline block, hs, before, later, hts, hbehind, width, hwidth => by
      refine ⟨beginsAt_of_linesOpen hlines hs hts hbehind hwidth, ?_⟩
      obtain ⟨hblock, hnewline, original, horiginal, -, hcompound⟩ := hs
      have hheader := itemsWellFormed_header horiginal.wellFormed hcompound
      have hcolumns : (before ++ tokensOfItems header ++ [newline]).foldl columnsAfter [] =
          before.foldl columnsAfter [] := by
        rw [List.foldl_append, List.foldl_append, foldl_columnsAfter_items hheader]
        exact columnsAfter_newline hnewline.1 _
      have hts' : ts = before ++ tokensOfItems header ++ [newline] ++ (block.tokens ++ later) := by
        rw [hts]
        simp [Statement.tokens]
      exact indented_block hlines hblock hts' (behindLine_newline _ hnewline.1)
        (by rw [hcolumns, hwidth])

theorem indented_block {ts : List Token} (hlines : LinesOpen [] (some []) ts) :
    ∀ {b : Block}, b.WellFormed → ∀ {before later : List Token},
      ts = before ++ (b.tokens ++ later) → BehindLine before → ∀ {width : Nat},
        (before.foldl columnsAfter []).headD 0 = width → width < b.column ∧ b.Indented before
  | ⟨indent, body, dedent⟩, hb, before, later, hts, hbehind, width, hwidth => by
      obtain ⟨hindent, hdedent, -, hbody⟩ := hb
      have hts' : ts = before ++ [indent] ++ (tokensOfBody body ++ dedent :: later) := by
        rw [hts]
        simp [Block.tokens]
      have hcolumn : ((before ++ [indent]).foldl columnsAfter []).headD 0 =
          Block.column ⟨indent, body, dedent⟩ := by
        rw [List.foldl_append]
        simp [columnsAfter, hindent, Block.column]
      refine ⟨?_, indented_body hlines hbody hts' (hbehind.marker (.inl hindent)) hcolumn⟩
      rw [hts, Block.tokens, List.cons_append] at hlines
      rw [← hwidth]
      exact (linesOpen_append.mp hlines).2.2.1 hindent

theorem indented_body {ts : List Token} (hlines : LinesOpen [] (some []) ts) :
    ∀ {ss : List Statement}, BodyWellFormed ss → ∀ {before later : List Token},
      ts = before ++ (tokensOfBody ss ++ later) → BehindLine before → ∀ {width : Nat},
        (before.foldl columnsAfter []).headD 0 = width → BodyIndented before width ss
  | [], _, _, _, _, _, _, _ => trivial
  | s :: ss, hss, before, later, hts, hbehind, width, hwidth => by
      rw [tokensOfBody, List.append_assoc] at hts
      refine ⟨indented_statement hlines hss.1 hts hbehind hwidth, ?_⟩
      rw [← List.append_assoc] at hts
      refine indented_body hlines hss.2 hts (behindLine_statement hss.1) ?_
      rw [List.foldl_append, foldl_columnsAfter_statement hss.1]
      exact hwidth

end

/-- Blocks are the levels of indentation. Every statement of a module begins a logical line whose
indentation is as wide as the column of its block, which is zero outside of blocks, and every block has a
greater column than the block that holds it. -/
theorem parse_bodyIndented {source : Text} {m : Module} (h : parse source = .ok m) :
    BodyIndented [] 0 m.body := by
  have htokens : m.tokens = [] ++ (tokensOfBody m.body ++ [m.endMarker]) := rfl
  exact indented_body (linesOpen_parse h) (parse_wellFormed h) htokens ⟨[], [], rfl, .inl rfl, by simp⟩
    rfl

/-- Blocks that are indented by tabs, form feeds and continued blank lines, with comments at the depths of
closed blocks. -/
def unevenSource : Text :=
  "if a:\n\x0c  \tif b:\n            \\\n  c\n           # d\n\t# e\n\x0c\tf\ng\n".toList

theorem parse_bodyIndented_unevenSource :
    ∃ m, parse unevenSource = .ok m ∧ (m.body.filterMap Statement.block?).map Block.column = [8] ∧
      BodyIndented [] 0 m.body := by
  have hread : (parse unevenSource).toOption.map (fun m =>
      (m.body.filterMap Statement.block?).map Block.column) = some [8] := by decide +kernel
  obtain ⟨m, hm, hcolumns⟩ := Option.map_eq_some_iff.mp hread
  cases hparse : parse unevenSource with
  | error e => simp [hparse, Except.toOption] at hm
  | ok m' =>
      obtain rfl : m' = m := by simpa [hparse, Except.toOption] using hm
      exact ⟨m', rfl, hcolumns, parse_bodyIndented hparse⟩

end SchemaTidy
