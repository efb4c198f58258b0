import SchemaTidy.Proofs.Token.Balance
import SchemaTidy.Proofs.Token.Margin
import SchemaTidy.Proofs.Tree.Trailer

/-!
# Comments that are handed to closing markers

Closing markers that stand in a row take pieces of the trivia behind them, innermost block first. Each
takes the longest leading part of what is left that its block may have: complete lines, blank or with a
comment that is indented for the block, and a comment last. Nothing else changes.
-/

namespace SchemaTidy

/-! ## Trailers -/

/-- A line that holds nothing but an indentation, up to the line feed that ends it and carriage returns
in front of that. -/
def IsBlankRow (l : Text) : Prop :=
  ∃ ws returns, l = ws ++ (returns ++ ['\n']) ∧ (∀ c ∈ ws, Text.isIndent c = true) ∧
    ∀ c ∈ returns, c = '\r'

/-- A line that ends with a line feed and holds a comment, indented by at least `column`. -/
def IsCommentRow (column : Nat) (l : Text) : Prop :=
  ∃ ws w, l = ws ++ '#' :: (w ++ ['\n']) ∧ (∀ c ∈ ws, Text.isIndent c = true) ∧ '\n' ∉ w ∧
    column ≤ Text.indentWidth ws

/-- What may trail a block whose column is given: complete blank and comment lines, a comment last. -/
def IsTrailer (column : Nat) (t : Text) : Prop :=
  ∃ lines : List Text, t = lines.flatten ∧ (∀ l ∈ lines, IsBlankRow l ∨ IsCommentRow column l) ∧
    ∀ last, lines.getLast? = some last → IsCommentRow column last

/-- The longest leading part of a text that may trail a block. -/
def IsLongestTrailer (column : Nat) (part t : Text) : Prop :=
  part <+: t ∧ IsTrailer column part ∧ ∀ p, p <+: t → IsTrailer column p → p.length ≤ part.length

section Row

variable {row : Text} (hrow : '\n' ∉ row)

include hrow in
theorem isBlankLine_iff : isBlankLine (row ++ ['\n']) = true ↔ IsBlankRow (row ++ ['\n']) := by
  have hend : Text.trimEnd Text.isLineBreak (row ++ ['\n']) = Text.trimEnd Text.isLineBreak row :=
    Text.trimEnd_concat (by decide) row
  simp only [isBlankLine, hend, List.getLast?_concat, beq_self_eq_true, Bool.true_and,
    List.isEmpty_iff, List.dropWhile_eq_nil_iff]
  constructor
  · intro hblank
    obtain ⟨returns, hsplit, hreturns⟩ := Text.exists_trimEnd Text.isLineBreak row
    refine ⟨_, returns, by rw [← List.append_assoc, ← hsplit], hblank, ?_⟩
    intro c hc
    have hbreak : c = '\n' ∨ c = '\r' := by simpa [Text.isLineBreak] using hreturns c hc
    apply hbreak.resolve_left
    intro heq
    apply hrow
    rw [hsplit, ← heq]
    exact List.mem_append_right _ hc
  · rintro ⟨ws, returns, hsplit, hws, hreturns⟩
    rw [← List.append_assoc] at hsplit
    have hbreaks : ∀ c ∈ returns, Text.isLineBreak c = true := by
      intro c hc
      rw [hreturns c hc]
      decide
    rw [List.append_cancel_right hsplit, Text.trimEnd_append hbreaks]
    intro c hc
    obtain ⟨b, hb, -⟩ := Text.exists_trimEnd Text.isLineBreak ws
    apply hws c
    rw [hb]
    exact List.mem_append_left _ hc

include hrow in
theorem isCommentLine_iff (column : Nat) :
    isCommentLine column (row ++ ['\n']) = true ↔ IsCommentRow column (row ++ ['\n']) := by
  have hend : Text.trimEnd Text.isLineBreak (row ++ ['\n']) = Text.trimEnd Text.isLineBreak row :=
    Text.trimEnd_concat (by decide) row
  simp only [isCommentLine, hend, List.getLast?_concat, beq_self_eq_true, Bool.true_and,
    Bool.and_eq_true, beq_iff_eq, decide_eq_true_eq]
  constructor
  · rintro ⟨hhead, hcolumn⟩
    obtain ⟨returns, hsplit, -⟩ := Text.exists_trimEnd Text.isLineBreak row
    obtain ⟨w, hw⟩ := List.head?_eq_some_iff.mp hhead
    obtain ⟨ws, hws⟩ : ∃ ws, ws = (Text.trimEnd Text.isLineBreak row).takeWhile Text.isIndent :=
      ⟨_, rfl⟩
    have hindent : ∀ c ∈ ws, Text.isIndent c = true := by
      intro c hc
      rw [hws] at hc
      exact List.mem_takeWhile_imp hc
    have hrow' : row = ws ++ '#' :: (w ++ returns) := by
      have htrim := List.takeWhile_append_dropWhile (p := Text.isIndent)
        (l := Text.trimEnd Text.isLineBreak row)
      rw [← hws, hw] at htrim
      rw [← htrim] at hsplit
      simpa using hsplit
    refine ⟨ws, w ++ returns, by rw [hrow']; simp, hindent, ?_, ?_⟩
    · intro hmem
      apply hrow
      rw [hrow']
      exact List.mem_append_right _ (List.mem_cons_of_mem _ hmem)
    · rw [hrow', List.append_assoc, List.cons_append,
        indentWidth_blanks hindent _ (by decide)] at hcolumn
      exact hcolumn
  · rintro ⟨ws, w, hsplit, hws, -, hcolumn⟩
    have hrow' : row = ws ++ '#' :: w := by
      have hline : row ++ ['\n'] = (ws ++ '#' :: w) ++ ['\n'] := by
        rw [hsplit]
        simp
      exact List.append_cancel_right hline
    obtain ⟨w', htrim⟩ : ∃ w', Text.trimEnd Text.isLineBreak row = ws ++ '#' :: w' := by
      rw [hrow']
      exact Text.trimEnd_append_cons (by decide) ws w
    rw [htrim, dropWhile_blanks hws (by simp [Text.isIndent])]
    refine ⟨rfl, ?_⟩
    rw [hrow', List.append_assoc, List.cons_append, indentWidth_blanks hws _ (by decide)]
    exact hcolumn

end Row

theorem trails_iff {column : Nat} {l : Text} :
    trails column l = true ∧ (∃ row, '\n' ∉ row ∧ l = row ++ ['\n']) ↔
      IsBlankRow l ∨ IsCommentRow column l := by
  constructor
  · rintro ⟨htrails, row, hrow, rfl⟩
    rw [← isBlankLine_iff hrow, ← isCommentLine_iff hrow]
    simpa [trails] using htrails
  · intro hl
    have hends : ∃ row, '\n' ∉ row ∧ l = row ++ ['\n'] := by
      rcases hl with ⟨ws, returns, rfl, hws, hreturns⟩ | ⟨ws, w, rfl, hws, hw, -⟩
      · refine ⟨ws ++ returns, ?_, by rw [List.append_assoc]⟩
        intro hmem
        rcases List.mem_append.mp hmem with hmem | hmem
        · cases hws '\n' hmem
        · cases hreturns '\n' hmem
      · refine ⟨ws ++ '#' :: w, ?_, by simp⟩
        intro hmem
        rcases List.mem_append.mp hmem with hmem | hmem
        · cases hws '\n' hmem
        · exact hw (by simpa using hmem)
    obtain ⟨row, hrow, rfl⟩ := hends
    rw [← isBlankLine_iff hrow, ← isCommentLine_iff hrow] at hl
    exact ⟨by simpa [trails] using hl, row, hrow, rfl⟩

theorem splitAfter_rows {lines : List Text} (hlines : ∀ l ∈ lines, ∃ row, '\n' ∉ row ∧ l = row ++ ['\n'])
    (t : Text) : Text.splitAfter (· == '\n') (lines.flatten ++ t) =
      lines ++ Text.splitAfter (· == '\n') t := by
  induction lines with
  | nil => rfl
  | cons l lines ih =>
      obtain ⟨⟨row, hrow, rfl⟩, hrest⟩ := List.forall_mem_cons.mp hlines
      have hfree : ∀ c ∈ row, (c == '\n') = false := by
        intro c hc
        simp only [beq_eq_false_iff_ne]
        intro heq
        exact hrow (heq ▸ hc)
      rw [List.flatten_cons, List.append_assoc, List.append_assoc, List.singleton_append,
        Text.splitAfter_row hfree rfl, ih hrest, List.cons_append]

theorem exists_row_of_mem_splitAfter {t l : Text} (h : l ∈ Text.splitAfter (· == '\n') t)
    (hends : l.getLast? = some '\n') : ∃ row, '\n' ∉ row ∧ l = row ++ ['\n'] := by
  induction t using Text.rows_induction (· == '\n') with
  | last row hrow =>
      by_cases hne : row = []
      · subst hne
        cases h
      · rw [Text.splitAfter_last hrow hne, List.mem_singleton] at h
        have hc := hrow '\n' (h ▸ List.mem_of_getLast? hends)
        cases hc
  | cons row d t hrow hd ih =>
      obtain rfl : d = '\n' := by simpa using hd
      rw [Text.splitAfter_row hrow hd] at h
      rcases List.mem_cons.mp h with rfl | h
      · refine ⟨row, ?_, rfl⟩
        intro hmem
        cases hrow '\n' hmem
      · exact ih h

theorem getLast?_of_trails {column : Nat} {l : Text} (h : trails column l = true) :
    l.getLast? = some '\n' := by
  simp only [trails, isBlankLine, isCommentLine, Bool.or_eq_true, Bool.and_eq_true,
    beq_iff_eq] at h
  rcases h with h | h
  · exact h.1
  · exact h.1.1

theorem isTrailer_trailer (column : Nat) (t : Text) : IsTrailer column (trailer column t) := by
  obtain ⟨lines, hlines⟩ : ∃ lines, lines =
    (Text.splitAfter (· == '\n') t).takeWhile (trails column) := ⟨_, rfl⟩
  have hrows : ∀ l ∈ lines, trails column l = true ∧ ∃ row, '\n' ∉ row ∧ l = row ++ ['\n'] := by
    intro l hl
    rw [hlines] at hl
    have htrails : trails column l = true := List.mem_takeWhile_imp hl
    exact ⟨htrails,
      exists_row_of_mem_splitAfter (List.takeWhile_subset _ hl) (getLast?_of_trails htrails)⟩
  have hmem : ∀ l ∈ (lines.reverse.dropWhile isBlankLine).reverse, l ∈ lines := by
    intro l hl
    exact List.mem_reverse.mp (List.dropWhile_subset _ (List.mem_reverse.mp hl))
  refine ⟨(lines.reverse.dropWhile isBlankLine).reverse, by rw [hlines]; exact trailer_eq column t,
    fun l hl => trails_iff.mp (hrows l (hmem l hl)), ?_⟩
  intro last hlast
  have hkept := hmem last (List.mem_of_getLast? hlast)
  obtain ⟨htrails, row, hrow, rfl⟩ := hrows last hkept
  rw [List.getLast?_reverse] at hlast
  have hblank : isBlankLine (row ++ ['\n']) = false := by
    have hhead := List.head?_dropWhile_not isBlankLine lines.reverse
    rw [hlast] at hhead
    simpa using hhead
  apply (isCommentLine_iff hrow column).mp
  simpa [trails, hblank] using htrails

/-- What a block takes is the longest part that it may have: the lines of any such part are among those
that are looked at, and as its last one is a comment none of them is given back. -/
theorem isLongestTrailer_trailer (column : Nat) (t : Text) :
    IsLongestTrailer column (trailer column t) t := by
  refine ⟨trailer_isPrefix column t, isTrailer_trailer column t, ?_⟩
  rintro p ⟨rest, rfl⟩ ⟨lines, rfl, hlines, hlast⟩
  have hrows : ∀ l ∈ lines, trails column l = true ∧ ∃ row, '\n' ∉ row ∧ l = row ++ ['\n'] :=
    fun l hl => trails_iff.mpr (hlines l hl)
  rw [trailer_eq, splitAfter_rows fun l hl => (hrows l hl).2]
  obtain ⟨more, hmore⟩ : ∃ more, more = (Text.splitAfter (· == '\n') rest).takeWhile (trails column) :=
    ⟨_, rfl⟩
  have hprefix : lines <+: trailerLines column (lines ++ Text.splitAfter (· == '\n') rest) := by
    rw [trailerLines, List.takeWhile_append_of_pos fun l hl => (hrows l hl).1, ← hmore,
      ← List.reverse_suffix, List.reverse_reverse, List.reverse_append, List.dropWhile_append]
    split
    · cases hlines' : lines.reverse with
      | nil => exact List.suffix_rfl
      | cons last others =>
          have hmem : last ∈ lines := List.mem_reverse.mp (by rw [hlines']; exact List.mem_cons_self)
          have hcomment : IsCommentRow column last := by
            apply hlast
            rw [← List.head?_reverse, hlines']
            rfl
          obtain ⟨-, row, hrow, rfl⟩ := hrows last hmem
          have hblank := isBlankLine_of_isCommentLine ((isCommentLine_iff hrow column).mpr hcomment)
          exact ⟨[], (List.dropWhile_cons_of_neg (by simp [hblank])).symm⟩
    · exact List.suffix_append _ _
  exact (flatten_isPrefix hprefix).length_le

/-! ## Runs of closing markers -/

/-- The trivia of some tokens, one behind the other. -/
def triviaOf (ts : List Token) : Text := ts.flatMap Token.trivia

/-- Closing markers without trivia are given all that their blocks take, and the rest is left. -/
theorem triviaOf_fillDedents {run : List (Nat × Token)} (hrun : ∀ r ∈ run, r.2.trivia = [])
    (t : Text) : triviaOf (fillDedents run t).1 ++ (fillDedents run t).2 = t := by
  induction run generalizing t with
  | nil => rfl
  | cons r run ih =>
      obtain ⟨column, d⟩ := r
      obtain ⟨hd, hrest⟩ := List.forall_mem_cons.mp hrun
      have htail := ih hrest (t.drop (trailer column t).length)
      have hhead : (if (trailer column t).isEmpty then d
          else { d with trivia := trailer column t }).trivia = trailer column t := by
        split
        · rename_i hempty
          rw [List.isEmpty_iff.mp hempty]
          exact hd
        · rfl
      simp only [fillDedents, triviaOf, List.flatMap_cons, hhead, List.append_assoc] at htail ⊢
      rw [htail]
      exact trailer_append column t

theorem isLongestTrailer_fillDedents {run : List (Nat × Token)} (hrun : ∀ r ∈ run, r.2.trivia = [])
    (t : Text) {before after : List Token} {d : Token}
    (h : (fillDedents run t).1 = before ++ d :: after) :
    ∃ r, run[before.length]? = some r ∧
      IsLongestTrailer r.1 d.trivia (triviaOf (d :: after) ++ (fillDedents run t).2) := by
  induction run generalizing t before with
  | nil => simp [fillDedents] at h
  | cons r run ih =>
      obtain ⟨column, e⟩ := r
      obtain ⟨he, hrest⟩ := List.forall_mem_cons.mp hrun
      cases before with
      | nil =>
          refine ⟨(column, e), rfl, ?_⟩
          have hwhole := triviaOf_fillDedents hrun t
          rw [h, List.nil_append] at hwhole
          rw [hwhole]
          have hd : d.trivia = trailer column t := by
            simp only [fillDedents, List.nil_append] at h
            rw [← (List.cons.inj h).1]
            split
            · rename_i hempty
              rw [List.isEmpty_iff.mp hempty]
              exact he
            · rfl
          rw [hd]
          exact isLongestTrailer_trailer column t
      | cons first before =>
          simp only [fillDedents, List.cons_append, List.cons.injEq] at h
          exact ih hrest (t.drop (trailer column t).length) h.2

theorem map_bare_fillDedents (run : List (Nat × Token)) (t : Text) :
    (fillDedents run t).1.map (·.withTrivia []) = run.map (·.2.withTrivia []) := by
  induction run generalizing t with
  | nil => rfl
  | cons r run ih =>
      simp only [fillDedents, List.map_cons, ih]
      congr 1
      split <;> rfl

theorem map_bare_attachTrailersFrom (columns : List Nat) (run : List (Nat × Token))
    (ts : List Token) : (attachTrailersFrom columns run ts).map (·.withTrivia []) =
      run.map (·.2.withTrivia []) ++ ts.map (·.withTrivia []) := by
  induction ts generalizing columns run with
  | nil => simp [attachTrailersFrom]
  | cons t ts ih =>
      rw [attachTrailersFrom]
      split
      · simp [ih]
      · rw [List.map_append, List.map_cons, map_bare_fillDedents, ih, List.map_nil, List.nil_append]
        rfl

theorem attachTrailersFrom_run {columns : List Nat} {ds : List Token}
    (hds : ∀ d ∈ ds, d.kind = .dedent) (hlength : ds.length ≤ columns.length)
    (run : List (Nat × Token)) {t : Token} (ht : t.kind ≠ .dedent) (ts : List Token) :
    ∃ columns', attachTrailersFrom columns run (ds ++ t :: ts) =
      (fillDedents (run ++ columns.zip ds) t.trivia).1 ++
        t.withTrivia (fillDedents (run ++ columns.zip ds) t.trivia).2 ::
          attachTrailersFrom columns' [] ts := by
  induction ds generalizing columns run with
  | nil =>
      refine ⟨columnsAfter columns t, ?_⟩
      have hkind : (t.kind == .dedent) = false := by simpa using ht
      rw [List.nil_append, attachTrailersFrom, hkind, List.zip_nil_right, List.append_nil,
        columnsAfter, hkind]
      rfl
  | cons d ds ih =>
      obtain ⟨hd, hrest⟩ := List.forall_mem_cons.mp hds
      cases columns with
      | nil => simp at hlength
      | cons column columns =>
          obtain ⟨columns', hout⟩ := ih hrest (by simpa using hlength) (run ++ [(column, d)])
          refine ⟨columns', ?_⟩
          rw [List.cons_append, attachTrailersFrom, hd]
          simp only [beq_self_eq_true, if_true, List.tail_cons, List.headD_cons]
          rw [hout, List.append_assoc, List.zip_cons_cons]
          rfl

/-! ## Open blocks -/

theorem blocksClose_foldl {columns : List Nat} {ts : List Token} {kinds : List TokenKind}
    (h : BlocksClose columns.length (ts.map Token.kind ++ kinds)) :
    BlocksClose (ts.foldl columnsAfter columns).length kinds := by
  induction ts generalizing columns with
  | nil => exact h
  | cons t ts ih =>
      rw [List.foldl_cons]
      apply ih
      rw [columnsAfter]
      by_cases hdedent : t.kind = .dedent
      · rw [List.map_cons, List.cons_append, hdedent] at h
        rw [hdedent]
        simp only [beq_self_eq_true, if_true, List.length_tail]
        exact h.2
      by_cases hindent : t.kind = .indent
      · rw [List.map_cons, List.cons_append, hindent] at h
        rw [hindent]
        exact h
      · rw [List.map_cons, List.cons_append, blocksClose_cons hindent hdedent] at h
        simpa [hdedent, hindent] using h

theorem length_le_of_blocksClose {n : Nat} {ds : List Token} {kinds : List TokenKind}
    (hds : ∀ d ∈ ds, d.kind = .dedent) (h : BlocksClose n (ds.map Token.kind ++ kinds)) :
    ds.length ≤ n := by
  have hle := h.count_le (List.prefix_append _ _)
  have hall : ds.map Token.kind = List.replicate ds.length .dedent := by
    apply List.eq_replicate_iff.mpr
    simpa using hds
  simpa [hall, List.count_replicate] using hle

theorem trivia_of_dedent {source : Text} {ts : List Token} (h : tokenize source = .ok ts) {d : Token}
    (hd : d ∈ ts) (hkind : d.kind = .dedent) : d.trivia = [] := by
  obtain ⟨init, last, rfl, hlast, hinit⟩ := tokenize_ends h
  rcases List.mem_append.mp hd with hd | hd
  · have hsource := (hinit d hd).2 (.inr hkind)
    rw [Token.source, List.append_eq_nil_iff] at hsource
    exact hsource.1
  · rw [List.mem_singleton.mp hd, hlast] at hkind
    cases hkind

/-! ## Main statement -/

/-- `us` are the tokens `ts` with trivia handed to closing markers. -/
structure TrailersAttached (ts us : List Token) : Prop where
  /-- Tokens keep their kinds, texts and places. -/
  bare : us.map (·.withTrivia []) = ts.map (·.withTrivia [])
  /-- Only closing markers and tokens directly behind them have other trivia than before. -/
  elsewhere : ∀ (i : Nat) (t u : Token), ts[i]? = some t → us[i]? = some u → u ≠ t →
    t.kind = .dedent ∨ kindBehind none (ts.take i) = some .dedent
  /-- A run of closing markers and the token behind it have the same trivia together as before, and each
  marker has the longest trailer of what the markers in front of it leave, for the column of the block
  that it closes. -/
  shared : ∀ (init run rest : List Token) (t : Token), ts = init ++ (run ++ t :: rest) →
    kindBehind none init ≠ some .dedent → (∀ d ∈ run, d.kind = .dedent) → t.kind ≠ .dedent →
    ∃ init' run' t' rest', us = init' ++ (run' ++ t' :: rest') ∧
      init'.length = init.length ∧ run'.length = run.length ∧
      triviaOf (run' ++ [t']) = triviaOf (run ++ [t]) ∧
      ∀ before d after, run' = before ++ d :: after →
        ∃ column, (init.foldl columnsAfter [])[before.length]? = some column ∧
          IsLongestTrailer column d.trivia (triviaOf (d :: after ++ [t']))

/-- A run of closing markers and the token behind it share the trivia of the token. -/
theorem attachTrailers_run {source : Text} {init run rest : List Token} {t : Token}
    (h : tokenize source = .ok (init ++ (run ++ t :: rest)))
    (hinit : kindBehind none init ≠ some .dedent) (hrun : ∀ d ∈ run, d.kind = .dedent)
    (ht : t.kind ≠ .dedent) :
    ∃ init' run' t' rest', attachTrailers (init ++ (run ++ t :: rest)) =
        init' ++ (run' ++ t' :: rest') ∧
      init'.length = init.length ∧ run'.length = run.length ∧
      triviaOf (run' ++ [t']) = triviaOf (run ++ [t]) ∧
      ∀ before d after, run' = before ++ d :: after →
        ∃ column, (init.foldl columnsAfter [])[before.length]? = some column ∧
          IsLongestTrailer column d.trivia (triviaOf (d :: after ++ [t'])) := by
  obtain ⟨columns, hcolumns⟩ : ∃ columns, columns = init.foldl columnsAfter [] := ⟨_, rfl⟩
  have hlength : run.length ≤ columns.length := by
    have hclose : BlocksClose ([] : List Nat).length
        (init.map Token.kind ++ (run ++ t :: rest).map Token.kind) := by
      rw [← List.map_append]
      exact blocksClose_tokenize h
    have hafter := blocksClose_foldl hclose
    rw [List.map_append, ← hcolumns] at hafter
    exact length_le_of_blocksClose hrun hafter
  have hbare : ∀ d ∈ run, d.trivia = [] := by
    intro d hd
    exact trivia_of_dedent h (by simp [hd]) (hrun d hd)
  have hzip : ∀ r ∈ columns.zip run, r.2.trivia = [] := by
    intro r hr
    exact hbare r.2 (List.of_mem_zip hr).2
  -- What the markers in front of the run take is known before the run is read.
  obtain ⟨out, waiting, hwaiting, -, hout⟩ :=
    @attachTrailersFrom_append none [] (fun _ => rfl) [] init
  rw [hwaiting hinit, ← hcolumns] at hout
  have houtLength : out.length = init.length := by
    have hkinds := congrArg List.length (map_bare_attachTrailersFrom [] [] init)
    have hnone := hout []
    rw [List.append_nil, attachTrailersFrom, List.map_nil, List.append_nil] at hnone
    rw [hnone] at hkinds
    simpa using hkinds
  obtain ⟨columns', hfilled⟩ := attachTrailersFrom_run hrun hlength [] ht rest
  rw [List.nil_append] at hfilled
  have hwhole := triviaOf_fillDedents hzip t.trivia
  refine ⟨out, _, _, _, by rw [attachTrailers, hout, hfilled], houtLength, ?_, ?_, ?_⟩
  · have hkinds := congrArg List.length (map_kind_fillDedents (columns.zip run) t.trivia)
    rw [List.length_map, List.length_map, List.length_zip, Nat.min_eq_right hlength] at hkinds
    exact hkinds
  · have hnone : triviaOf run = [] := List.flatMap_eq_nil_iff.mpr hbare
    simp only [triviaOf, List.flatMap_append, List.flatMap_singleton] at hwhole hnone ⊢
    rw [hnone, List.nil_append]
    exact hwhole
  · intro before d after hsplit
    obtain ⟨r, hr, hlongest⟩ := isLongestTrailer_fillDedents hzip t.trivia hsplit
    refine ⟨r.1, ?_, ?_⟩
    · rw [← hcolumns]
      exact (List.getElem?_zip_eq_some.mp hr).1
    · simpa [triviaOf, Token.withTrivia] using hlongest

/-- Closing markers of a source are given the comments that trail their blocks, and nothing else
changes. -/
theorem trailersAttached_tokenize {source : Text} {ts : List Token} (h : tokenize source = .ok ts) :
    TrailersAttached ts (attachTrailers ts) := by
  have hbare : (attachTrailers ts).map (·.withTrivia []) = ts.map (·.withTrivia []) := by
    rw [attachTrailers, map_bare_attachTrailersFrom]
    rfl
  refine ⟨hbare, ?_, ?_⟩
  · intro i t u ht hu hne
    by_contra hnot
    rw [not_or] at hnot
    apply hne
    obtain ⟨hlt, hget⟩ := List.getElem?_eq_some_iff.mp ht
    have hsplit : ts = ts.take i ++ ([] ++ t :: ts.drop (i + 1)) := by
      rw [List.nil_append, ← hget, List.getElem_cons_drop, List.take_append_drop]
    obtain ⟨init', run', t', rest', hout, hinit', hrun', htrivia, -⟩ :=
      attachTrailers_run (hsplit ▸ h) hnot.2 (by simp) hnot.1
    rw [← hsplit] at hout
    obtain rfl : run' = [] := List.length_eq_zero_iff.mp hrun'
    have hi : init'.length = i := by
      rw [hinit', List.length_take, Nat.min_eq_left hlt.le]
    have hu' : u = t' := by
      rw [hout, List.nil_append, ← hi, List.getElem?_append_right (le_refl _)] at hu
      simpa using hu.symm
    have hkept : u.withTrivia [] = t.withTrivia [] := by
      have hsame := congrArg (·[i]?) hbare
      simpa [ht, hu] using hsame
    have htrivia' : u.trivia = t.trivia := by
      rw [hu']
      simpa [triviaOf] using htrivia
    calc
      u = (u.withTrivia []).withTrivia u.trivia := rfl
      _ = (t.withTrivia []).withTrivia t.trivia := by rw [hkept, htrivia']
      _ = t := rfl
  · intro init run rest t hsplit hinit hrun ht
    subst hsplit
    exact attachTrailers_run h hinit hrun ht

/-- Comments at the depths of two blocks that end together, with blank lines behind them. -/
def trailedSource : Text :=
  "if a:\n  if b:\n    c\n    # inner\n\n   # outer\r\n \n# d\nd\n".toList

theorem trailersAttached_tokenize_trailedSource :
    ∃ ts, tokenize trailedSource = .ok ts ∧
      ((attachTrailers ts).filter (·.kind == .dedent)).map Token.trivia =
        ["    # inner\n", "\n   # outer\r\n"].map String.toList ∧
      TrailersAttached ts (attachTrailers ts) := by
  have hread : (tokenize trailedSource).toOption.map (fun ts =>
      ((attachTrailers ts).filter (·.kind == .dedent)).map Token.trivia) =
      some (["    # inner\n", "\n   # outer\r\n"].map String.toList) := by decide +kernel
  obtain ⟨ts, hts, htrailers⟩ := Option.map_eq_some_iff.mp hread
  cases htokens : tokenize trailedSource with
  | error e => simp [htokens, Except.toOption] at hts
  | ok ts' =>
      obtain rfl : ts' = ts := by simpa [htokens, Except.toOption] using hts
      exact ⟨ts', rfl, htrailers, trailersAttached_tokenize htokens⟩

end SchemaTidy
