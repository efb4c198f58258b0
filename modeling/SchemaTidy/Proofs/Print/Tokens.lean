import SchemaTidy.Proofs.Print.Chunk
import SchemaTidy.Proofs.Print.Rows
import SchemaTidy.Proofs.Tree.Reparse

/-!
# Canonical printing keeps the tokens

The rows of a statement are read as a print of the statement. Blocks open with the first row of their
bodies; they close when a row of less depth, or the end, is read, so what follows a statement is read
in every block that is still open. Blank rows may be left out. The comments of the rows are read in
their order.
-/

namespace SchemaTidy

/-- Widths of the blocks that are open at a depth. -/
def Style.levels (style : Style) : Nat → List Nat
  | 0 => []
  | d + 1 => (d + 1) * style.indentSize :: style.levels d

section Levels

variable {style : Style}

theorem headD_levels (d : Nat) : (style.levels d).headD 0 = d * style.indentSize := by
  cases d with
  | zero => simp [Style.levels]
  | succ d => rfl

theorem cut_levels (hsize : 0 < style.indentSize) (d j : Nat) :
    (style.levels (d + j)).takeWhile (d * style.indentSize < ·) =
        (style.levels (d + j)).take j ∧
      (style.levels (d + j)).dropWhile (d * style.indentSize < ·) = style.levels d := by
  induction j with
  | zero =>
      cases d with
      | zero => simp [Style.levels]
      | succ d => simp [Style.levels]
  | succ j ih =>
      have hlt : d * style.indentSize < (d + j + 1) * style.indentSize :=
        Nat.mul_lt_mul_of_pos_right (by omega) hsize
      rw [← Nat.add_assoc, Style.levels, List.takeWhile_cons_of_pos (by simpa using hlt),
        List.dropWhile_cons_of_pos (by simpa using hlt), List.take_succ_cons, ih.1, ih.2]
      exact ⟨rfl, rfl⟩

theorem length_levels (d : Nat) : (style.levels d).length = d := by
  induction d with
  | zero => rfl
  | succ d ih => simp [Style.levels, ih]

theorem markersTo_levels (hsize : 0 < style.indentSize) (d j : Nat) :
    markersTo (d * style.indentSize) (style.levels (d + j)) =
      some (List.replicate j (.dedent, []), style.levels d) := by
  obtain ⟨htake, hdrop⟩ := @cut_levels style hsize d j
  have hclosed : ((style.levels (d + j)).take j).map (fun _ => ((.dedent, []) : Shape)) =
      List.replicate j (.dedent, []) := by
    rw [List.map_const', List.length_take, length_levels, Nat.min_eq_left (by omega)]
  unfold markersTo
  rw [headD_levels, hdrop, htake, hclosed, headD_levels]
  cases j with
  | zero => simp
  | succ j =>
      have hlt : d * style.indentSize < (d + (j + 1)) * style.indentSize :=
        Nat.mul_lt_mul_of_pos_right (by omega) hsize
      rw [if_neg (by omega), if_pos hlt]
      simp

theorem markersTo_deeper (hsize : 0 < style.indentSize) (d : Nat) :
    markersTo ((d + 1) * style.indentSize) (style.levels d) =
      some ([(.indent, [])], style.levels (d + 1)) := by
  have hlt : d * style.indentSize < (d + 1) * style.indentSize :=
    Nat.mul_lt_mul_of_pos_right (by omega) hsize
  rw [markersTo, headD_levels, if_pos hlt]
  rfl

end Levels

/-! ## Rows -/

/-- At the start of a line and for each of some stacks of open blocks, a text is read as markers and
then as the given tokens, with the comments `cs` among others. -/
structure Starts (lb : Text) (opens : List Nat → List Shape → Prop) (x : Text) (us : List Shape)
    (cs : List Text) : Prop where
  head : lb = ['\r'] → x.head? ≠ some '\n'
  lexes : ∀ indents ms last, opens indents ms → (last = none ∨ last = some .newline) →
    Lexes ⟨x, indents, [], true, last⟩ (ms ++ us) cs

/-- A line that is blank or a comment, with rows behind carriage returns in it. -/
def IsTriviaRows (r : Text) : Prop := ∃ row t, IsTriviaRow row ∧ RowsBehind t ∧ r = row ++ t

namespace Starts

variable {lb x : Text} {opens : List Nat → List Shape → Prop} {us : List Shape} {cs : List Text}

theorem mono {opens' : List Nat → List Shape → Prop} (h : Starts lb opens x us cs)
    (hsub : ∀ indents ms, opens' indents ms → opens indents ms) : Starts lb opens' x us cs :=
  ⟨h.head, fun indents ms last hopen => h.lexes indents ms last (hsub _ _ hopen)⟩

theorem row (hlb : IsBreak lb) {r t : Text} (hr : IsTriviaRow r) (ht : RowsBehind t)
    (h : Starts lb opens x us cs) :
    Starts lb opens ((r ++ t) ++ (lb ++ x)) us (Trivia.physicalComments (r ++ t) ++ cs) := by
  rw [List.append_assoc]
  refine ⟨fun hlb' => ?_, fun indents ms last hopen hlast => ?_⟩
  · cases r with
    | nil =>
        by_cases hnil : t = []
        · simp [hnil, hlb']
        · exact ht.head?_ne hnil
    | cons c r =>
        have hc := hr.isLineBreak c (by simp)
        intro hnl
        obtain rfl : c = '\n' := by simpa using hnl
        cases hc
  · exact lexes_rows hr ht hlb h.head (h.lexes indents ms last hopen hlast)

theorem rows (hlb : IsBreak lb) {rs : List Text} (hrs : ∀ r ∈ rs, IsTriviaRows r)
    (h : Starts lb opens x us cs) :
    Starts lb opens (joinLines lb rs ++ x) us (rs.flatMap Trivia.physicalComments ++ cs) := by
  induction rs with
  | nil => exact h
  | cons r rs ih =>
      obtain ⟨row, t, hrow, ht, rfl⟩ := hrs r (by simp)
      have hrest := (ih fun s hs => hrs s (by simp [hs])).row hlb hrow ht
      simpa using hrest

end Starts

section Depths

variable (style : Style) (lb : Text) (d : Nat) (x : Text) (us : List Shape) (cs : List Text)

/-- A text is read at a depth, after the end of all deeper blocks. -/
def Continues : Prop :=
  Starts lb (fun indents ms => ∃ j, indents = style.levels (d + j) ∧
    ms = List.replicate j (.dedent, [])) x us cs

def Enters : Prop :=
  Starts lb (fun indents ms =>
    markersTo (d * style.indentSize) indents = some (ms, style.levels d)) x us cs

def Follows : Prop :=
  Starts lb (fun indents ms => indents = style.levels d ∧ ms = []) x us cs

end Depths

section Moves

variable {style : Style} {lb : Text} {d : Nat} {x : Text} {us : List Shape} {cs : List Text}

theorem Enters.continues (hsize : 0 < style.indentSize) (h : Enters style lb d x us cs) :
    Continues style lb d x us cs := by
  refine Starts.mono h ?_
  rintro indents ms ⟨j, rfl, rfl⟩
  exact markersTo_levels hsize d j

theorem Enters.follows (hsize : 0 < style.indentSize) (h : Enters style lb (d + 1) x us cs) :
    Follows style lb d x ((.indent, []) :: us) cs := by
  refine ⟨h.head, ?_⟩
  rintro indents ms last ⟨rfl, rfl⟩ hlast
  exact h.lexes _ _ last (markersTo_deeper hsize d) hlast

theorem Continues.follows (h : Continues style lb d x us cs) : Follows style lb d x us cs := by
  refine Starts.mono h ?_
  rintro indents ms ⟨rfl, rfl⟩
  exact ⟨0, rfl, rfl⟩

theorem Continues.deeper (h : Continues style lb d x us cs) :
    Continues style lb (d + 1) x ((.dedent, []) :: us) cs := by
  refine ⟨h.head, ?_⟩
  rintro indents ms last ⟨j, rfl, rfl⟩ hlast
  have hlexes := h.lexes _ _ last ⟨j + 1, rfl, rfl⟩ hlast
  rw [show d + 1 + j = d + (j + 1) by omega]
  rwa [List.replicate_succ', List.append_assoc] at hlexes

theorem continues_end (style : Style) (lb : Text) :
    Continues style lb 0 [] [(.endMarker, [])] [] := by
  refine ⟨by simp, ?_⟩
  rintro indents ms last ⟨j, rfl, rfl⟩ hlast
  rw [Nat.zero_add]
  have hlexes := @lexes_end (style.levels j) last hlast
  rwa [List.map_const', length_levels] at hlexes

theorem indentAt_isIndent (style : Style) (d : Nat) :
    ∀ c ∈ style.indentAt d, Text.isIndent c = true := by
  intro c hc
  rw [(List.mem_replicate.mp hc).2]
  rfl

theorem Follows.line (hlb : IsBreak lb) {first : Text} {rest : List Text} {vs : List Shape}
    {cs' : List Text} (hfirst : StartsWord first)
    (hlines : LinesRead lb [] (first :: rest) vs cs' []) (h : Follows style lb d x us cs) :
    Enters style lb d (joinLines lb ((style.indentAt d ++ first) :: rest) ++ x)
      (vs ++ (.newline, []) :: us) (cs' ++ cs) := by
  obtain ⟨c, w, rfl, hc⟩ := hfirst
  have hstart : joinLines lb ((style.indentAt d ++ c :: w) :: rest) ++ x =
      List.replicate (d * style.indentSize) ' ' ++
        c :: (w ++ (lb ++ (joinLines lb rest ++ x))) := by
    simp [Style.indentAt]
  have hline : c :: (w ++ (lb ++ (joinLines lb rest ++ x))) =
      joinLines lb ((c :: w) :: rest) ++ x := by
    simp
  refine ⟨fun _ hnl => ?_, fun indents ms last hms _ => ?_⟩
  · rw [hstart] at hnl
    cases hk : d * style.indentSize with
    | zero =>
        rw [hk] at hnl
        obtain rfl : c = '\n' := by simpa using hnl
        cases hc.2.2
    | succ k =>
        rw [hk, List.replicate_succ] at hnl
        simp at hnl
  · rw [hstart]
    refine lexes_indentation hc hms fun last => ?_
    rw [hline]
    refine hlines.reads _ _ _ _ _ fun last => ?_
    exact lexes_newline hlb h.head (h.lexes _ [] _ ⟨rfl, rfl⟩ (.inr rfl))

end Moves

/-! ## Blank rows that are left out -/

/-- Lines of which some that are empty are left out. -/
inductive Thins : List Text → List Text → Prop where
  | nil : Thins [] []
  | keep (l : Text) {ls ms : List Text} : Thins ls ms → Thins (l :: ls) (l :: ms)
  | drop {ls ms : List Text} : Thins ls ms → Thins ([] :: ls) ms

namespace Thins

theorem refl (ls : List Text) : Thins ls ls := by
  induction ls with
  | nil => exact .nil
  | cons l ls ih => exact .keep l ih

theorem mem {ls ms : List Text} (h : Thins ls ms) {l : Text} (hl : l ∈ ms) : l ∈ ls := by
  induction h with
  | nil => exact hl
  | keep m _ ih =>
      rcases List.mem_cons.mp hl with rfl | hl
      · simp
      · exact List.mem_cons_of_mem _ (ih hl)
  | drop _ ih => exact List.mem_cons_of_mem _ (ih hl)

theorem split {as bs ms : List Text} (h : Thins (as ++ bs) ms) :
    ∃ as' bs', ms = as' ++ bs' ∧ Thins as as' ∧ Thins bs bs' := by
  induction as generalizing ms with
  | nil => exact ⟨[], ms, rfl, .nil, h⟩
  | cons a as ih =>
      cases h with
      | keep _ h =>
          obtain ⟨as', bs', rfl, has, hbs⟩ := ih h
          exact ⟨a :: as', bs', rfl, .keep a has, hbs⟩
      | drop h =>
          obtain ⟨as', bs', rfl, has, hbs⟩ := ih h
          exact ⟨as', bs', rfl, .drop has, hbs⟩

theorem comments_eq {ls ms : List Text} (h : Thins ls ms) :
    ms.flatMap Trivia.physicalComments = ls.flatMap Trivia.physicalComments := by
  induction h with
  | nil => rfl
  | keep l _ ih => rw [List.flatMap_cons, List.flatMap_cons, ih]
  | drop _ ih => rwa [List.flatMap_cons]

theorem eq_of_ne_nil {ls ms : List Text} (h : Thins ls ms) (hne : ∀ l ∈ ls, l ≠ []) : ms = ls := by
  induction h with
  | nil => rfl
  | keep l _ ih => rw [ih fun m hm => hne m (by simp [hm])]
  | drop _ _ => exact absurd rfl (hne [] (by simp))

theorem dropLast {ls : List Text} : Thins ls (ls.reverse.dropWhile List.isEmpty).reverse := by
  induction ls with
  | nil => exact .nil
  | cons l ls ih =>
      rw [List.reverse_cons, List.dropWhile_append]
      split
      · rename_i hnil
        have hrest : Thins ls [] := by
          rw [List.isEmpty_iff.mp hnil] at ih
          exact ih
        cases l with
        | nil => exact .drop hrest
        | cons c l => exact .keep (c :: l) hrest
      · rw [List.reverse_append, List.reverse_singleton, List.singleton_append]
        exact .keep l ih

theorem trans {ls ms ns : List Text} (h : Thins ls ms) (h' : Thins ms ns) : Thins ls ns := by
  induction h generalizing ns with
  | nil => exact h'
  | keep l _ ih =>
      cases h' with
      | keep _ h' => exact .keep l (ih h')
      | drop h' => exact .drop (ih h')
  | drop _ ih => exact .drop (ih h')

end Thins

/-! ## Statements -/

mutual

/-- The items of the logical lines of a statement. -/
def Statement.logicalLines : Statement → List (List Item)
  | .simple line => [line.items]
  | .compound _ header _ block => header :: block.logicalLines

def Block.logicalLines : Block → List (List Item)
  | ⟨_, body, _⟩ => logicalLinesOf body

def logicalLinesOf : List Statement → List (List Item)
  | [] => []
  | s :: ss => s.logicalLines ++ logicalLinesOf ss

end

/-- The comments of a logical line outside of brackets that its rows hold: those before its items and
the one behind it. -/
def printedInLine (items : List Item) (newline : Token) : List Text :=
  (items.flatMap fun i => Trivia.physicalComments i.firstToken.trivia) ++
    Trivia.physicalComments (commentTail (Trivia.sameLineComment? newline.trivia).toList)

mutual

/-- The comments of a statement outside of brackets that its rows hold. -/
def Statement.printedComments : Statement → List Text
  | .simple line => printedInLine line.items line.newline
  | .compound _ header newline block => printedInLine header newline ++ block.printedComments

/-- The comments of a block outside of brackets that its rows hold. -/
def Block.printedComments : Block → List Text
  | ⟨_, body, dedent⟩ => printedInBody body ++ Trivia.physicalComments dedent.trivia

/-- The comments of statements outside of brackets that their rows hold. -/
def printedInBody : List Statement → List Text
  | [] => []
  | s :: ss => s.printedComments ++ printedInBody ss

end

/-- The comments of a module outside of brackets that its rows hold. -/
def Module.printedComments (m : Module) : List Text :=
  printedInBody m.body ++ Trivia.physicalComments m.endMarker.trivia

def rowTexts (rows : List (Option Text)) : List Text := rows.map (·.getD [])

theorem rowTexts_append (rs ts : List (Option Text)) :
    rowTexts (rs ++ ts) = rowTexts rs ++ rowTexts ts :=
  List.map_append

theorem rowTexts_some (ls : List Text) : rowTexts (ls.map some) = ls := by
  rw [rowTexts, List.map_map]
  exact List.map_id ls

theorem isTriviaRows_comment {c : Text} (hc : IsRemark c) (style : Style) (d : Nat) :
    IsTriviaRows (style.indentAt d ++ c) := by
  obtain ⟨w, t, hw, ht, rfl⟩ := hc
  exact ⟨style.indentAt d ++ w, t, ⟨_, indentAt_isIndent style d, .inr ⟨w, hw, rfl⟩⟩, ht, by simp⟩

theorem isTriviaRows_triviaRows {trivia : Text} (h : Trivia.hidesCode trivia = false)
    (style : Style) (d : Nat) : ∀ r ∈ rowTexts (triviaRows style d trivia), IsTriviaRows r := by
  intro r hr
  obtain ⟨row, hrow, rfl⟩ := List.mem_map.mp hr
  obtain ⟨l, hl, rfl⟩ := List.mem_map.mp hrow
  cases l with
  | blank => exact ⟨[], [], ⟨[], by simp, .inl rfl⟩, .nil, rfl⟩
  | comment c => exact isTriviaRows_comment (Trivia.isRemark_lines h hl) style d

theorem physicalComments_indentAt (style : Style) (d : Nat) (t : Text) :
    Trivia.physicalComments (style.indentAt d ++ t) = Trivia.physicalComments t :=
  physicalComments_blanks (indentAt_isIndent style d) t

theorem comments_triviaRows (style : Style) (d : Nat) (trivia : Text) :
    (rowTexts (triviaRows style d trivia)).flatMap Trivia.physicalComments =
      Trivia.physicalComments trivia := by
  rw [← Trivia.flatMap_lines, rowTexts, triviaRows, List.map_map, List.flatMap_map]
  refine List.flatMap_congr fun l _ => ?_
  cases l with
  | blank => rfl
  | comment text => exact physicalComments_indentAt style d text

/-- The rows of comments between items have them. -/
theorem comments_innerComments (style : Style) (d : Nat) (items : List Item) :
    ((innerComments items).map (style.indentAt d ++ ·)).flatMap Trivia.physicalComments =
      items.tail.flatMap fun i => Trivia.physicalComments i.firstToken.trivia := by
  rw [List.flatMap_map, innerComments, List.flatMap_assoc]
  refine List.flatMap_congr fun i _ => ?_
  rw [← Trivia.flatMap_comments i.firstToken.trivia]
  exact List.flatMap_congr fun c _ => physicalComments_indentAt style d c

theorem appendToLast_indent {tail w l first : Text} {ls rest : List Text}
    (h : appendToLast tail (l :: ls) = first :: rest) :
    appendToLast tail ((w ++ l) :: ls) = (w ++ first) :: rest := by
  by_cases hls : ls = []
  · rw [hls, appendToLast] at h ⊢
    obtain ⟨rfl, rfl⟩ := List.cons.inj h
    rw [List.append_assoc]
  · rw [appendToLast_cons _ _ hls] at h ⊢
    obtain ⟨rfl, rfl⟩ := List.cons.inj h
    rfl

theorem header_ne_nil {signature : Option ClassSignature} {original header : List Item}
    {newline : Token} {block : Block} (h : original ≠ [])
    (hcompound : compoundOf original newline block = .ok (.compound signature header newline block)) :
    header ≠ [] := by
  unfold compoundOf at hcompound
  split at hcompound
  · split at hcompound
    · split at hcompound
      · cases hcompound
        exact h
      · cases hcompound
    · cases hcompound
      unfold relabelHeader
      split
      · split <;> simp
      · exact h
  · cases hcompound
    exact h

section Reading

variable {style : Style} {lb : Text} (hlb : IsBreak lb)

include hlb in
/-- The lines of well-formed items are comment lines and lines that are read as a print of them. -/
theorem printLine_reads {items : List Item} (hne : items ≠ []) (hitems : ItemsWellFormed items)
    (hplain : ∀ t ∈ tokensOfItems items, Trivia.hidesCode t.trivia = false)
    (hruns : style.SoundOn (literalRunsFrom [] items))
    (hfuse : chunksFuse (lineChunks style items) = false) {indent : Text}
    (hindent : ∀ c ∈ indent, Text.isIndent c = true) (newline : Token) :
    ∃ first rest us, printLine style indent items newline =
        (innerComments items).map (indent ++ ·) ++ (indent ++ first) :: rest ∧
      StartsWord first ∧ (style.KeepsLiterals → ItemsPrint items us) ∧
      LinesRead lb [] (first :: rest) us
        (Trivia.physicalComments (commentTail (Trivia.sameLineComment? newline.trivia).toList)) [] := by
  rw [lineChunks, chunksFuse_wrapLastRun] at hfuse
  have hsound := chunksOf_sound _ [] hitems hplain hruns hfuse
  have hchunks : lineChunks style items ≠ [] :=
    wrapLastRun_ne_nil (chunksOf_ne_nil _ _ _ _ (.inr hne))
  have hlayout := layout_reads style hlb hindent false false hchunks (by simp) hsound.wrap
  obtain ⟨first, rest, us, hlines, hstart, hus, hread⟩ := hlayout
  have hprint (hstyle : style.KeepsLiterals) : ItemsPrint items us :=
    @chunksOf_prints style hstyle items _ [] us hitems (by simp) (wrapped_of_wrapLastRun hus)
  have hline := hread (Trivia.sameLineComment? newline.trivia).toList fun c hc =>
    ⟨(Trivia.isComment_sameLine c hc).isRemark, fun _ => Trivia.isComment_sameLine c hc⟩
  obtain ⟨first', rest', htail⟩ := List.exists_cons_of_ne_nil hline.ne_nil
  rw [htail] at hline
  refine ⟨first', rest', us, ?_, ?_, hprint, by simpa [commaShapes] using hline⟩
  · have hlines' : layout style indent [] false (lineChunks style items) =
        (indent ++ first) :: rest := hlines
    rw [printLine, hlines', appendToLast_append _ _ (by simp), appendToLast_indent htail]
  · by_cases hrest : rest = []
    · rw [hrest, appendToLast] at htail
      obtain ⟨rfl, -⟩ := List.cons.inj htail
      exact hstart.append _
    · rw [appendToLast_cons _ _ hrest] at htail
      obtain ⟨rfl, -⟩ := List.cons.inj htail
      exact hstart

include hlb in
theorem headerRows_reads {items : List Item} (hne : items ≠ []) (hitems : ItemsWellFormed items)
    (hplain : ∀ t ∈ tokensOfItems items, Trivia.hidesCode t.trivia = false)
    (hruns : style.SoundOn (literalRunsFrom [] items))
    (hfuse : chunksFuse (lineChunks style items) = false) {newline : Token} {d : Nat} {x : Text}
    {ls : List Text} {us : List Shape} {cs : List Text}
    (hls : Thins (rowTexts (headerRows style d items newline)) ls)
    (h : Follows style lb d x us cs) :
    ∃ vs, (style.KeepsLiterals → ItemsPrint items vs) ∧
      Enters style lb d (joinLines lb ls ++ x) (vs ++ (.newline, []) :: us)
        (printedInLine items newline ++ cs) := by
  obtain ⟨first, rest, vs, hprint, hstart, hvs, hread⟩ :=
    printLine_reads hlb hne hitems hplain hruns hfuse (indentAt_isIndent style d) newline
  obtain ⟨i, is, rfl⟩ := List.exists_cons_of_ne_nil hne
  rw [headerRows, hprint, rowTexts_append, rowTexts_some] at hls
  obtain ⟨leading, ls', rfl, hleading, hls'⟩ := hls.split
  have hcomments : ∀ r ∈ (innerComments (i :: is)).map (style.indentAt d ++ ·),
      IsTriviaRows r := by
    intro r hr
    obtain ⟨c, hc, rfl⟩ := List.mem_map.mp hr
    exact isTriviaRows_comment (isRemark_innerComments hplain c hc) style d
  have hkept : ls' = (innerComments (i :: is)).map (style.indentAt d ++ ·) ++
      (style.indentAt d ++ first) :: rest := by
    refine hls'.eq_of_ne_nil fun l hl => ?_
    rcases List.mem_append.mp hl with hl | hl
    · obtain ⟨c, hc, rfl⟩ := List.mem_map.mp hl
      obtain ⟨c, rfl⟩ := (isRemark_innerComments hplain c hc).exists_cons
      simp
    · exact ((hread.indent (indentAt_isIndent style d)).rows l hl).1
  refine ⟨vs, hvs, ?_⟩
  have hline := Follows.line hlb hstart hread h
  have hinner := Starts.rows hlb hcomments hline
  have htrivia : ∀ r ∈ leading, IsTriviaRows r := fun r hr =>
    isTriviaRows_triviaRows (hplain _ (firstToken_mem_tokensOfItems (by simp))) style d r
      (hleading.mem hr)
  have hall := Starts.rows hlb htrivia hinner
  have hcs : leading.flatMap Trivia.physicalComments =
      Trivia.physicalComments i.firstToken.trivia :=
    hleading.comments_eq.trans (comments_triviaRows style d _)
  rw [hcs, comments_innerComments] at hall
  rw [hkept, joinLines_append, joinLines_append, List.append_assoc, List.append_assoc, printedInLine,
    List.flatMap_cons, List.append_assoc, List.append_assoc]
  exact hall

end Reading

mutual

/-- The rows of a statement are read as a print of it, before anything that is read at its depth. -/
theorem statement_reads {style : Style} {lb : Text} (hlb : IsBreak lb)
    (hsize : 0 < style.indentSize) : ∀ {s : Statement} {d : Nat} {x : Text} {ls : List Text}
    {us : List Shape} {cs : List Text}, s.WellFormed →
    (∀ t ∈ s.tokens, Trivia.hidesCode t.trivia = false) →
    (∀ items ∈ s.logicalLines, style.SoundOn (literalRunsFrom [] items) ∧
      chunksFuse (lineChunks style items) = false) →
    Thins (rowTexts (s.rows style d)) ls → Continues style lb d x us cs →
    ∃ vs, (style.KeepsLiterals → s.Prints vs) ∧
      Enters style lb d (joinLines lb ls ++ x) (vs ++ us) (s.printedComments ++ cs)
  | .simple ⟨items, newline, reformat⟩, d, x, ls, us, cs, hs, hplain, hlines, hls, h => by
      obtain ⟨hitems, -, -⟩ := hs
      obtain ⟨hruns, hfuse⟩ := hlines items (by simp [Statement.logicalLines])
      obtain ⟨vs, hvs, hread⟩ := headerRows_reads hlb hitems.ne_nil hitems.wellFormed
        (fun t ht => hplain t (by simp [Statement.tokens, Line.tokens, ht])) hruns hfuse hls h.follows
      exact ⟨vs ++ [(.newline, [])], fun hstyle => ⟨vs, hvs hstyle, rfl⟩, by rwa [List.append_assoc]⟩
  | .compound signature header newline ⟨indent, body, dedent⟩, d, x, ls, us, cs, hs, hplain, hlines,
      hls, h => by
      obtain ⟨⟨-, -, hne, hbody⟩, -, original, horiginal, -, hcompound⟩ := hs
      have htokens : ∀ t, t ∈ tokensOfItems header ∨ t ∈ tokensOfBody body ∨ t = dedent →
          Trivia.hidesCode t.trivia = false := by
        rintro t (ht | ht | rfl) <;> exact hplain _ (by simp [Statement.tokens, Block.tokens, *])
      rw [Statement.rows, Block.rows, rowTexts_append, rowTexts_append] at hls
      obtain ⟨headerLines, blockLines, rfl, hheader, hblock⟩ := hls.split
      obtain ⟨bodyLines, triviaLines, rfl, hbodyLines, htrivia⟩ := hblock.split
      have hdedent : Trivia.hidesCode dedent.trivia = false := htokens dedent (.inr (.inr rfl))
      have hafter := Starts.rows hlb
        (fun r hr => isTriviaRows_triviaRows hdedent style (d + 1) r (htrivia.mem hr)) h.deeper
      rw [htrivia.comments_eq, comments_triviaRows] at hafter
      obtain ⟨ws, hws, -, hread⟩ := body_reads hlb hsize hbody
        (fun t ht => htokens t (.inr (.inl ht)))
        (fun items hitems => hlines items (by
          simp [Statement.logicalLines, Block.logicalLines, hitems]))
        hbodyLines hafter
      obtain ⟨hruns, hfuse⟩ := hlines header (by simp [Statement.logicalLines])
      obtain ⟨vs, hvs, hread'⟩ := headerRows_reads hlb
        (header_ne_nil horiginal.ne_nil hcompound)
        (itemsWellFormed_header horiginal.wellFormed hcompound)
        (fun t ht => htokens t (.inl ht)) hruns hfuse hheader ((hread hne).follows hsize)
      refine ⟨vs ++ (.newline, []) :: ((.indent, []) :: (ws ++ [(.dedent, [])])),
        fun hstyle => ⟨vs, _, hvs hstyle, ⟨ws, hws hstyle, rfl⟩, rfl⟩, ?_⟩
      simpa [joinLines_append, Statement.printedComments, Block.printedComments] using hread'

theorem body_reads {style : Style} {lb : Text} (hlb : IsBreak lb)
    (hsize : 0 < style.indentSize) : ∀ {ss : List Statement} {d : Nat} {x : Text} {ls : List Text}
    {us : List Shape} {cs : List Text}, BodyWellFormed ss →
    (∀ t ∈ tokensOfBody ss, Trivia.hidesCode t.trivia = false) →
    (∀ items ∈ logicalLinesOf ss, style.SoundOn (literalRunsFrom [] items) ∧
      chunksFuse (lineChunks style items) = false) →
    Thins (rowTexts (rowsOf style d ss)) ls → Continues style lb d x us cs →
    ∃ vs, (style.KeepsLiterals → BodyPrints ss vs) ∧
      Continues style lb d (joinLines lb ls ++ x) (vs ++ us) (printedInBody ss ++ cs) ∧
      (ss ≠ [] → Enters style lb d (joinLines lb ls ++ x) (vs ++ us) (printedInBody ss ++ cs))
  | [], d, x, ls, us, cs, _, _, _, hls, h => by
      cases hls
      exact ⟨[], fun _ => rfl, h, fun hne => absurd rfl hne⟩
  | s :: ss, d, x, ls, us, cs, hss, hplain, hlines, hls, h => by
      rw [rowsOf, rowTexts_append] at hls
      obtain ⟨first, rest, rfl, hfirst, hrest⟩ := hls.split
      obtain ⟨ws, hws, hread, -⟩ := body_reads hlb hsize hss.2
        (fun t ht => hplain t (by simp [tokensOfBody, ht]))
        (fun items hitems => hlines items (by simp [logicalLinesOf, hitems])) hrest h
      obtain ⟨vs, hvs, hread'⟩ := statement_reads hlb hsize hss.1
        (fun t ht => hplain t (by simp [tokensOfBody, ht]))
        (fun items hitems => hlines items (by simp [logicalLinesOf, hitems])) hfirst hread
      have hall : Enters style lb d (joinLines lb (first ++ rest) ++ x) (vs ++ ws ++ us)
          (printedInBody (s :: ss) ++ cs) := by
        simpa [joinLines_append, printedInBody] using hread'
      exact ⟨vs ++ ws, fun hstyle => ⟨vs, ws, hvs hstyle, hws hstyle, rfl⟩, hall.continues hsize,
        fun _ => hall⟩

end

/-! ## Modules -/

mutual

theorem isBreak_statement : ∀ {s : Statement} {lb : Text}, s.WellFormed → s.lineBreak? = some lb →
    IsBreak lb
  | .simple ⟨items, newline, reformat⟩, lb, hs, hlb => by
      obtain ⟨-, -, -, hend⟩ := hs
      rw [Statement.lineBreak?] at hlb
      split at hlb
      · cases hlb
      · rename_i hne
        cases hlb
        exact hend.resolve_left (by simpa using hne)
  | .compound signature header newline ⟨indent, body, dedent⟩, lb, hs, hlb => by
      obtain ⟨⟨-, -, -, hbody⟩, ⟨-, hend⟩, -⟩ := hs
      rw [Statement.lineBreak?, Block.lineBreak?] at hlb
      split at hlb
      · exact isBreak_body hbody hlb
      · rename_i hne
        cases hlb
        exact hend.resolve_left (by simpa using hne)

theorem isBreak_body : ∀ {ss : List Statement} {lb : Text}, BodyWellFormed ss →
    lineBreakOf? ss = some lb → IsBreak lb
  | [], lb, _, hlb => by cases hlb
  | s :: ss, lb, hss, hlb => by
      rw [lineBreakOf?, Option.orElse_eq_orElse] at hlb
      cases hs : s.lineBreak? with
      | none =>
          rw [hs] at hlb
          exact isBreak_body hss.2 hlb
      | some lb' =>
          rw [hs] at hlb
          cases hlb
          exact isBreak_statement hss.1 hs

end

theorem isBreak_lineBreak {m : Module} (h : BodyWellFormed m.body) : IsBreak m.lineBreak := by
  unfold Module.lineBreak
  cases hlb : lineBreakOf? m.body with
  | none => exact .inl rfl
  | some lb => exact isBreak_body h hlb

theorem thins_dropWhile (rows : List (Option Text)) :
    Thins (rowTexts rows) (rowTexts (rows.dropWhile Option.isNone)) := by
  induction rows with
  | nil => exact .nil
  | cons r rows ih =>
      cases r with
      | none => exact .drop ih
      | some l => exact Thins.refl _

/-- The canonical print of a module is read with the comments outside of brackets that its rows hold.
If literals keep their spellings, it is read as a print of its statements. -/
theorem tokenize_rows {m : Module} (hm : BodyWellFormed m.body) {style : Style}
    (hsize : 0 < style.indentSize) (hplain : ∀ t ∈ m.tokens, Trivia.hidesCode t.trivia = false)
    (hlines : ∀ items ∈ logicalLinesOf m.body, style.SoundOn (literalRunsFrom [] items) ∧
      chunksFuse (lineChunks style items) = false) :
    ∃ us ts, (style.KeepsLiterals → BodyPrints m.body us) ∧
      tokenize (m.printCanonical style) = .ok ts ∧ ts.map Token.shape = us ++ [(.endMarker, [])] ∧
      m.printedComments.Sublist (commentsOf ts) := by
  have hlb := isBreak_lineBreak hm
  have hthins := (thins_dropWhile
    (rowsOf style 0 m.body ++ triviaRows style 0 m.endMarker.trivia)).trans Thins.dropLast
  rw [rowTexts_append] at hthins
  obtain ⟨bodyLines, endLines, hsplit, hbody, hend⟩ := hthins.split
  have hmarker : Trivia.hidesCode m.endMarker.trivia = false := hplain _ (by simp [Module.tokens])
  have hafter := Starts.rows hlb
    (fun r hr => isTriviaRows_triviaRows hmarker style 0 r (hend.mem hr))
    (continues_end style m.lineBreak)
  rw [hend.comments_eq, comments_triviaRows] at hafter
  obtain ⟨us, hus, hread, -⟩ := body_reads hlb hsize hm
    (fun t ht => hplain t (by simp [Module.tokens, ht])) hlines hbody hafter
  have hprint : m.printCanonical style =
      joinLines m.lineBreak bodyLines ++ (joinLines m.lineBreak endLines ++ []) := by
    rw [List.append_nil, ← joinLines_append, ← hsplit]
    rfl
  obtain ⟨ts, hts, hshapes, hcomments⟩ := hread.lexes [] [] none ⟨0, rfl, rfl⟩ (.inl rfl)
    (Cursor.ofSource (m.printCanonical style)) (by rw [hprint]; rfl) (.inl Trivia.closed_nil)
  exact ⟨us, ts, hus, hts, hshapes, by
    simpa [Module.printedComments, Cursor.ofSource] using hcomments⟩

mutual

theorem Statement.WellFormed.logicalLines : ∀ {s : Statement}, s.WellFormed →
    ∀ items ∈ s.logicalLines, ItemsWellFormed items
  | .simple ⟨items, newline, reformat⟩, hs, _, hmem => by
      obtain rfl := List.mem_singleton.mp hmem
      exact hs.1.wellFormed
  | .compound signature header newline ⟨indent, body, dedent⟩, hs, items, hmem => by
      obtain ⟨⟨-, -, -, hbody⟩, -, original, horiginal, -, hcompound⟩ := hs
      rcases List.mem_cons.mp hmem with rfl | hmem
      · exact itemsWellFormed_header horiginal.wellFormed hcompound
      · exact hbody.logicalLinesOf items hmem

theorem BodyWellFormed.logicalLinesOf : ∀ {ss : List Statement}, BodyWellFormed ss →
    ∀ items ∈ logicalLinesOf ss, ItemsWellFormed items
  | [], _, _, hmem => by cases hmem
  | s :: ss, hss, items, hmem => by
      rcases List.mem_append.mp hmem with hmem | hmem
      · exact hss.1.logicalLines items hmem
      · exact BodyWellFormed.logicalLinesOf hss.2 items hmem

end

/-- The canonical print of a module is read as a print of its statements. -/
theorem tokenize_print {m : Module} (hm : BodyWellFormed m.body) {style : Style}
    (hstyle : style.KeepsLiterals) (hsize : 0 < style.indentSize)
    (hplain : ∀ t ∈ m.tokens, Trivia.hidesCode t.trivia = false)
    (hfuse : ∀ items ∈ logicalLinesOf m.body, chunksFuse (lineChunks style items) = false) :
    ∃ us ts, BodyPrints m.body us ∧ tokenize (m.printCanonical style) = .ok ts ∧
      ts.map Token.shape = us ++ [(.endMarker, [])] := by
  obtain ⟨us, ts, hus, hts, hshapes, -⟩ := tokenize_rows hm hsize hplain fun items hitems =>
    ⟨soundOn_literalRunsFrom hstyle (hm.logicalLinesOf items hitems) (by simp), hfuse items hitems⟩
  exact ⟨us, ts, hus hstyle, hts, hshapes⟩

theorem shapes_attachTrailers (ts : List Token) :
    (attachTrailers ts).map Token.shape = ts.map Token.shape := by
  have hshape : Token.shape = (fun s : TokenKind × Text => (s.1, if s.1.isWord then s.2 else [])) ∘
      Token.spelling := rfl
  rw [hshape, ← List.map_map, spelling_attachTrailers, List.map_map]

theorem shapes_parse {source : Text} {m : Module} (h : parse source = .ok m) :
    ∃ ts, tokenize source = .ok ts ∧ ts.map Token.shape =
      (tokensOfBody m.body).map Token.shape ++ [(.endMarker, [])] := by
  obtain ⟨ts, hts, htokens⟩ := tokens_parse h
  refine ⟨ts, hts, ?_⟩
  have hshapes : m.tokens.map Token.shape = ts.map Token.shape := by
    rw [htokens, shapes_attachTrailers]
  obtain ⟨init, last, rfl, hlast, -⟩ := tokenize_ends hts
  have hend : last.shape = (.endMarker, []) := by simp [Token.shape, hlast, TokenKind.isWord]
  rw [Module.tokens, List.map_append, List.map_append] at hshapes
  rw [List.map_append, ← List.append_inj_left' hshapes rfl, List.map_singleton, hend]

theorem Config.indentSize_pos {c : Config} (h : c.validate = .ok ()) : 0 < c.style.indentSize := by
  unfold validate at h
  split at h
  · cases h
  split at h
  · cases h
  · omega

/-- Whether the words of some logical line fuse when they are printed. -/
def Module.fusesWords (style : Style) (m : Module) : Bool :=
  (logicalLinesOf m.body).any fun items => chunksFuse (lineChunks style items)

/-- Whether some comment holds a line that a backslash continues. -/
def Module.hidesCode (m : Module) : Bool := m.tokens.any fun t => Trivia.hidesCode t.trivia

/-- Canonical printing that leaves literals alone keeps the tokens of a program, up to commas before
closing brackets and parentheses around literals, unless words fuse or a comment hides code. -/
theorem print_keeps_tokens {source : Text} {m : Module} (h : parse source = .ok m) {c : Config}
    (hconfig : c.validate = .ok ()) (hmode : c.style.mode = .canonical)
    (hquotes : c.style.normalizeQuotes = false) (hwrap : c.style.wrapStrings = false)
    (hfuse : m.fusesWords c.style = false) (hcode : m.hidesCode = false) :
    ∃ ts m' ts', tokenize source = .ok ts ∧ parse (m.print c.style) = .ok m' ∧
      tokenize (m.print c.style) = .ok ts' ∧ Same (ts.map Token.shape) (ts'.map Token.shape) := by
  have hm := parse_wellFormed h
  simp only [Module.fusesWords, List.any_eq_false, Bool.not_eq_true] at hfuse
  simp only [Module.hidesCode, List.any_eq_false, Bool.not_eq_true] at hcode
  obtain ⟨ts, hts, hshapes⟩ := shapes_parse h
  obtain ⟨us, ts', hus, hts', hshapes'⟩ :=
    tokenize_print hm ⟨hquotes, hwrap⟩ (Config.indentSize_pos hconfig) hcode hfuse
  obtain ⟨m', hm'⟩ := ParseState.feedAll_print hm hus ((shapes_attachTrailers ts').trans hshapes')
  have hprint : m.print c.style = m.printCanonical c.style := by simp only [Module.print, hmode]
  rw [hprint]
  refine ⟨ts, m', ts', hts, ?_, hts', ?_⟩
  · simp only [parse, hts', hm']
  · rw [hshapes, hshapes']
    exact same_body hm hus (.cons _ .nil)

/-- A style that breaks most lines and leaves literals alone. -/
def narrowStyle : Style := { lineLength := 24, normalizeQuotes := false, wrapStrings := false }

/-- A source whose print has one row for each argument, a new comma, literals in parentheses and a
comment with a carriage return. -/
def rearrangedSource : Text :=
  "class A(B):\n  x = F(a=-1, b=y[1:2])  # c\n  # d\r  # e\n  if x: z\nt = 'one half, ' 'the other'".toList

theorem print_keeps_tokens_rearrangedSource :
    ∃ m ts m' ts', parse rearrangedSource = .ok m ∧ tokenize rearrangedSource = .ok ts ∧
      parse (m.print narrowStyle) = .ok m' ∧ tokenize (m.print narrowStyle) = .ok ts' ∧
      Same (ts.map Token.shape) (ts'.map Token.shape) := by
  have hsource : ((parse rearrangedSource).toOption.any fun m =>
      !m.fusesWords narrowStyle && !m.hidesCode) = true := by decide +kernel
  cases hm : parse rearrangedSource with
  | error e => simp [hm, Except.toOption] at hsource
  | ok m =>
      simp only [hm, Except.toOption, Option.any_some, Bool.and_eq_true, Bool.not_eq_true'] at hsource
      obtain ⟨ts, m', ts', hts, hm', hts', hsame⟩ :=
        print_keeps_tokens hm (c := { style := narrowStyle }) (by rfl) rfl rfl rfl hsource.1 hsource.2
      exact ⟨m, ts, m', ts', rfl, hts, hm', hts', hsame⟩

end SchemaTidy
