import Mathlib.Data.List.Basic
import SchemaTidy.Proofs.Print.SortRuns
import SchemaTidy.Proofs.Tree.Spelling
import SchemaTidy.Tree.Path

/-!
# What a printed line holds

However a logical line is laid out, its physical lines hold the texts of its chunks in order, and a
comma is added or dropped only where it has no meaning. Every comment in its brackets is printed
once, with nothing but comments behind it.
-/

namespace SchemaTidy

/-! ## Code -/

/-- Whether literals that may get parentheses may be laid out as words. -/
def StringRun.SpellsWrapped (run : StringRun) (ws : List Text) : Prop :=
  ws = run.flatPieces ∨ ∃ us, run.Spells us ∧ ws = ['('] :: (us ++ [[')']])

namespace Group

/-- The slots of the elements of a group, in the order in which the elements are printed. -/
def printedSlots (style : Style) (g : Group) : List Slot :=
  (g.printOrder style).map fun p => p.1.slot style g.kind p.2

/-- A group in parentheses or a subscript with one element, which a comma makes a tuple. -/
def IsOneTuple (g : Group) : Prop :=
  g.elements.length = 1 ∧ (g.kind = .paren ∨ g.kind = .subscript)

/-- A group of one element in which a word `for` stands behind the first item. -/
def IsComprehension (g : Group) : Prop :=
  ∃ e, g.elements = [e] ∧ ∃ i ∈ e.items.drop 1, i.isName "for" = true

/-- Whether a comma, or none, may stand behind the last element of an exploded group. One is added only
to a group that is not empty, no comprehension and would not become a tuple. That of a tuple of one
element stays. -/
def MayEndWith (g : Group) (comma : Bool) : Prop :=
  (comma = true → g.hasTrailingComma = false →
    g.elements ≠ [] ∧ ¬ g.IsComprehension ∧ ¬ g.IsOneTuple) ∧
  (g.IsOneTuple → g.hasTrailingComma = true → comma = true)

/-- Whether a group may be laid out as words: its elements with commas between them, in its brackets. On
one line the last element has a comma only if it makes a tuple. -/
def Spells (style : Style) (g : Group) (ws : List Text) : Prop :=
  (∃ comma, (comma = true ↔ g.IsOneTuple ∧ g.hasTrailingComma = true) ∧
    ws = g.opening.text ::
      (slotsFlatWords (g.printedSlots style) ++ commaWord comma ++ [g.closing.text])) ∨
  ∃ comma us, g.MayEndWith comma ∧ SlotsSpell comma (g.printedSlots style) us ∧
    ws = g.opening.text :: (us ++ [g.closing.text])

theorem isTupleLike_iff {g : Group} : g.isTupleLike = true ↔ g.IsOneTuple := by
  simp [isTupleLike, IsOneTuple]

theorem isComprehension_iff {g : Group} : g.isComprehension = true ↔ g.IsComprehension := by
  unfold isComprehension IsComprehension
  split
  · rename_i e helements
    simp [helements]
  · rename_i hmany
    apply iff_of_false Bool.false_ne_true
    intro hone
    obtain ⟨e, helements, -⟩ := hone
    exact hmany e helements

theorem mayEndWith_exploded (style : Style) (g : Group) :
    g.MayEndWith (g.commaWhenExploded style) := by
  rw [MayEndWith, ← isTupleLike_iff, ← isComprehension_iff, Bool.not_eq_true, Bool.not_eq_true]
  unfold commaWhenExploded
  split
  · -- Such a group ends as it did.
    constructor
    · intro hcomma hnone
      simp [hnone] at hcomma
    · intro _ hcomma
      exact hcomma
  · rename_i hplain
    obtain ⟨htuple, hcomprehension⟩ : g.isTupleLike = false ∧ g.isComprehension = false := by
      simpa using hplain
    rw [htuple, hcomprehension]
    constructor
    · intro hcomma hnone
      have helements : g.elements ≠ [] := by
        split at hcomma
        · simpa using hcomma
        · simp [hnone] at hcomma
      exact ⟨helements, rfl, rfl⟩
    · intro htrue
      cases htrue

/-- The bracket of a group keeps its elements, and the commas between them. -/
theorem spells_of_bracket {style : Style} {spaced : Bool} {g : Group} {ws : List Text}
    (h : (g.bracket style spaced).Spells ws) : g.Spells style ws := by
  have hslots : (g.bracket style spaced).slots = g.printedSlots style :=
    g.slots_bracket style spaced
  rw [Bracket.spells_iff, Bracket.flatWords_eq, isVirtual_bracket, hslots, bracket_eq] at h
  rcases h with rfl | ⟨us, hus, rfl⟩
  · refine .inl ⟨g.isTupleLike && g.hasTrailingComma, ?_, rfl⟩
    rw [Bool.and_eq_true, isTupleLike_iff]
  · exact .inr ⟨_, us, g.mayEndWith_exploded style, hus, rfl⟩

end Group

theorem spells_virtual {run : StringRun} {spaced : Bool} {ws : List Text}
    (h : (Bracket.virtual run spaced).Spells ws) : run.SpellsWrapped ws := by
  rcases (Bracket.spells_iff _ _).mp h with rfl | ⟨us, hus, rfl⟩
  · left
    simp [Bracket.flatWords_eq, Bracket.virtual, slotsFlatWords, Slot.flatWords_eq, commaWord,
      chunksFlatWords, Chunk.flatWords]
  · obtain ⟨_, _, hslot, rfl, rfl⟩ := hus
    obtain ⟨ps, _, hps, rfl, rfl⟩ := (Slot.spells_iff _ _).mp hslot
    refine .inr ⟨ps, hps, ?_⟩
    simp [Bracket.virtual, commaWord]

/-- Layout keeps the code: the lines of chunks built from any items hold the texts of the chunks in
order and the ending. Every bracket in the chunks is that of a group of the items or holds a run of their
literals, which may get parentheses. The bracket of a group holds its elements with single commas between
them. A comma may be added behind the last one; a comma with a meaning is neither added nor dropped. -/
theorem layout_keeps_code (style : Style) (introducers : List Text) (spacer : Spacer)
    (run : List Text) (items : List Item) (indent ending : Text) (inBrackets : Bool) :
    let chunks := wrapLastRun introducers (chunksOf style spacer run items)
    (∃ ws cs, ChunksSpell chunks ws ∧
      LinesSpell indent (layout style indent ending inBrackets chunks) (ws ++ wordOf ending) cs) ∧
    (∀ b ∈ chunksBrackets chunks,
      (∃ texts ∈ literalRunsFrom run items, ∃ spaced, b = .virtual (.ofTexts style texts) spaced) ∨
        ∃ g ∈ groupsOfItems items, ∃ spaced, b = g.bracket style spaced) ∧
    (∀ texts ∈ literalRunsFrom run items, ∀ spaced ws,
      (Bracket.virtual (.ofTexts style texts) spaced).Spells ws →
        (StringRun.ofTexts style texts).SpellsWrapped ws) ∧
    ∀ g ∈ groupsOfItems items, ∀ spaced ws,
      (g.bracket style spaced).Spells ws → g.Spells style ws := by
  intro chunks
  have hbuilt : ∀ b ∈ chunksBrackets chunks,
      b.IsBuilt style (literalRunsFrom run items) (groupsOfItems items) :=
    isBuilt_chunksBrackets (isBuilt_wrapLastRun introducers (chunksOf_isBuilt style items spacer run))
  have hnotes : ∀ c ∈ chunksComments chunks, IsNote c := by
    rw [chunksComments_wrapLastRun]
    intro c hc
    exact isNote_printedTrivia _ c ((chunksOf_comments style items spacer run).mem_iff.mp hc)
  obtain ⟨ws, hws, hlines⟩ := layout_spells style indent ending inBrackets chunks
    (fun b hb => (hbuilt b hb).showsComments) hnotes
  exact ⟨⟨ws, _, hws, hlines.toLines⟩, hbuilt, fun _ _ _ _ hspells => spells_virtual hspells,
    fun _ _ _ _ hspells => Group.spells_of_bracket hspells⟩

/-! ## Comments -/

namespace Text

/-- Whether a text holds a carriage return without a line feed behind it. -/
def hasLoneReturn : Text → Bool
  | [] => false
  | c :: cs => (c == '\r' && cs.head? != some '\n') || hasLoneReturn cs

theorem head?_behind_return {t a b : Text} (h : hasLoneReturn t = false) (ht : t = a ++ '\r' :: b) :
    b.head? = some '\n' := by
  subst ht
  induction a with
  | nil =>
      rw [List.nil_append, hasLoneReturn] at h
      simpa using (Bool.or_eq_false_iff.mp h).1
  | cons c a ih =>
      rw [List.cons_append, hasLoneReturn] at h
      exact ih (Bool.or_eq_false_iff.mp h).2

theorem trimEnd_isPrefix (p : Char → Bool) (t : Text) : trimEnd p t <+: t := by
  rw [trimEnd, ← List.reverse_suffix, List.reverse_reverse]
  exact List.dropWhile_suffix p

theorem trim_isInfix (p : Char → Bool) (t : Text) : trim p t <:+: t :=
  (trimEnd_isPrefix p _).isInfix.trans (List.dropWhile_suffix p).isInfix

theorem isInfix_of_mem_splitAfter {stop : Char → Bool} {t l : Text} (h : l ∈ splitAfter stop t) :
    l <:+: t := by
  have hflat := flatten_splitAfter stop t
  obtain ⟨before, after, hsplit⟩ := List.append_of_mem h
  rw [hsplit] at hflat
  exact ⟨before.flatten, after.flatten, by simpa using hflat⟩

end Text

namespace Trivia

theorem comment?_isInfix {fragment c : Text} (h : comment? fragment = some c) : c <:+: fragment := by
  unfold comment? at h
  split at h
  · obtain rfl := Option.some.inj h
    exact (Text.trimEnd_isPrefix _ _).isInfix.trans (List.dropWhile_suffix _).isInfix
  · cases h

theorem splitSameLine_isInfix (t : Text) : (splitSameLine t).1 <:+: t ∧ (splitSameLine t).2 <:+: t := by
  simp only [splitSameLine]
  split
  · exact ⟨(List.takeWhile_prefix _).isInfix, (List.dropWhile_suffix _).isInfix⟩
  · exact ⟨List.nil_infix, List.infix_rfl⟩

theorem comments_isInfix {t c : Text} (h : c ∈ comments t) :
    c <:+: t ∧ ∀ d, c.getLast? = some d → Text.isBlank d = false := by
  rcases List.mem_append.mp h with h | h
  · have hc : comment? (splitSameLine t).1 = some c := by simpa [sameLineComment?] using h
    exact ⟨(comment?_isInfix hc).trans (splitSameLine_isInfix t).1, getLast?_comment? hc⟩
  · obtain ⟨line, hline, htext⟩ := List.mem_filterMap.mp h
    cases line with
    | blank => cases htext
    | comment text =>
        obtain rfl := Option.some.inj htext
        refine ⟨?_, (of_mem_lines hline).2.2⟩
        obtain ⟨l, hl, hcomment⟩ := List.mem_filterMap.mp hline
        unfold line? at hcomment
        simp only at hcomment
        split at hcomment
        · rename_i text' hfragment
          obtain rfl : text' = text := by simpa using hcomment
          exact (comment?_isInfix hfragment).trans ((Text.trim_isInfix _ l).trans
            ((Text.isInfix_of_mem_splitAfter hl).trans (splitSameLine_isInfix t).2))
        · split at hcomment <;> simp at hcomment

variable {source t : Text}

theorem isComment_comments (hreturn : Text.hasLoneReturn source = false) (ht : t <:+: source) :
    ∀ c ∈ comments t, IsComment c := by
  intro c hc
  obtain ⟨hhead, hnewline⟩ := isNote_comments t c hc
  obtain ⟨hpart, hlast⟩ := comments_isInfix hc
  refine ⟨hhead, fun d hd => ?_⟩
  have hreturn : '\r' ∉ c := by
    intro hmem
    obtain ⟨a, b, rfl⟩ := List.append_of_mem hmem
    obtain ⟨x, y, hsource⟩ := hpart.trans ht
    have hnext := Text.head?_behind_return (a := x ++ a) (b := b ++ y) hreturn (by simp [← hsource])
    cases b with
    | nil =>
        have := hlast '\r' (by simp)
        simp [Text.isBlank] at this
    | cons e b =>
        obtain rfl : e = '\n' := by simpa using hnext
        simp at hnewline
  have hne : d ≠ '\n' ∧ d ≠ '\r' := ⟨fun h => hnewline (h ▸ hd), fun h => hreturn (h ▸ hd)⟩
  simp [Text.isLineBreak, hne]

theorem physicalComments_comment {c : Text} (hc : IsComment c)
    (hlast : ∀ d, c.getLast? = some d → Text.isBlank d = false) : physicalComments c = [c] := by
  obtain ⟨hhead, hrow⟩ := hc
  obtain ⟨cs, rfl⟩ : ∃ cs, c = '#' :: cs := by
    cases c with
    | nil => cases hhead
    | cons d cs => exact ⟨cs, by simpa using hhead⟩
  have htrim : Text.trimEnd Text.isBlank ('#' :: cs) = '#' :: cs := by
    rw [Text.trimEnd, List.reverse_eq_iff]
    cases hrev : ('#' :: cs).reverse with
    | nil => rfl
    | cons d ds =>
        have hd := hlast d (by rw [← List.head?_reverse, hrev]; rfl)
        exact List.dropWhile_cons_of_neg (by simp [hd])
  rw [physicalComments_row hrow, comment?]
  simp [htrim]

/-- In a source without lone carriage returns printing takes the comments of the physical lines. -/
theorem comments_eq_physicalComments (hreturn : Text.hasLoneReturn source = false)
    (ht : t <:+: source) : comments t = physicalComments t := by
  have hsame : ∀ c ∈ comments t, physicalComments c = [c] := fun c hc =>
    physicalComments_comment (isComment_comments hreturn ht c hc) (comments_isInfix hc).2
  rw [← flatMap_comments t]
  rw [List.flatMap_congr hsame]
  simp

end Trivia

/-! ### Tokens of a line -/

theorem mem_tokensOfBody {body : List Statement} {s : Statement} (hs : s ∈ body) {t : Token}
    (ht : t ∈ s.tokens) : t ∈ tokensOfBody body := by
  induction body with
  | nil => cases hs
  | cons r body ih =>
      rw [tokensOfBody, List.mem_append]
      rcases List.mem_cons.mp hs with rfl | hs
      · exact .inl ht
      · exact .inr (ih hs)

theorem mem_tokens_of_statementAt? {body : List Statement} {path : StatementPath} {s : Statement}
    (hs : statementAt? body path = some s) : ∀ t ∈ s.tokens, t ∈ tokensOfBody body := by
  fun_induction statementAt? body path with
  | case1 ss => cases hs
  | case2 ss i => exact fun t ht => mem_tokensOfBody (List.mem_of_getElem? hs) ht
  | case3 ss i j rest r hr b hb ih =>
      intro t ht
      refine mem_tokensOfBody (List.mem_of_getElem? hr) ?_
      have hbelow := ih hs t ht
      cases r with
      | simple line => cases hb
      | compound signature header newline block =>
          obtain rfl : block = b := by simpa [Statement.block?] using hb
          cases block
          simp [Statement.tokens, Block.tokens, hbelow]
  | case4 ss i j rest r hr hb => cases hs
  | case5 ss i j rest hr => cases hs

theorem mem_tokens_of_items {s : Statement} : ∀ t ∈ tokensOfItems s.items, t ∈ s.tokens := by
  intro t ht
  cases s with
  | simple line =>
      have ht : t ∈ tokensOfItems line.items := ht
      simp [Statement.tokens, Line.tokens, ht]
  | compound signature header newline block =>
      have ht : t ∈ tokensOfItems header := ht
      simp [Statement.tokens, ht]

theorem trivia_isInfix_of_parse {source : Text} {m : Module} (h : parse source = .ok m) :
    ∀ t ∈ m.tokens, t.trivia <:+: source := by
  intro t ht
  have hsource := source_parse h
  rw [Module.source] at hsource
  obtain ⟨before, after, hsplit⟩ := List.append_of_mem ht
  rw [hsplit] at hsource
  refine ⟨spell before, t.text ++ spell after, ?_⟩
  simpa [spell, Token.source] using hsource

theorem mem_tokens_of_bracketTokens {items : List Item} :
    ∀ t ∈ bracketTokens items, t ∈ tokensOfItems items := by
  induction items with
  | nil => simp [bracketTokens]
  | cons i items ih =>
      intro t ht
      rw [tokensOfItems_cons, i.tokens_eq]
      rw [bracketTokens_cons] at ht
      rcases List.mem_append.mp ht with ht | ht
      · simp [ht]
      · simp [ih t ht]

theorem innerComments_eq_printedTrivia (items : List Item) :
    innerComments items = printedTrivia (items.tail.map Item.firstToken) := by
  rw [innerComments, printedTrivia, List.flatMap_map]

theorem printedTrivia_eq_commentsOf {source : Text} (hreturn : Text.hasLoneReturn source = false)
    {ts : List Token} (hts : ∀ t ∈ ts, t.trivia <:+: source) :
    printedTrivia ts = commentsOf ts ∧ ∀ c ∈ printedTrivia ts, IsComment c := by
  refine ⟨List.flatMap_congr fun t ht => Trivia.comments_eq_physicalComments hreturn (hts t ht), ?_⟩
  intro c hc
  obtain ⟨t, ht, hc⟩ := List.mem_flatMap.mp hc
  exact Trivia.isComment_comments hreturn (hts t ht) c hc

/-- A printed line has the words of its chunks and the comments in them, those between its items and
that before its newline. -/
theorem printLine_spells (style : Style) (indent : Text) (items : List Item) (newline : Token) :
    ∃ ws, ChunksSpell (lineChunks style items) ws ∧
      LinesSpell indent (printLine style indent items newline) ws
        (innerComments items ++ chunksComments (lineChunks style items) ++
          (Trivia.sameLineComment? newline.trivia).toList) := by
  have hbuilt : ∀ b ∈ chunksBrackets (lineChunks style items),
      b.IsBuilt style (literalRunsFrom [] items) (groupsOfItems items) :=
    isBuilt_chunksBrackets (isBuilt_wrapLastRun _ (chunksOf_isBuilt style items _ []))
  have hinner : ∀ c ∈ innerComments items, IsNote c := by
    intro c hc
    obtain ⟨i, -, hi⟩ := List.mem_flatMap.mp hc
    exact isNote_comments _ c hi
  have hnotes : ∀ c ∈ chunksComments (lineChunks style items), IsNote c := by
    rw [lineChunks, chunksComments_wrapLastRun]
    intro c hc
    exact isNote_printedTrivia _ c ((chunksOf_comments style items _ []).mem_iff.mp hc)
  have hnewline : ∀ c ∈ (Trivia.sameLineComment? newline.trivia).toList, IsNote c := fun c hc =>
    isNote_comments newline.trivia c (List.mem_append_left _ hc)
  obtain ⟨ws, hws, hlines⟩ := layout_spells style indent [] false (lineChunks style items)
    (fun b hb => (hbuilt b hb).showsComments) hnotes
  have habove : LinesSpell indent ((innerComments items).map (indent ++ ·)) []
      (innerComments items) := by
    have hrows : LinesSpell indent
        ((innerComments items).map (indent ++ List.replicate 0 ' ' ++ ·)) []
        (innerComments items) := .comments 0 hinner
    simpa using hrows
  have hall := (hlines.append habove).withComments hnewline
  exact ⟨ws, hws, by simpa [wordOf, printLine] using hall⟩

/-- Every comment in the brackets of a line is printed once. It ends its physical line or has only
comments behind it there. The line has no other comments than those, the comments between its items
and that before its newline. -/
theorem printLine_comments {source : Text} {m : Module} (h : parse source = .ok m)
    (hreturn : Text.hasLoneReturn source = false) {path : StatementPath} {s : Statement}
    (hs : m.statement? path = some s) (style : Style) (indent : Text) :
    ∃ ws cs, LinesSpell indent (printLine style indent s.items s.newline) ws cs ∧
      ChunksSpell (lineChunks style s.items) ws ∧
      cs.Perm (commentsOf (bracketTokens s.items) ++
        (commentsOf (s.items.tail.map Item.firstToken) ++
          (Trivia.sameLineComment? s.newline.trivia).toList)) ∧
      ∀ c ∈ cs, IsComment c := by
  have hpart : ∀ t ∈ tokensOfItems s.items, t.trivia <:+: source := by
    intro t ht
    apply trivia_isInfix_of_parse h t
    exact List.mem_append_left _ (mem_tokens_of_statementAt? hs t (mem_tokens_of_items t ht))
  have hbrackets : ∀ t ∈ bracketTokens s.items, t.trivia <:+: source := by
    intro t ht
    exact hpart t (mem_tokens_of_bracketTokens t ht)
  obtain ⟨hbracket, hbracketComment⟩ := printedTrivia_eq_commentsOf hreturn hbrackets
  have hfirst : ∀ t ∈ s.items.tail.map Item.firstToken, t.trivia <:+: source := by
    intro t ht
    obtain ⟨i, hi, rfl⟩ := List.mem_map.mp ht
    exact hpart _ (firstToken_mem_tokensOfItems (List.mem_of_mem_tail hi))
  obtain ⟨hinner, hinnerComment⟩ := printedTrivia_eq_commentsOf hreturn hfirst
  rw [← innerComments_eq_printedTrivia] at hinner hinnerComment
  have hchunks : (chunksComments (lineChunks style s.items)).Perm
      (printedTrivia (bracketTokens s.items)) := by
    rw [lineChunks, chunksComments_wrapLastRun]
    exact chunksOf_comments style s.items _ []
  obtain ⟨ws, hws, hlines⟩ := printLine_spells style indent s.items s.newline
  refine ⟨ws, _, hlines, hws, ?_, ?_⟩
  · rw [← hinner, ← hbracket]
    refine List.perm_iff_count.mpr fun a => ?_
    have hcount := hchunks.count_eq a
    simp only [List.count_append] at hcount ⊢
    omega
  · intro c hc
    simp only [List.mem_append] at hc
    rcases hc with (hc | hc) | hc
    · exact hinnerComment c hc
    · exact hbracketComment c (hchunks.mem_iff.mp hc)
    · exact Trivia.isComment_sameLine c hc

/-- A call with comments behind brackets and commas, before an operator, on lines of their own, in a
nested list and behind its end. -/
def commentedCall : Text :=
  "f(  # a\n  [1,  # b\n   # c\n   2],\n  x  # d\n  .y,  # e\n  # f\n)  # g\n".toList

theorem printLine_comments_commentedCall :
    ∃ m s, parse commentedCall = .ok m ∧ m.statement? [0] = some s ∧
      ∃ ws cs, LinesSpell [] (printLine {} [] s.items s.newline) ws cs ∧
        cs.Perm (["# a", "# b", "# c", "# d", "# e", "# f", "# g"].map String.toList) := by
  have hsource : ((parse commentedCall).toOption.any fun m => (m.statement? [0]).any fun s =>
      commentsOf (bracketTokens s.items) ++ (commentsOf (s.items.tail.map Item.firstToken) ++
        (Trivia.sameLineComment? s.newline.trivia).toList) ==
      ["# a", "# b", "# c", "# d", "# e", "# f", "# g"].map String.toList) = true := by
    decide +kernel
  cases hm : parse commentedCall with
  | error e => simp [hm, Except.toOption] at hsource
  | ok m =>
      cases hs : m.statement? [0] with
      | none => simp [hm, hs, Except.toOption] at hsource
      | some s =>
          simp only [hm, hs, Except.toOption, Option.any_some, beq_iff_eq] at hsource
          obtain ⟨ws, cs, hlines, -, hperm, -⟩ :=
            printLine_comments hm (by decide) hs {} []
          exact ⟨m, s, rfl, hs, ws, cs, hlines, hsource ▸ hperm⟩

end SchemaTidy
