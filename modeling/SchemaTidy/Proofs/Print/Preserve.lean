import SchemaTidy.Print.Module
import SchemaTidy.Proofs.Tree.Spelling

/-!
# Printing that preserves the source

A tree in which no line is marked for reformatting is printed as it is spelled, and parsing marks no
line. With the spelling of trees this makes parsing lossless.
-/

namespace SchemaTidy

mutual

/-- No line of a statement is to be laid out anew. -/
def Statement.IsPlain : Statement → Prop
  | .simple line => line.reformat = false
  | .compound _ _ _ block => block.IsPlain

def Block.IsPlain : Block → Prop
  | ⟨_, body, _⟩ => BodyIsPlain body

/-- No line of some statements is to be laid out anew. -/
def BodyIsPlain : List Statement → Prop
  | [] => True
  | s :: ss => s.IsPlain ∧ BodyIsPlain ss

end

@[simp] theorem bodyIsPlain_nil : BodyIsPlain [] := by
  simp [BodyIsPlain]

theorem bodyIsPlain_append {ss ts : List Statement} (hs : BodyIsPlain ss) (ht : BodyIsPlain ts) :
    BodyIsPlain (ss ++ ts) := by
  induction ss with
  | nil => exact ht
  | cons s ss ih =>
      rw [BodyIsPlain] at hs
      rw [List.cons_append, BodyIsPlain]
      exact ⟨hs.1, ih hs.2⟩

theorem bodyIsPlain_concat {ss : List Statement} {s : Statement} (hss : BodyIsPlain ss)
    (hs : s.IsPlain) : BodyIsPlain (ss ++ [s]) := by
  apply bodyIsPlain_append hss
  rw [BodyIsPlain]
  exact ⟨hs, bodyIsPlain_nil⟩

mutual

theorem Statement.printPreserved_eq (style : Style) (lineBreak : Text) :
    (s : Statement) → s.IsPlain → s.printPreserved style lineBreak = spell s.tokens
  | .simple line, h => by
      rw [Statement.IsPlain] at h
      simp [Statement.printPreserved, Statement.tokens, h]
  | .compound _ header newline block, h => by
      rw [Statement.IsPlain] at h
      rw [Statement.printPreserved, Statement.tokens, block.printPreserved_eq style lineBreak h]
      simp

theorem Block.printPreserved_eq (style : Style) (lineBreak : Text) :
    (b : Block) → b.IsPlain → b.printPreserved style lineBreak = spell b.tokens
  | ⟨indent, body, dedent⟩, h => by
      rw [Block.IsPlain] at h
      rw [Block.printPreserved, Block.tokens, printPreservedBody_eq style lineBreak body h]
      simp

/-- Statements without a mark are printed as they are spelled. -/
theorem printPreservedBody_eq (style : Style) (lineBreak : Text) :
    (ss : List Statement) → BodyIsPlain ss →
      printPreservedBody style lineBreak ss = spell (tokensOfBody ss)
  | [], _ => by simp [printPreservedBody, tokensOfBody]
  | s :: ss, h => by
      rw [BodyIsPlain] at h
      rw [printPreservedBody, tokensOfBody, s.printPreserved_eq style lineBreak h.1,
        printPreservedBody_eq style lineBreak ss h.2, spell_append]

end

theorem print_preserve {style : Style} {m : Module} (hmode : style.mode = .preserve)
    (hm : BodyIsPlain m.body) : m.print style = m.source := by
  simp [Module.print, hmode, printPreservedBody_eq _ _ _ hm, Module.source, Module.tokens]

theorem isPlain_compoundOf {header : List Item} {newline : Token} {block : Block} {s : Statement}
    (hblock : block.IsPlain) (h : compoundOf header newline block = .ok s) : s.IsPlain := by
  unfold compoundOf at h
  split at h
  · split at h
    · split at h
      · cases h
        simpa [Statement.IsPlain] using hblock
      · cases h
    · cases h
      simpa [Statement.IsPlain] using hblock
  · cases h
    simpa [Statement.IsPlain] using hblock

namespace ParseState

def IsPlain (s : ParseState) : Prop := BodyIsPlain s.body ∧ ∀ b ∈ s.blocks, BodyIsPlain b.before

theorem isPlain_settle {s s' : ParseState} {t : Token} {used : Bool} (hs : s.IsPlain)
    (h : s.settle t = .ok (s', used)) : s'.IsPlain := by
  unfold settle at h
  split at h
  · cases h
    exact hs
  · simp only at h
    split at h
    · split at h
      · cases h
        exact ⟨bodyIsPlain_nil, by simpa using ⟨hs.1, hs.2⟩⟩
      · cases h
    split at h
    · cases h
    · cases h
      exact ⟨bodyIsPlain_concat hs.1 (by simp [Statement.IsPlain]), hs.2⟩

theorem isPlain_endLine {s s' : ParseState} {t : Token} (hs : s.IsPlain)
    (h : s.endLine t = .ok s') : s'.IsPlain := by
  unfold endLine at h
  split at h
  · cases h
  · split at h
    · cases h
    · cases h
      exact hs
  · cases h
    exact hs

theorem isPlain_endBlock {s s' : ParseState} {t : Token} (hs : s.IsPlain)
    (h : s.endBlock t = .ok s') : s'.IsPlain := by
  unfold endBlock at h
  split at h
  · cases h
  · rename_i b outer hb
    split at h
    · cases h
    · rename_i statement hstatement
      cases h
      have hbefore := hs.2 b (by simp [hb])
      have hblock : Block.IsPlain ⟨b.indent, s.body, t⟩ := by
        rw [Block.IsPlain]
        exact hs.1
      refine ⟨bodyIsPlain_concat hbefore (isPlain_compoundOf hblock hstatement), ?_⟩
      intro c hc
      exact hs.2 c (by simp [hb, hc])

theorem isPlain_feedGroup {s s' : ParseState} {g : OpenGroup} {outer : List OpenGroup} {t : Token}
    (hs : s.IsPlain) (h : s.feedGroup g outer t = .ok s') : s'.IsPlain := by
  unfold feedGroup at h
  split at h
  · split at h <;> cases h <;> exact hs
  split at h
  · cases h
  split at h
  · split at h
    · cases h
    · cases h
      exact hs
  split at h <;> cases h <;> exact hs

/-- The result of reading a token has no marked line. -/
def GivesPlain : ParseState ⊕ Module → Prop
  | .inl s => s.IsPlain
  | .inr m => BodyIsPlain m.body

theorem feedLine_givesPlain {s : ParseState} {t : Token} {r : ParseState ⊕ Module}
    (hs : s.IsPlain) (h : s.feedLine t = .ok r) : GivesPlain r := by
  have hend {r : ParseState ⊕ Module} (h : (s.endLine t).map .inl = .ok r) : GivesPlain r := by
    obtain ⟨s', hs', rfl⟩ := exists_of_map_eq_ok h
    exact isPlain_endLine hs hs'
  unfold feedLine at h
  split at h
  · exact hend h
  · split at h
    · cases h
    · exact hend h
  · split at h
    · obtain ⟨s', hs', rfl⟩ := exists_of_map_eq_ok h
      exact isPlain_endBlock hs hs'
    · exact hend h
  · split at h
    · split at h
      · cases h
        exact hs.1
      · cases h
    · exact hend h
  · split at h <;> cases h <;> exact hs

theorem feed_givesPlain {s : ParseState} {t : Token} {r : ParseState ⊕ Module} (hs : s.IsPlain)
    (h : s.feed t = .ok r) : GivesPlain r := by
  unfold feed at h
  split at h
  · obtain ⟨s', hs', rfl⟩ := exists_of_map_eq_ok h
    exact isPlain_feedGroup hs hs'
  · split at h
    · cases h
    · rename_i hsettle
      cases h
      exact isPlain_settle hs hsettle
    · rename_i hsettle
      exact feedLine_givesPlain (isPlain_settle hs hsettle) h

theorem feedAll_isPlain {s : ParseState} {ts : List Token} {m : Module} (hs : s.IsPlain)
    (h : s.feedAll ts = .ok m) : BodyIsPlain m.body := by
  induction ts generalizing s with
  | nil => cases h
  | cons t ts ih =>
      rw [feedAll] at h
      split at h
      · cases h
      · rename_i hfeed
        exact ih (feed_givesPlain hs hfeed) h
      · rename_i hfeed
        cases h
        exact feed_givesPlain hs hfeed

end ParseState

theorem bodyIsPlain_parse {source : Text} {m : Module} (h : parse source = .ok m) :
    BodyIsPlain m.body := by
  unfold parse at h
  split at h
  · cases h
  · exact ParseState.feedAll_isPlain ⟨bodyIsPlain_nil, by simp [ParseState.empty]⟩ h

/-- Parsing is lossless: the tree of a source spells the source, and so does its print in every style
that preserves. -/
theorem parse_lossless {source : Text} {m : Module} (h : parse source = .ok m) :
    m.source = source ∧ ∀ style : Style, style.mode = .preserve → m.print style = source := by
  have hsource := source_parse h
  refine ⟨hsource, ?_⟩
  intro style hmode
  rw [print_preserve hmode (bodyIsPlain_parse h), hsource]

/-- A source with a continuation, mixed line ends, a formatted string, a comment that moves onto a
closing marker and no line end at the end of the file. -/
def lossyLookingSource : Text :=
  "class A(B):\r\n  x = f'\x7ba!r:>\x7bn\x7d\x7d' \\\n + [1,\r 2 , ]\n  # tail\n\n# top\ny = (lambda: 0)".toList

theorem parse_lossless_lossyLookingSource :
    ∃ m, parse lossyLookingSource = .ok m ∧ m.source = lossyLookingSource ∧
      m.print { mode := .preserve } = lossyLookingSource := by
  have hparses : (parse lossyLookingSource).isOk = true := by decide +kernel
  cases hm : parse lossyLookingSource with
  | error e => simp [hm, Except.isOk, Except.toBool] at hparses
  | ok m =>
      obtain ⟨hsource, hprint⟩ := parse_lossless hm
      exact ⟨m, rfl, hsource, hprint _ rfl⟩

end SchemaTidy
