import SchemaTidy.Proofs.Print.Chunk
import SchemaTidy.Proofs.Print.Spelled
import SchemaTidy.Proofs.Tree.Groups

/-!
# The brackets and comments of built chunks

Every bracket in the chunks of some items is that of one of their groups or holds one of their runs of
literals, which may get parentheses. The comments in the chunks are those of the tokens behind the opening brackets of the
groups, in another order, so a layout of the chunks has each of them once.
-/

namespace SchemaTidy

/-- The tokens of an item behind its opening bracket. -/
def Item.innerTokens : Item → List Token
  | .token _ => []
  | .group g => tokensOfElements g.elements ++ [g.closing]

/-- The tokens of some items behind an opening bracket, up to its closing bracket. -/
def bracketTokens (items : List Item) : List Token := items.flatMap Item.innerTokens

/-- The comments that printing takes from the trivia of tokens. -/
def printedTrivia (ts : List Token) : List Text := ts.flatMap fun t => Trivia.comments t.trivia

@[simp] theorem printedTrivia_append (ts us : List Token) :
    printedTrivia (ts ++ us) = printedTrivia ts ++ printedTrivia us :=
  List.flatMap_append

@[simp] theorem printedTrivia_cons (t : Token) (ts : List Token) :
    printedTrivia (t :: ts) = Trivia.comments t.trivia ++ printedTrivia ts := rfl

@[simp] theorem printedTrivia_nil : printedTrivia [] = [] := rfl

@[simp] theorem bracketTokens_cons (i : Item) (items : List Item) :
    bracketTokens (i :: items) = i.innerTokens ++ bracketTokens items := rfl

theorem Item.tokens_eq (i : Item) : i.tokens = i.firstToken :: i.innerTokens := by
  cases i with
  | token t => simp [Item.firstToken, Item.innerTokens]
  | group g =>
      cases g
      simp [Item.firstToken, Item.innerTokens, Group.tokens]

theorem isNote_comments (trivia : Text) : ∀ c ∈ Trivia.comments trivia, IsNote c := by
  intro c hc
  rcases List.mem_append.mp hc with hsame | hown
  · obtain ⟨hhead, hrow⟩ := Trivia.isComment_sameLine c hsame
    exact ⟨hhead, fun hmem => absurd (hrow _ hmem) (by decide)⟩
  · obtain ⟨l, hl, htext⟩ := List.mem_filterMap.mp hown
    cases l with
    | blank => cases htext
    | comment text =>
        obtain rfl := Option.some.inj htext
        obtain ⟨hhead, hnewline, -⟩ := Trivia.of_mem_lines hl
        exact ⟨hhead, hnewline⟩

theorem isNote_printedTrivia (ts : List Token) : ∀ c ∈ printedTrivia ts, IsNote c := by
  intro c hc
  obtain ⟨t, -, ht⟩ := List.mem_flatMap.mp hc
  exact isNote_comments t.trivia c ht

/-! ## Sorting -/

theorem sortRunsFrom_perm {α : Type} (key : α → Option Text) (run xs : List α) :
    (sortRunsFrom key run xs).Perm (run ++ xs) := by
  induction xs generalizing run with
  | nil =>
      rw [List.append_nil]
      exact List.mergeSort_perm ..
  | cons x xs ih =>
      rw [sortRunsFrom]
      split
      · simpa using ih (run ++ [x])
      · exact (List.mergeSort_perm ..).append ((ih []).cons x)

theorem slots_bracketOf_perm (style : Style) (spaced : Bool) (g : Group) (slots : List Slot) :
    (g.bracketOf style spaced slots).slots.Perm slots := by
  simp only [Group.bracketOf]
  split
  · exact sortRunsFrom_perm Slot.sortKey [] slots
  · exact .refl _

theorem Group.bracket_eq (style : Style) (spaced : Bool) (g : Group) : g.bracket style spaced =
    g.bracketOf style spaced (slotsOf style g.kind g.closing.trivia g.elements) := by
  cases g
  rfl

/-! ## Comments -/

theorem chunksComments_wrapLastRun (introducers : List Text) (cs : List Chunk) :
    chunksComments (wrapLastRun introducers cs) = chunksComments cs := by
  fun_induction wrapLastRun introducers cs with
  | case1 t spaced run spaced' h => rfl
  | case2 t spaced run spaced' h => rfl
  | case3 c cs h ih => rw [chunksComments, chunksComments, ih]
  | case4 => rfl

theorem chunksComments_runChunk (style : Style) (spacer : Spacer) (run : List Text)
    (cs : List Chunk) :
    chunksComments ((runChunk style spacer run).1 ++ cs) = chunksComments cs := by
  cases run <;> rfl

theorem comments_slotOf (kind : GroupKind) (following : Text) (e : Element) (chunks : List Chunk) :
    (e.slotOf kind following chunks).comments =
      Trivia.ownLineComments e.leadingTrivia ++ innerComments e.items ++ (chunksComments chunks ++
        (printedTrivia e.comma.toList ++ (Trivia.sameLineComment? following).toList)) := by
  have hchunks : chunksComments (e.slotOf kind following chunks).chunks = chunksComments chunks := by
    simp only [Element.slotOf]
    split
    · exact chunksComments_wrapLastRun _ _
    split
    · exact chunksComments_wrapLastRun _ _
    · rfl
  rw [Slot.comments_eq, hchunks]
  cases h : e.comma with
  | none => simp [Element.slotOf, h]
  | some comma => simp [Element.slotOf, h, printedTrivia]

/-- The comments of some items stand before the first one, between them and in their brackets. -/
theorem printedTrivia_items (items : List Item) :
    (printedTrivia (tokensOfItems items)).Perm
      (Trivia.comments (Element.leadingTrivia ⟨items, none⟩) ++ innerComments items ++
        printedTrivia (bracketTokens items)) := by
  have hall (is : List Item) : (printedTrivia (tokensOfItems is)).Perm
      (is.flatMap (fun i => Trivia.comments i.firstToken.trivia) ++
        printedTrivia (bracketTokens is)) := by
    induction is with
    | nil => simp [bracketTokens]
    | cons i is ih =>
        refine List.perm_iff_count.mpr fun a => ?_
        have hcount := ih.count_eq a
        simp only [tokensOfItems_cons, i.tokens_eq, printedTrivia_append, printedTrivia_cons,
          bracketTokens_cons, List.flatMap_cons, List.count_append] at hcount ⊢
        omega
  cases items with
  | nil => exact hall []
  | cons i is => exact hall (i :: is)

/-- The comments of the slots of elements, with the comment on the line of the opening bracket and
those before the closing one. -/
def SlotsCommentsPerm (closing : Text) (elements : List Element) (slots : List Slot) : Prop :=
  ((Trivia.sameLineComment? (triviaAfter closing elements)).toList ++
    (slotsComments slots ++ Trivia.ownLineComments closing)).Perm
      (printedTrivia (tokensOfElements elements) ++ Trivia.comments closing)

mutual

theorem chunksOf_comments (style : Style) : ∀ (items : List Item) (spacer : Spacer)
    (run : List Text), (chunksComments (chunksOf style spacer run items)).Perm
      (printedTrivia (bracketTokens items))
  | [], spacer, run => by
      have hrun := chunksComments_runChunk style spacer run []
      rw [List.append_nil] at hrun
      rw [chunksOf, hrun]
      exact .refl _
  | .token t :: rest, spacer, run => by
      by_cases hkind : t.kind = .string
      · rw [chunksOf_string _ _ _ _ hkind]
        exact chunksOf_comments style rest _ _
      · rw [chunksOf_word _ _ _ _ hkind, chunksComments_runChunk]
        exact chunksOf_comments style rest _ _
  | .group g :: rest, spacer, run => by
      rw [chunksOf_group, chunksComments_runChunk, bracketTokens_cons, printedTrivia_append]
      exact (bracket_comments style g _).append (chunksOf_comments style rest _ _)

theorem bracket_comments (style : Style) : ∀ (g : Group) (spaced : Bool),
    (g.bracket style spaced).comments.Perm (printedTrivia (Item.group g).innerTokens)
  | ⟨opening, elements, closing, kind, sortable⟩, spaced => by
      have hinner := slotsOf_comments style kind closing.trivia elements
      have hsorted := (slots_bracketOf_perm style spaced ⟨opening, elements, closing, kind, sortable⟩
        (slotsOf style kind closing.trivia elements)).flatMap_right Slot.comments
      rw [← slotsComments_eq_flatMap, ← slotsComments_eq_flatMap] at hsorted
      rw [Group.bracket_eq, Bracket.comments_eq]
      have hall := ((hsorted.append_right (Trivia.ownLineComments closing.trivia)).append_left
        (Trivia.sameLineComment? (triviaAfter closing.trivia elements)).toList).trans hinner
      rw [Item.innerTokens, printedTrivia_append, printedTrivia_cons, printedTrivia_nil,
        List.append_nil]
      exact hall

theorem slotsOf_comments (style : Style) (kind : GroupKind) (closing : Text) :
    ∀ elements : List Element,
      SlotsCommentsPerm closing elements (slotsOf style kind closing elements)
  | [] => .refl _
  | ⟨items, comma⟩ :: es => by
      have hitems := chunksOf_comments style items
        { group := some kind, keywordElement := (Element.mk items comma).keyword?.isSome } []
      have hrest := slotsOf_comments style kind closing es
      have hfirst := printedTrivia_items items
      refine List.perm_iff_count.mpr fun a => ?_
      have hitems := hitems.count_eq a
      have hrest := hrest.count_eq a
      have hfirst := hfirst.count_eq a
      have hlead : (Element.mk items comma).leadingTrivia = (Element.mk items none).leadingTrivia := by
        cases items <;> rfl
      simp only [slotsOf, Element.slot, slotsComments, comments_slotOf, tokensOfElements,
        Element.tokens, triviaAfter, printedTrivia_append, Trivia.comments, List.count_append,
        hlead] at hitems hrest hfirst ⊢
      omega

end

/-! ## Brackets -/

/-- A bracket made of some runs of literals and some groups: it is the bracket of one of the groups, or
holds one of the runs in parentheses that it may get. -/
def Bracket.IsBuilt (style : Style) (runs : List (List Text)) (groups : List Group) (b : Bracket) :
    Prop :=
  (∃ texts ∈ runs, ∃ spaced, b = .virtual (.ofTexts style texts) spaced) ∨
    ∃ g ∈ groups, ∃ spaced, b = g.bracket style spaced

/-- A chunk that is text or is made of some runs of literals and some groups, at every depth. -/
def Chunk.IsBuilt (style : Style) (runs : List (List Text)) (groups : List Group) : Chunk → Prop
  | .text _ _ => True
  | .strings run _ => ∃ texts ∈ runs, run = .ofTexts style texts
  | .bracket b => ∀ d ∈ b.brackets, d.IsBuilt style runs groups

section Built

variable {style : Style} {runs runs' : List (List Text)} {groups groups' : List Group}

theorem Bracket.IsBuilt.mono {b : Bracket} (h : b.IsBuilt style runs groups) (hruns : runs ⊆ runs')
    (hgroups : groups ⊆ groups') : b.IsBuilt style runs' groups' := by
  rcases h with ⟨texts, htexts, hb⟩ | ⟨g, hg, hb⟩
  · exact .inl ⟨texts, hruns htexts, hb⟩
  · exact .inr ⟨g, hgroups hg, hb⟩

theorem Chunk.IsBuilt.mono {c : Chunk} (h : c.IsBuilt style runs groups) (hruns : runs ⊆ runs')
    (hgroups : groups ⊆ groups') : c.IsBuilt style runs' groups' := by
  cases c with
  | text t spaced => trivial
  | strings run spaced =>
      obtain ⟨texts, htexts, hrun⟩ := h
      exact ⟨texts, hruns htexts, hrun⟩
  | bracket b =>
      intro d hd
      exact (h d hd).mono hruns hgroups

theorem Bracket.IsBuilt.showsComments {b : Bracket} (h : b.IsBuilt style runs groups) :
    b.ShowsComments := by
  intro hforced
  rcases h with ⟨texts, -, spaced, rfl⟩ | ⟨g, -, spaced, rfl⟩
  · simp [Bracket.hasComments, Bracket.virtual, Chunk.isForced]
  · rw [Group.bracket_eq] at hforced ⊢
    simp only [Group.bracketOf, Bool.or_eq_false_iff] at hforced
    obtain ⟨⟨⟨-, hcomments⟩, -⟩, hslots⟩ := hforced
    refine ⟨hcomments, ?_⟩
    simpa [Group.bracketOf] using hslots

theorem isBuilt_chunksBrackets {cs : List Chunk} (h : ∀ c ∈ cs, c.IsBuilt style runs groups) :
    ∀ b ∈ chunksBrackets cs, b.IsBuilt style runs groups := by
  induction cs with
  | nil => simp [chunksBrackets]
  | cons c cs ih =>
      obtain ⟨hc, hcs⟩ := List.forall_mem_cons.mp h
      rw [chunksBrackets, List.forall_mem_append]
      apply And.intro _ (ih hcs)
      cases c with
      | text t spaced => simp [Chunk.brackets]
      | strings run spaced => simp [Chunk.brackets]
      | bracket b => exact hc

theorem isBuilt_virtual {texts : List Text} (h : texts ∈ runs) (spaced : Bool) :
    (Chunk.bracket (.virtual (.ofTexts style texts) spaced)).IsBuilt style runs groups := by
  intro d hd
  have hd : d = .virtual (.ofTexts style texts) spaced := by
    simpa [Bracket.brackets_eq, Bracket.virtual, slotsBrackets, Slot.brackets_eq, chunksBrackets,
      Chunk.brackets] using hd
  exact .inl ⟨texts, h, spaced, hd⟩

theorem isBuilt_wrapLastRun (introducers : List Text) {cs : List Chunk}
    (h : ∀ c ∈ cs, c.IsBuilt style runs groups) :
    ∀ c ∈ wrapLastRun introducers cs, c.IsBuilt style runs groups := by
  fun_induction wrapLastRun introducers cs with
  | case1 t spaced run spaced' hmem =>
      obtain ⟨htext, hrun⟩ := List.forall_mem_cons.mp h
      obtain ⟨texts, htexts, rfl⟩ := hrun _ List.mem_cons_self
      rw [List.forall_mem_cons, List.forall_mem_singleton]
      exact ⟨htext, isBuilt_virtual htexts spaced'⟩
  | case2 t spaced run spaced' hmem => exact h
  | case3 c cs hne ih =>
      rw [List.forall_mem_cons] at h ⊢
      exact ⟨h.1, ih h.2⟩
  | case4 => exact h

theorem isBuilt_slotOf (kind : GroupKind) (following : Text) (e : Element) {chunks : List Chunk}
    (h : ∀ c ∈ chunks, c.IsBuilt style runs groups) :
    ∀ c ∈ (e.slotOf kind following chunks).chunks, c.IsBuilt style runs groups := by
  simp only [Element.slotOf]
  split
  · exact isBuilt_wrapLastRun _ h
  split
  · exact isBuilt_wrapLastRun _ h
  · exact h

theorem isBuilt_runChunk (spacer : Spacer) {run : List Text} (h : run ∈ runs) :
    ∀ c ∈ (runChunk style spacer run).1, c.IsBuilt style runs groups := by
  cases run with
  | nil => simp [runChunk]
  | cons x run =>
      intro c hc
      obtain rfl := List.mem_singleton.mp hc
      exact ⟨x :: run, h, rfl⟩

end Built

mutual

/-- The chunks of items are made of their runs of literals and their groups. -/
theorem chunksOf_isBuilt (style : Style) : ∀ (items : List Item) (spacer : Spacer)
    (run : List Text), ∀ c ∈ chunksOf style spacer run items,
      c.IsBuilt style (literalRunsFrom run items) (groupsOfItems items)
  | [], spacer, run => by
      rw [chunksOf]
      exact isBuilt_runChunk spacer List.mem_cons_self
  | .token t :: rest, spacer, run => by
      by_cases hkind : t.kind = .string
      · rw [chunksOf_string _ _ _ _ hkind, literalRunsFrom_string _ _ hkind]
        exact chunksOf_isBuilt style rest _ _
      · rw [chunksOf_word _ _ _ _ hkind, literalRunsFrom_word _ _ hkind, List.forall_mem_append,
          List.forall_mem_cons]
        refine ⟨isBuilt_runChunk spacer List.mem_cons_self, trivial, fun c hc => ?_⟩
        exact (chunksOf_isBuilt style rest _ _ c hc).mono (List.subset_cons_self ..) (List.Subset.refl _)
  | .group g :: rest, spacer, run => by
      rw [chunksOf_group, literalRunsFrom, groupsOfItems, List.forall_mem_append,
        List.forall_mem_cons]
      refine ⟨isBuilt_runChunk spacer List.mem_cons_self, fun d hd => ?_, fun c hc => ?_⟩
      · exact (bracket_isBuilt style g _ d hd).mono
          (fun _ htexts => List.mem_cons_of_mem _ (List.mem_append_left _ htexts))
          (List.subset_append_left ..)
      · exact (chunksOf_isBuilt style rest _ _ c hc).mono
          (fun _ htexts => List.mem_cons_of_mem _ (List.mem_append_right _ htexts))
          (List.subset_append_right ..)

theorem bracket_isBuilt (style : Style) : ∀ (g : Group) (spaced : Bool),
    ∀ b ∈ (g.bracket style spaced).brackets, b.IsBuilt style g.literalRuns g.groups
  | ⟨opening, elements, closing, kind, sortable⟩, spaced => by
      rw [Bracket.brackets_eq, List.forall_mem_cons]
      refine ⟨.inr ⟨_, List.mem_cons_self, spaced, rfl⟩, fun b hb => ?_⟩
      rw [slotsBrackets_eq_flatMap] at hb
      obtain ⟨s, hs, hb⟩ := List.mem_flatMap.mp hb
      have hmem := (slots_bracketOf_perm style spaced ⟨opening, elements, closing, kind, sortable⟩
        (slotsOf style kind closing.trivia elements)).mem_iff.mp hs
      rw [Slot.brackets_eq] at hb
      have hbuilt := slotsOf_isBuilt style kind closing.trivia elements s hmem
      exact (isBuilt_chunksBrackets hbuilt b hb).mono (List.Subset.refl _)
        (List.subset_cons_self ..)

theorem slotsOf_isBuilt (style : Style) (kind : GroupKind) (closing : Text) :
    ∀ elements : List Element, ∀ s ∈ slotsOf style kind closing elements,
      ∀ c ∈ s.chunks, c.IsBuilt style (literalRunsOf elements) (groupsOfElements elements)
  | [] => by simp [slotsOf]
  | ⟨items, comma⟩ :: es => by
      rw [slotsOf, List.forall_mem_cons]
      refine ⟨fun c hc => ?_, fun s hs c hc => ?_⟩
      · have hbuilt := isBuilt_slotOf kind _ _ (chunksOf_isBuilt style items _ []) c hc
        exact hbuilt.mono (List.subset_append_left ..) (List.subset_append_left ..)
      · have hbuilt := slotsOf_isBuilt style kind closing es s hs c hc
        exact hbuilt.mono (List.subset_append_right ..) (List.subset_append_right ..)

end

end SchemaTidy
