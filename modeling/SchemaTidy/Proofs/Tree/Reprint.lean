import SchemaTidy.Proofs.Tree.WellFormed

/-!
# Prints of a tree

The token sequences that a print of a tree may have: the last element of a group may end with a comma
or not, and literals at the end of a line or of an element may stand in parentheses. Each of them is
the same as the token sequence of the tree up to such commas and parentheses.
-/

namespace SchemaTidy

namespace Shape

def comma : Shape := (.op, [','])

def openingParen : Shape := (.op, ['('])

def closingParen : Shape := (.op, [')'])

def closes (u : Shape) : Bool :=
  u.1 == .op && (u.2 == [')'] || u.2 == [']'] || u.2 == ['}'])

end Shape

/-- Token sequences that are the same up to a comma directly before a closing bracket and
parentheses that the second puts around string literals. -/
inductive Same : List Shape → List Shape → Prop where
  | nil : Same [] []
  | cons (u : Shape) {us vs : List Shape} : Same us vs → Same (u :: us) (u :: vs)
  | addComma {u : Shape} {us vs : List Shape} :
      u.closes = true → Same us vs → Same (u :: us) (.comma :: u :: vs)
  | dropComma {u : Shape} {us vs : List Shape} :
      u.closes = true → Same us vs → Same (.comma :: u :: us) (u :: vs)
  | wrap {run us vs : List Shape} : run ≠ [] → (∀ u ∈ run, u.1 = .string) → Same us vs →
      Same (run ++ us) (.openingParen :: (run ++ .closingParen :: vs))

def IsLiteralRun (items : List Item) : Prop := ∀ i ∈ items, ∃ t, i = .token t ∧ t.kind = .string

def shapesOf (items : List Item) : List Shape := (tokensOfItems items).map Token.shape

mutual

/-- A token sequence that a print of an item may have. -/
def Item.Prints : Item → List Shape → Prop
  | .token t, us => us = [t.shape]
  | .group g, us => g.Prints us

/-- A token sequence that a print of a group may have. -/
def Group.Prints : Group → List Shape → Prop
  | ⟨opening, elements, closing, _, _⟩, us =>
      ∃ vs, ElementsPrint elements vs ∧ us = opening.shape :: (vs ++ [closing.shape])

/-- A token sequence that a print of elements may have. The comma of the last one is free. -/
def ElementsPrint : List Element → List Shape → Prop
  | [], us => us = []
  | e :: es, us => ∃ vs ws, e.Prints vs ∧ us = vs ++ ws ∧
      ((es = [] ∧ (ws = [] ∨ ws = [.comma])) ∨
        (es ≠ [] ∧ ∃ ws', ElementsPrint es ws' ∧ ws = .comma :: ws'))

/-- A token sequence that a print of an element may have, without the comma. -/
def Element.Prints : Element → List Shape → Prop
  | ⟨items, _⟩, us => ItemsPrint items us

/-- A token sequence that a print of items may have. Literals at the end may stand in parentheses. -/
def ItemsPrint : List Item → List Shape → Prop
  | [], us => us = []
  | i :: is, us =>
      (∃ vs ws, i.Prints vs ∧ ItemsPrint is ws ∧ us = vs ++ ws) ∨
        (IsLiteralRun (i :: is) ∧ us = .openingParen :: (shapesOf (i :: is) ++ [.closingParen]))

end

mutual

/-- A token sequence that a print of a statement may have. -/
def Statement.Prints : Statement → List Shape → Prop
  | .simple line, us => ∃ vs, ItemsPrint line.items vs ∧ us = vs ++ [(.newline, [])]
  | .compound _ header _ block, us =>
      ∃ vs ws, ItemsPrint header vs ∧ block.Prints ws ∧ us = vs ++ (.newline, []) :: ws

/-- A token sequence that a print of a block may have. -/
def Block.Prints : Block → List Shape → Prop
  | ⟨_, body, _⟩, us => ∃ vs, BodyPrints body vs ∧ us = (.indent, []) :: (vs ++ [(.dedent, [])])

/-- A token sequence that a print of statements may have. -/
def BodyPrints : List Statement → List Shape → Prop
  | [], us => us = []
  | s :: ss, us => ∃ vs ws, s.Prints vs ∧ BodyPrints ss ws ∧ us = vs ++ ws

end

/-! ## A print is the same up to commas and parentheses -/

theorem shapesOf_literalRun {items : List Item} (h : IsLiteralRun items) :
    ∀ u ∈ shapesOf items, u.1 = .string := by
  intro u hu
  obtain ⟨t, ht, rfl⟩ := List.mem_map.mp hu
  clear hu
  induction items with
  | nil => simp at ht
  | cons i is ih =>
      rw [tokensOfItems_cons] at ht
      rcases List.mem_append.mp ht with ht | ht
      · obtain ⟨v, rfl, hv⟩ := h i (by simp)
        obtain rfl : t = v := by simpa using ht
        exact hv
      · exact ih (fun j hj => h j (by simp [hj])) ht

theorem MatchingBrackets.closes {opening closing : Token} (h : MatchingBrackets opening closing) :
    closing.shape.closes = true := by
  obtain ⟨-, hkind, c, hc, -, htext⟩ := h
  rcases hc with rfl | rfl | rfl <;>
    simp [Token.shape, Shape.closes, hkind, htext, TokenKind.isWord, Cursor.matching]

theorem shape_of_separates {s : Scope} {t : Token} (h : s.separates t = true) :
    t.shape = .comma := by
  simp only [Scope.separates, Token.isOp, Bool.and_eq_true, beq_iff_eq] at h
  simp [Token.shape, Shape.comma, h.1.1.1, h.1.1.2, TokenKind.isWord]

mutual

theorem same_item : ∀ {i : Item} {us vs ws : List Shape}, i.WellFormed → i.Prints us →
    Same vs ws → Same (i.tokens.map Token.shape ++ vs) (us ++ ws)
  | .token t, us, vs, ws, _, hus, h => by
      rw [Item.Prints] at hus
      rw [hus, tokens_token]
      exact .cons _ h
  | .group g, us, vs, ws, hg, hus, h => by
      rw [tokens_group]
      exact same_group hg hus h

theorem same_group : ∀ {g : Group} {us vs ws : List Shape}, g.WellFormed → g.Prints us →
    Same vs ws → Same (g.tokens.map Token.shape ++ vs) (us ++ ws)
  | ⟨opening, elements, closing, kind, sortable⟩, us, vs, ws, hg, hus, h => by
      obtain ⟨hbrackets, helements, -⟩ := hg
      obtain ⟨es, hes, rfl⟩ := hus
      have hinner := same_elements helements hes hbrackets.closes h
      simpa [Group.tokens] using Same.cons opening.shape hinner

theorem same_elements : ∀ {s : Scope} {es : List Element} {us vs ws : List Shape} {u : Shape},
    ElementsWellFormed s es → ElementsPrint es us → u.closes = true → Same vs ws →
    Same ((tokensOfElements es).map Token.shape ++ u :: vs) (us ++ u :: ws)
  | s, [], us, vs, ws, u, _, hus, _, h => by
      rw [ElementsPrint] at hus
      rw [hus]
      simpa [tokensOfElements] using Same.cons u h
  | s, ⟨items, comma⟩ :: es, us, vs, ws, u, hes, hus, hu, h => by
      obtain ⟨⟨-, -, hitems⟩, hcomma⟩ := hes
      obtain ⟨xs, ys, hxs, rfl, hys⟩ := hus
      rw [Element.Prints] at hxs
      rw [tokensOfElements, Element.tokens, List.map_append, List.map_append, List.append_assoc,
        List.append_assoc, List.append_assoc]
      refine same_items hitems hxs ?_
      rcases hys with ⟨rfl, hys⟩ | ⟨hne, zs, hzs, rfl⟩
      · cases comma with
        | none =>
            rcases hys with rfl | rfl
            · simpa [tokensOfElements] using Same.cons u h
            · simpa [tokensOfElements] using Same.addComma hu h
        | some c =>
            have hc := shape_of_separates hcomma.1
            rcases hys with rfl | rfl
            · simpa [tokensOfElements, hc] using Same.dropComma hu h
            · simpa [tokensOfElements, hc] using Same.cons Shape.comma (Same.cons u h)
      · cases comma with
        | none => exact absurd hcomma hne
        | some c =>
            have hc := shape_of_separates hcomma.1
            have hrest := same_elements hcomma.2 hzs hu h
            simpa [hc] using Same.cons Shape.comma hrest

theorem same_items : ∀ {is : List Item} {us vs ws : List Shape}, ItemsWellFormed is →
    ItemsPrint is us → Same vs ws → Same (shapesOf is ++ vs) (us ++ ws)
  | [], us, vs, ws, _, hus, h => by
      rw [ItemsPrint] at hus
      rw [hus]
      simpa [shapesOf] using h
  | i :: is, us, vs, ws, his, hus, h => by
      rcases hus with ⟨xs, ys, hxs, hys, rfl⟩ | ⟨hrun, rfl⟩
      · rw [shapesOf, tokensOfItems_cons, List.map_append, List.append_assoc, List.append_assoc]
        exact same_item his.1 hxs (same_items his.2 hys h)
      · have hne : shapesOf (i :: is) ≠ [] := by
          obtain ⟨t, rfl, -⟩ := hrun i (by simp)
          simp [shapesOf]
        simpa using Same.wrap hne (shapesOf_literalRun hrun) h

end

theorem Token.IsLineEnd.shape {t : Token} (h : t.IsLineEnd) : t.shape = (.newline, []) := by
  simp [Token.shape, h.1, TokenKind.isWord]

theorem itemsWellFormed_relabelHeader {items : List Item} (h : ItemsWellFormed items) :
    ItemsWellFormed (relabelHeader items) := by
  unfold relabelHeader
  split
  · split
    · rename_i g _ _
      obtain ⟨opening, elements, closing, kind, sortable⟩ := g
      exact h
    · exact h
  · exact h

theorem itemsWellFormed_header {signature : Option ClassSignature} {original header : List Item}
    {newline : Token} {block : Block} (h : ItemsWellFormed original)
    (hcompound : compoundOf original newline block = .ok (.compound signature header newline block)) :
    ItemsWellFormed header := by
  unfold compoundOf at hcompound
  split at hcompound
  · split at hcompound
    · split at hcompound
      · cases hcompound
        exact h
      · cases hcompound
    · cases hcompound
      exact itemsWellFormed_relabelHeader h
  · cases hcompound
    exact h

mutual

theorem same_statement : ∀ {s : Statement} {us vs ws : List Shape}, s.WellFormed → s.Prints us →
    Same vs ws → Same (s.tokens.map Token.shape ++ vs) (us ++ ws)
  | .simple ⟨items, newline, reformat⟩, us, vs, ws, hs, hus, h => by
      obtain ⟨hitems, -, hnewline⟩ := hs
      obtain ⟨xs, hxs, rfl⟩ := hus
      have hline := same_items hitems.wellFormed hxs (Same.cons (.newline, []) h)
      simpa [Statement.tokens, Line.tokens, shapesOf, hnewline.shape] using hline
  | .compound signature header newline block, us, vs, ws, hs, hus, h => by
      obtain ⟨hblock, hnewline, original, horiginal, -, hcompound⟩ := hs
      obtain ⟨xs, ys, hxs, hys, rfl⟩ := hus
      have hheader := itemsWellFormed_header horiginal.wellFormed hcompound
      have hrest := same_block hblock hys h
      have hline := same_items hheader hxs (Same.cons (.newline, []) hrest)
      simpa [Statement.tokens, shapesOf, hnewline.shape] using hline

theorem same_block : ∀ {b : Block} {us vs ws : List Shape}, b.WellFormed → b.Prints us →
    Same vs ws → Same (b.tokens.map Token.shape ++ vs) (us ++ ws)
  | ⟨indent, body, dedent⟩, us, vs, ws, hb, hus, h => by
      obtain ⟨hindent, hdedent, -, hbody⟩ := hb
      obtain ⟨xs, hxs, rfl⟩ := hus
      have hinner := same_body hbody hxs (Same.cons (.dedent, []) h)
      have hopen : indent.shape = (.indent, []) := by
        simp [Token.shape, hindent, TokenKind.isWord]
      have hclose : dedent.shape = (.dedent, []) := by
        simp [Token.shape, hdedent, TokenKind.isWord]
      simpa [Block.tokens, hopen, hclose] using Same.cons (.indent, []) hinner

/-- A print of statements has their tokens, up to commas and parentheses. -/
theorem same_body : ∀ {ss : List Statement} {us vs ws : List Shape}, BodyWellFormed ss →
    BodyPrints ss us → Same vs ws →
    Same ((tokensOfBody ss).map Token.shape ++ vs) (us ++ ws)
  | [], us, vs, ws, _, hus, h => by
      rw [BodyPrints] at hus
      rw [hus]
      simpa [tokensOfBody] using h
  | s :: ss, us, vs, ws, hss, hus, h => by
      obtain ⟨xs, ys, hxs, hys, rfl⟩ := hus
      rw [tokensOfBody, List.map_append, List.append_assoc, List.append_assoc]
      exact same_statement hss.1 hxs (same_body hss.2 hys h)

end

end SchemaTidy
