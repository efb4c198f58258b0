import SchemaTidy.Proofs.Tree.Bare
import SchemaTidy.Proofs.Tree.Names
import SchemaTidy.Proofs.Tree.Woven

/-!
# Groups that can be read

A group can be read when its brackets match, its elements are divided by commas, and the tokens of each
element can be written one after another. This is said of each part by itself, so it is easily kept when
elements are taken out, put in or moved. The groups of a parsed module can be read.
-/

namespace SchemaTidy

theorem Nested.append {a b : List Token} (ha : Nested a) (hb : Nested b) : Nested (a ++ b) := by
  induction ha with
  | nil => exact hb
  | cons hopening hclosing _ ih => exact .cons hopening hclosing ih
  | group hbrackets hwords hinner _ _ ih => simpa using Nested.group hbrackets hwords hinner ih

theorem nested_items {is : List Item} (h : ∀ i ∈ is, Nested i.tokens) : Nested (tokensOfItems is) := by
  induction is with
  | nil => exact .nil
  | cons i is ih =>
      exact (h i (by simp)).append (ih fun j hj => h j (by simp [hj]))

theorem isBracket_of_comma {t : Token} (h : t.isOp "," = true) :
    t.isOpening = false ∧ t.isClosing = false := by
  obtain ⟨-, htext⟩ : t.kind = .op ∧ t.text = [','] := by simpa [Token.isOp] using h
  simp [Token.isOpening, Token.isClosing, Token.isOp, htext]

theorem Token.isLone_of_comma {t : Token} (h : t.isOp "," = true) : t.IsLone := by
  obtain ⟨hkind, htext⟩ : t.kind = .op ∧ t.text = [','] := by simpa [Token.isOp] using h
  exact ⟨hkind, ',', by decide, htext⟩

mutual

theorem Item.WellFormed.nested : ∀ {i : Item}, i.WellFormed → Nested i.tokens
  | .token _, ⟨_, _, hopening, hclosing⟩ => .cons hopening hclosing .nil
  | .group ⟨_, _, _, _, _⟩, ⟨hbrackets, helements, _⟩ =>
      .group hbrackets (isWord_of_mem_elements helements) helements.nested .nil

theorem ElementsWellFormed.nested : ∀ {s : Scope} {es : List Element}, ElementsWellFormed s es →
    Nested (tokensOfElements es)
  | _, [], _ => .nil
  | s, ⟨items, comma⟩ :: es, hes => by
      obtain ⟨⟨-, -, hitems⟩, hcomma⟩ := hes
      cases comma with
      | none =>
          obtain rfl : es = [] := hcomma
          simpa [tokensOfElements, Element.tokens] using ItemsWellFormed.nested hitems
      | some comma =>
          obtain ⟨hseparates, hrest⟩ := hcomma
          have hop : comma.isOp "," = true := by
            simp only [Scope.separates, Bool.and_eq_true] at hseparates
            exact hseparates.1.1
          obtain ⟨hopening, hclosing⟩ := isBracket_of_comma hop
          have htail := (ItemsWellFormed.nested hitems).append
            (.cons hopening hclosing (ElementsWellFormed.nested hrest))
          simpa [tokensOfElements, Element.tokens] using htail

theorem ItemsWellFormed.nested : ∀ {is : List Item}, ItemsWellFormed is → Nested (tokensOfItems is)
  | [], _ => .nil
  | _ :: _, ⟨hi, his⟩ => hi.nested.append (ItemsWellFormed.nested his)

end

/-! ## Readable groups -/

/-- An element whose tokens can be written one after another. -/
structure Element.Readable (e : Element) : Prop where
  chained : Chained (tokensOfItems e.items)
  nested : ∀ i ∈ e.items, Nested i.tokens
  comma : ∀ t, e.comma = some t → t.isOp "," = true ∧ IsMargin t.trivia

theorem Group.tokens_eq (g : Group) :
    g.tokens = g.opening :: (tokensOfElements g.elements ++ [g.closing]) := by
  cases g
  rfl

/-- All elements but the last have commas. -/
def Separated : List Element → Prop
  | [] => True
  | e :: es => (e.comma = none → es = []) ∧ Separated es

structure Group.Readable (g : Group) : Prop where
  brackets : MatchingBrackets g.opening g.closing
  opening : IsMargin g.opening.trivia
  closing : IsMargin g.closing.trivia
  elements : ∀ e ∈ g.elements, e.Readable
  separated : Separated g.elements

theorem nested_elements {es : List Element} (h : ∀ e ∈ es, e.Readable) :
    Nested (tokensOfElements es) := by
  induction es with
  | nil => exact .nil
  | cons e es ih =>
      obtain ⟨items, comma⟩ := e
      obtain ⟨-, hnested, hcomma⟩ := h ⟨items, comma⟩ (by simp)
      have hrest := ih fun e he => h e (by simp [he])
      have hitems : Nested (tokensOfItems items) := nested_items hnested
      cases comma with
      | none =>
          rw [tokensOfElements, Element.tokens, Option.toList_none, List.append_nil]
          exact hitems.append hrest
      | some comma =>
          obtain ⟨hopening, hclosing⟩ := isBracket_of_comma (hcomma comma rfl).1
          rw [tokensOfElements, Element.tokens, List.append_assoc]
          exact hitems.append (.cons hopening hclosing hrest)

theorem chained_elements {es : List Element} {t : Token} {rest : List Token}
    (h : ∀ e ∈ es, e.Readable) (hseparated : Separated es) (ht : t.IsLone)
    (hrest : Chained (t :: rest)) : Chained (tokensOfElements es ++ t :: rest) := by
  induction es with
  | nil => exact hrest
  | cons e es ih =>
      obtain ⟨items, comma⟩ := e
      obtain ⟨hchained, -, hcomma⟩ := h ⟨items, comma⟩ (by simp)
      obtain ⟨hlast, hseparated⟩ := hseparated
      have htail := ih (fun e he => h e (by simp [he])) hseparated
      cases comma with
      | none =>
          obtain rfl : es = [] := hlast rfl
          simpa [tokensOfElements, Element.tokens] using hchained.append_lone ht hrest
      | some comma =>
          obtain ⟨hop, htrivia⟩ := hcomma comma rfl
          have hlone := Token.isLone_of_comma hop
          simpa [tokensOfElements, Element.tokens] using
            hchained.append_lone hlone (.lone hlone htrivia htail)

namespace Group.Readable

variable {g : Group}

theorem chained_append (h : g.Readable) {rest : List Token} (hrest : Chained rest) :
    Chained (g.tokens ++ rest) := by
  obtain ⟨opening, elements, closing, kind, sortable⟩ := g
  obtain ⟨hopening, hclosing⟩ := h.brackets.isLone
  rw [Group.tokens, List.cons_append, List.append_assoc]
  exact .lone hopening h.opening
    (chained_elements h.elements h.separated hclosing (.lone hclosing h.closing hrest))

theorem chained (h : g.Readable) : Chained g.tokens := by
  have hall : Chained (g.tokens ++ []) := h.chained_append trivial
  rwa [List.append_nil] at hall

theorem nested (h : g.Readable) : Nested g.tokens := by
  have hwords := h.chained.isWord
  obtain ⟨opening, elements, closing, kind, sortable⟩ := g
  rw [Group.tokens] at hwords ⊢
  exact .group h.brackets (fun t ht => hwords t (by simp [ht])) (nested_elements h.elements) .nil

end Group.Readable

/-! ## Groups of a module -/

theorem readable_elements {s : Scope} {es : List Element} (h : ElementsWellFormed s es)
    {rest : List Token} (hchained : Chained (tokensOfElements es ++ rest)) :
    (∀ e ∈ es, e.Readable) ∧ Separated es := by
  induction es generalizing s with
  | nil => exact ⟨by simp, trivial⟩
  | cons e es ih =>
      obtain ⟨items, comma⟩ := e
      obtain ⟨⟨-, -, hitems⟩, hcomma⟩ := h
      rw [tokensOfElements, Element.tokens, List.append_assoc, List.append_assoc] at hchained
      have hnested : ∀ i ∈ items, Nested i.tokens :=
        fun i hi => (itemsWellFormed_iff.mp hitems i hi).nested
      cases comma with
      | none =>
          obtain rfl : es = [] := hcomma
          exact ⟨by simpa using ⟨hchained.left, hnested, nofun⟩, fun _ => rfl, trivial⟩
      | some comma =>
          obtain ⟨hseparates, hrest⟩ := hcomma
          have hop : comma.isOp "," = true := by
            simp only [Scope.separates, Bool.and_eq_true] at hseparates
            exact hseparates.1.1
          obtain ⟨-, htrivia, -, htail⟩ := hchained.right
          obtain ⟨hes, hseparated⟩ := ih hrest htail
          refine ⟨List.forall_mem_cons.mpr ⟨⟨hchained.left, hnested, ?_⟩, hes⟩, nofun, hseparated⟩
          intro t ht
          obtain rfl := Option.some.inj ht
          exact ⟨hop, htrivia⟩

theorem Group.WellFormed.readable {g : Group} (h : g.WellFormed) (hchained : Chained g.tokens) :
    g.Readable := by
  obtain ⟨opening, elements, closing, kind, sortable⟩ := g
  obtain ⟨hbrackets, helements, -⟩ := h
  obtain ⟨-, hopening, -, htail⟩ := hchained
  obtain ⟨hes, hseparated⟩ := readable_elements helements htail
  exact ⟨hbrackets, hopening, htail.right.2.1, hes, hseparated⟩

mutual

theorem Group.WellFormed.of_mem_groups : ∀ {g h : Group}, g.WellFormed → h ∈ g.groups → h.WellFormed
  | ⟨opening, elements, closing, kind, sortable⟩, h, hg, hh => by
      rw [Group.groups] at hh
      rcases List.mem_cons.mp hh with rfl | hh
      · exact hg
      · obtain ⟨-, helements, -⟩ := hg
        exact helements.of_mem_groups hh

theorem ElementsWellFormed.of_mem_groups : ∀ {s : Scope} {es : List Element} {h : Group},
    ElementsWellFormed s es → h ∈ groupsOfElements es → h.WellFormed
  | s, ⟨items, comma⟩ :: es, h, hes, hh => by
      obtain ⟨⟨-, -, hitems⟩, hcomma⟩ := hes
      rcases List.mem_append.mp hh with hhead | hrest
      · exact ItemsWellFormed.of_mem_groups hitems hhead
      · cases comma with
        | none =>
            obtain rfl : es = [] := hcomma
            cases hrest
        | some comma => exact ElementsWellFormed.of_mem_groups hcomma.2 hrest

theorem ItemsWellFormed.of_mem_groups : ∀ {is : List Item} {h : Group}, ItemsWellFormed is →
    h ∈ groupsOfItems is → h.WellFormed
  | .token t :: is, h, his, hh => by
      have hrest : h ∈ groupsOfItems is := hh
      exact ItemsWellFormed.of_mem_groups his.2 hrest
  | .group g :: is, h, ⟨hg, his⟩, hh => by
      have hg : g.WellFormed := hg
      rcases List.mem_append.mp hh with hh | hh
      · exact hg.of_mem_groups hh
      · exact ItemsWellFormed.of_mem_groups his hh

end

mutual

theorem Statement.WellFormed.of_mem_groups : ∀ {s : Statement} {h : Group}, s.WellFormed →
    h ∈ s.groups → h.WellFormed
  | .simple line, h, hs, hh => by
      rw [Statement.WellFormed] at hs
      exact hs.1.wellFormed.of_mem_groups hh
  | .compound signature header newline ⟨indent, body, dedent⟩, h, hs, hh => by
      rw [Statement.WellFormed] at hs
      obtain ⟨⟨-, -, -, hbody⟩, -, original, horiginal, -, hcompound⟩ := hs
      rcases List.mem_append.mp hh with hh | hh
      · exact (itemsWellFormed_header horiginal.wellFormed hcompound).of_mem_groups hh
      · exact BodyWellFormed.of_mem_groups hbody hh

theorem BodyWellFormed.of_mem_groups : ∀ {ss : List Statement} {h : Group}, BodyWellFormed ss →
    h ∈ groupsOfBody ss → h.WellFormed
  | s :: ss, h, ⟨hs, hss⟩, hh => by
      rcases List.mem_append.mp hh with hh | hh
      · exact hs.of_mem_groups hh
      · exact BodyWellFormed.of_mem_groups hss hh

end

theorem readable_of_parse {source : Text} {m : Module} (h : parse source = .ok m) {g : Group}
    (hg : g ∈ m.groups) : g.Readable := by
  have hwellFormed : g.WellFormed := (parse_wellFormed h).of_mem_groups hg
  obtain ⟨before, after, htokens⟩ := Module.tokens_within hg
  have hwoven := woven_parse h
  rw [← htokens, List.append_assoc] at hwoven
  exact hwellFormed.readable (chained_of_woven hwoven.right (isWord_of_mem_group hwellFormed))

/-! ## Reading -/

def Token.marksBlock (t : Token) : Bool := t.kind == .indent || t.kind == .dedent

theorem lexes_group {g : Group} (h : g.Readable) (indents : List Nat) (last : Option TokenKind) :
    Lexes ⟨g.opening.text ++ (spell (tokensOfElements g.elements) ++ g.closing.source), indents, [],
        false, last⟩
      (g.tokens.map Token.spelling ++
        (.newline, []) :: (indents.map (fun _ => (.dedent, [])) ++ [(.endMarker, [])])) [] := by
  have hchained := h.chained
  rw [Group.tokens_eq] at hchained ⊢
  obtain ⟨hopeningLone, hclosingLone⟩ := h.brackets.isLone
  obtain ⟨c, hbrackets⟩ := h.brackets.bracketsAfter
  obtain ⟨hopens, hcloses⟩ := hbrackets []
  have hend (last : Option TokenKind) :
      Lexes ⟨g.closing.source ++ [], indents, [c], false, last⟩
        (g.closing.spelling :: (.newline, []) ::
          (indents.map (fun _ => (.dedent, [])) ++ [(.endMarker, [])])) [] :=
    lexes_token h.closing hclosingLone.isWord (hclosingLone.cuts []) (by simp) hcloses
      (lexes_unfinished hclosingLone.isWord indents)
  have helements := lexes_nested (nested_elements h.elements) hchained.2.2.2.left
    (hclosingLone.stops h.closing []) (by simp) hend (some g.opening.kind)
  have hread : Lexes ⟨g.opening.text ++ (spell (tokensOfElements g.elements) ++
      (g.closing.source ++ [])), indents, [], false, last⟩ _ [] :=
    lexes_word (hopeningLone.cuts _) hchained.1 hopens helements
  simpa [Token.spelling] using hread

/-- A readable group gives its tokens when it is read as a source by itself. -/
theorem tokenize_readable {g : Group} (h : g.Readable)
    (hstarts : startsLine g.opening.trivia = true) :
    ∃ ts, tokenize g.source = .ok ts ∧
      (ts.filter (!·.marksBlock)).map Token.shape =
        g.tokens.map Token.spelling ++ [(.newline, []), (.endMarker, [])] := by
  obtain ⟨-, -, c, hc, htext, -⟩ := h.brackets
  have hplain : Text.isIndent c = false ∧ c ≠ '#' ∧ Text.isLineBreak c = false := by
    rcases hc with rfl | rfl | rfl <;> decide
  have hread := lexes_group h
  rw [htext] at hread
  obtain ⟨ms, indents, hms, hlexes⟩ := lexes_start hplain hread g.opening.trivia h.opening hstarts
  have hsource : g.source =
      g.opening.trivia ++ c :: (spell (tokensOfElements g.elements) ++ g.closing.source) := by
    simp [Group.source, Group.tokens_eq, Token.source, htext]
  obtain ⟨ts, hts, hshapes, -⟩ := hlexes (Cursor.ofSource _) rfl (.inl Trivia.closed_nil)
  refine ⟨ts, by rwa [hsource], ?_⟩
  -- The markers of blocks can be told from the kinds alone.
  let keeps (u : Shape) : Bool := !(u.1 == .indent || u.1 == .dedent)
  have hindents : ms.filter keeps = [] := by
    refine List.filter_eq_nil_iff.mpr fun u hu => ?_
    rw [hms u hu]
    decide
  have hdedents : (indents.map (fun _ => ((.dedent, []) : Shape))).filter keeps = [] := by
    refine List.filter_eq_nil_iff.mpr fun u hu => ?_
    obtain ⟨-, -, rfl⟩ := List.mem_map.mp hu
    decide
  have hwords : (g.tokens.map Token.spelling).filter keeps = g.tokens.map Token.spelling := by
    refine List.filter_eq_self.mpr fun u hu => ?_
    obtain ⟨t, ht, rfl⟩ := List.mem_map.mp hu
    have hkind := h.chained.isWord t ht
    show (!(t.kind == .indent || t.kind == .dedent)) = true
    cases hk : t.kind <;> simp [hk, TokenKind.isWord] at hkind ⊢
  have hfilter : (ts.filter (!·.marksBlock)).map Token.shape = (ts.map Token.shape).filter keeps := by
    rw [List.filter_map]
    rfl
  rw [hfilter, hshapes, List.filter_append, hindents, List.nil_append, List.filter_append, hwords,
    List.filter_cons_of_pos (by decide), List.filter_append, hdedents]
  rfl

end SchemaTidy
