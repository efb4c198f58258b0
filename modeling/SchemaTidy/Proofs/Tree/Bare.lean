import SchemaTidy.Proofs.Tree.Reparse

/-!
# Bare trees

A tree without trivia, without places and without the spelling of its line ends. One step of the
parser commutes with baring, so the tree of a source depends on the shapes of its tokens only.
-/

namespace SchemaTidy

/-- A token with the shape of another and nothing else. -/
def Token.bare (t : Token) : Token := .synthetic t.shape.1 t.shape.2

@[simp] theorem shape_bare (t : Token) : t.bare.shape = t.shape := by
  cases h : t.kind.isWord <;> simp [Token.bare, Token.synthetic, Token.shape, h]

@[simp] theorem kind_bare (t : Token) : t.bare.kind = t.kind := rfl

@[simp] theorem isOp_bare (t : Token) (text : String) : t.bare.isOp text = t.isOp text :=
  isOp_eq_of_shape (shape_bare t) text

@[simp] theorem isName_bare (t : Token) (text : String) : t.bare.isName text = t.isName text :=
  isName_eq_of_shape (shape_bare t) text

@[simp] theorem isIdentifier_bare (t : Token) : t.bare.isIdentifier = t.isIdentifier :=
  isIdentifier_eq_of_shape (shape_bare t)

@[simp] theorem isOpening_bare (t : Token) : t.bare.isOpening = t.isOpening :=
  isOpening_eq_of_shape (shape_bare t)

@[simp] theorem isClosing_bare (t : Token) : t.bare.isClosing = t.isClosing :=
  isClosing_eq_of_shape (shape_bare t)

theorem text_bare {t : Token} (h : t.kind.isWord = true) : t.bare.text = t.text :=
  text_eq_of_shape (shape_bare t) h

theorem text_bare_of_isIdentifier {t : Token} (h : t.isIdentifier = true) :
    t.bare.text = t.text := by
  have hkind : t.kind = .name := by
    simp only [Token.isIdentifier, Bool.and_eq_true, beq_iff_eq] at h
    exact h.1
  exact text_bare (by rw [hkind]; rfl)

theorem text_bare_of_isOpening {t : Token} (h : t.isOpening = true) : t.bare.text = t.text := by
  have hkind : t.kind = .op := by
    simp only [Token.isOpening, Token.isOp, Bool.or_eq_true, Bool.and_eq_true, beq_iff_eq] at h
    rcases h with (h | h) | h <;> exact h.1
  exact text_bare (by rw [hkind]; rfl)

theorem shape_eq_of_bare {t u : Token} (h : t.bare = u.bare) : t.shape = u.shape := by
  rw [← shape_bare, h, shape_bare]

mutual

def Item.bare : Item → Item
  | .token t => .token t.bare
  | .group g => .group g.bare

def Element.bare : Element → Element
  | ⟨items, comma⟩ => ⟨bareItems items, comma.map Token.bare⟩

def Group.bare : Group → Group
  | ⟨opening, elements, closing, kind, sortable⟩ =>
      ⟨opening.bare, bareElements elements, closing.bare, kind, sortable⟩

def bareItems : List Item → List Item
  | [] => []
  | i :: is => i.bare :: bareItems is

def bareElements : List Element → List Element
  | [] => []
  | e :: es => e.bare :: bareElements es

end

def Line.bare (l : Line) : Line := ⟨bareItems l.items, l.newline.bare, l.reformat⟩

mutual

def Statement.bare : Statement → Statement
  | .simple line => .simple line.bare
  | .compound signature header newline block =>
      .compound signature (bareItems header) newline.bare block.bare

def Block.bare : Block → Block
  | ⟨indent, body, dedent⟩ => ⟨indent.bare, bareBody body, dedent.bare⟩

def bareBody : List Statement → List Statement
  | [] => []
  | s :: ss => s.bare :: bareBody ss

end

def Module.bare (m : Module) : Module := ⟨bareBody m.body, m.endMarker.bare⟩

theorem bareItems_eq_map (items : List Item) : bareItems items = items.map Item.bare := by
  induction items with
  | nil => rfl
  | cons i is ih => rw [bareItems, ih, List.map_cons]

theorem bareElements_eq_map (elements : List Element) :
    bareElements elements = elements.map Element.bare := by
  induction elements with
  | nil => rfl
  | cons e es ih => rw [bareElements, ih, List.map_cons]

theorem bareBody_eq_map (body : List Statement) : bareBody body = body.map Statement.bare := by
  induction body with
  | nil => rfl
  | cons s ss ih => rw [bareBody, ih, List.map_cons]

@[simp] theorem Item.bare_token (t : Token) : (Item.token t).bare = .token t.bare := rfl

@[simp] theorem Item.bare_group (g : Group) : (Item.group g).bare = .group g.bare := rfl

@[simp] theorem Group.kind_bare (g : Group) : g.bare.kind = g.kind := by cases g; rfl

@[simp] theorem Group.elements_bare (g : Group) :
    g.bare.elements = g.elements.map Element.bare := by
  cases g
  exact bareElements_eq_map _

@[simp] theorem Element.items_bare (e : Element) : e.bare.items = e.items.map Item.bare := by
  cases e
  exact bareItems_eq_map _

@[simp] theorem Item.isOp_bare (i : Item) (text : String) : i.bare.isOp text = i.isOp text := by
  cases i with
  | token t => exact SchemaTidy.isOp_bare t text
  | group g => rfl

@[simp] theorem Item.isName_bare (i : Item) (text : String) :
    i.bare.isName text = i.isName text := by
  cases i with
  | token t => exact SchemaTidy.isName_bare t text
  | group g => rfl

/-! ## Words -/

theorem MatchingBrackets.isWord {opening closing : Token} (h : MatchingBrackets opening closing) :
    opening.kind.isWord = true ∧ closing.kind.isWord = true := by
  rw [h.1, h.2.1]
  exact ⟨rfl, rfl⟩

theorem isWord_of_separates {s : Scope} {t : Token} (h : s.separates t = true) :
    t.kind.isWord = true := by
  rw [show t.kind = .op from congrArg Prod.fst (shape_of_separates h)]
  rfl

mutual

theorem isWord_of_mem_items : ∀ {is : List Item}, ItemsWellFormed is →
    ∀ t ∈ tokensOfItems is, t.kind.isWord = true
  | [], _, t, ht => by simp at ht
  | .token u :: is, his, t, ht => by
      obtain ⟨hu, his⟩ := his
      simp only [tokensOfItems_cons, tokens_token, List.singleton_append, List.mem_cons] at ht
      rcases ht with rfl | ht
      · exact hu.1
      · exact isWord_of_mem_items his t ht
  | .group g :: is, his, t, ht => by
      obtain ⟨hg, his⟩ := his
      rw [tokensOfItems_cons, tokens_group] at ht
      rcases List.mem_append.mp ht with ht | ht
      · exact isWord_of_mem_group hg t ht
      · exact isWord_of_mem_items his t ht

theorem isWord_of_mem_group : ∀ {g : Group}, g.WellFormed → ∀ t ∈ g.tokens, t.kind.isWord = true
  | ⟨opening, elements, closing, kind, sortable⟩, hg, t, ht => by
      obtain ⟨hbrackets, helements, -⟩ := hg
      simp only [Group.tokens, List.mem_cons, List.mem_append, List.not_mem_nil, or_false] at ht
      rcases ht with rfl | ht | rfl
      · exact hbrackets.isWord.1
      · exact isWord_of_mem_elements helements t ht
      · exact hbrackets.isWord.2

theorem isWord_of_mem_elements : ∀ {s : Scope} {es : List Element}, ElementsWellFormed s es →
    ∀ t ∈ tokensOfElements es, t.kind.isWord = true
  | s, [], _, t, ht => by simp [tokensOfElements] at ht
  | s, ⟨items, comma⟩ :: es, hes, t, ht => by
      obtain ⟨⟨-, -, hitems⟩, hcomma⟩ := hes
      simp only [tokensOfElements, Element.tokens, List.mem_append, Option.mem_toList] at ht
      rcases ht with (ht | ht) | ht
      · exact isWord_of_mem_items hitems t ht
      · rw [ht] at hcomma
        exact isWord_of_separates hcomma.1
      · cases comma with
        | none =>
            obtain rfl : es = [] := hcomma
            simp [tokensOfElements] at ht
        | some c => exact isWord_of_mem_elements hcomma.2 t ht

end

/-! ## What an element is -/

namespace Element

@[simp] theorem keyword?_bare (e : Element) : e.bare.keyword? = e.keyword? := by
  obtain ⟨items, comma⟩ := e
  unfold keyword?
  rw [items_bare]
  match items with
  | [] => rfl
  | [.token _] => rfl
  | [.token _, .token _] => rfl
  | .token name :: .token eq :: i :: is =>
      simp only [List.map_cons, Item.bare_token, isIdentifier_bare, SchemaTidy.isOp_bare]
      split
      · rename_i hname
        rw [text_bare_of_isIdentifier (Bool.and_eq_true_iff.mp hname).1]
      · rfl
  | [.token _, .group _] => rfl
  | .token _ :: .group _ :: _ :: _ => rfl
  | .group _ :: _ => rfl

@[simp] theorem argumentKind_bare (e : Element) : e.bare.argumentKind = e.argumentKind := by
  obtain ⟨items, comma⟩ := e
  unfold argumentKind
  rw [keyword?_bare, items_bare]
  cases items with
  | nil => rfl
  | cons i is => simp only [List.map_cons, Item.isOp_bare]

end Element

/-! ## Names and kinds -/

theorem followsCallable_bare (previous : Option Item) :
    followsCallable (previous.map Item.bare) = followsCallable previous := by
  cases previous with
  | none => rfl
  | some i =>
      cases i with
      | token t => simp [followsCallable]
      | group g => rfl

theorem groupKind_bare {opening : Token} (h : opening.isOpening = true) (previous : Option Item) :
    groupKind opening.bare (previous.map Item.bare) = groupKind opening previous := by
  unfold groupKind
  rw [text_bare_of_isOpening h, followsCallable_bare]

theorem baseName?_bare (items : List Item) : baseName? (items.map Item.bare) = baseName? items := by
  have hsubscript (i : Item) : (i.bare.group?.any (·.kind == .subscript)) =
      (i.group?.any (·.kind == .subscript)) := by
    cases i with
    | token t => rfl
    | group g => simp [Item.group?]
  unfold baseName?
  simp only
  rw [← List.map_reverse, List.dropWhile_map]
  have hcongr : (fun i : Item => i.group?.any (·.kind == .subscript)) ∘ Item.bare =
      fun i : Item => i.group?.any (·.kind == .subscript) := funext hsubscript
  rw [hcongr]
  cases items.reverse.dropWhile fun i => i.group?.any (·.kind == .subscript) with
  | nil => rfl
  | cons i is =>
      cases i with
      | group g => rfl
      | token t =>
          simp only [List.map_cons, Item.bare_token, isIdentifier_bare]
          split
          · rename_i hname
            rw [text_bare_of_isIdentifier hname]
          · rfl

theorem baseNames_bare (bases : Group) : baseNames bases.bare = baseNames bases := by
  unfold baseNames
  rw [Group.elements_bare, List.filterMap_map]
  congr 1
  funext e
  simp [baseName?_bare]

theorem signatureOf?_bare (header : List Item) :
    signatureOf? (header.map Item.bare) = signatureOf? header := by
  have hdeclare (name : Token) (bases : List Text) :
      (if name.isIdentifier then some (⟨name.bare.text, bases⟩ : ClassSignature) else none) =
        if name.isIdentifier then some ⟨name.text, bases⟩ else none := by
    split
    · rename_i hname
      rw [text_bare_of_isIdentifier hname]
    · rfl
  match header with
  | [] => rfl
  | [_] => rfl
  | [_, .token _] => rfl
  | [_, .group _] => rfl
  | [_, .token name, .token colon] => simp [signatureOf?, hdeclare]
  | [_, .group _, _] => rfl
  | [_, .token _, .group _] => rfl
  | [_, .token name, .group bases, .token colon] =>
      simp [signatureOf?, hdeclare, baseNames_bare]
  | [_, .token _, .group _, .group _] => rfl
  | [_, .token _, .token _, _] => rfl
  | [_, .group _, _, _] => rfl
  | [_, .token name, .group params, .group bases, .token colon] =>
      simp [signatureOf?, hdeclare, baseNames_bare]
  | [_, .token _, .group _, .group _, .group _] => rfl
  | [_, .token _, .group _, .token _, _] => rfl
  | [_, .token _, .token _, _, _] => rfl
  | [_, .group _, _, _, _] => rfl
  | _ :: .token _ :: .token _ :: _ :: _ :: _ :: _ => rfl
  | _ :: .token _ :: .group _ :: .token _ :: _ :: _ :: _ => rfl
  | _ :: .token _ :: .group _ :: .group _ :: .token _ :: _ :: _ => rfl
  | _ :: .token _ :: .group _ :: .group _ :: .group _ :: _ :: _ => rfl
  | _ :: .group _ :: _ :: _ :: _ :: _ :: _ => rfl

theorem relabelHeader_bare (header : List Item) :
    relabelHeader (header.map Item.bare) = (relabelHeader header).map Item.bare := by
  match header with
  | [] => rfl
  | .group _ :: _ => rfl
  | [.token _] => rfl
  | .token _ :: .token _ :: _ => rfl
  | .token word :: .group g :: rest =>
      simp only [relabelHeader, List.map_cons, Item.bare_token, Item.bare_group, isName_bare]
      split
      · cases g
        rfl
      · rfl

theorem compoundOf_bare (header : List Item) (newline : Token) (block : Block) :
    (compoundOf (header.map Item.bare) newline.bare block.bare).toOption =
      (compoundOf header newline block).toOption.map Statement.bare := by
  match header with
  | [] => rfl
  | .group _ :: _ => simp [compoundOf, Except.toOption, Statement.bare, bareItems_eq_map]
  | .token first :: rest =>
      have hsignature := signatureOf?_bare (.token first :: rest)
      have hrelabel := relabelHeader_bare (.token first :: rest)
      simp only [List.map_cons, Item.bare_token] at hsignature hrelabel ⊢
      simp only [compoundOf, isName_bare, hsignature, hrelabel]
      split
      · cases signatureOf? (.token first :: rest) with
        | none => rfl
        | some signature =>
            simp [Except.toOption, Statement.bare, bareItems_eq_map]
      · simp [Except.toOption, Statement.bare, bareItems_eq_map]

/-! ## Parse states -/

namespace OpenGroup

def bare (g : OpenGroup) : OpenGroup :=
  { g with
    opening := g.opening.bare
    elements := g.elements.map Element.bare
    current := g.current.map Item.bare }

theorem bare_ofToken {t : Token} (h : t.isOpening = true) (previous : Option Item) :
    ofToken t.bare (previous.map Item.bare) = (ofToken t previous).bare := by
  simp [ofToken, bare, groupKind_bare h]

theorem bare_pushGroup (g : OpenGroup) (inner : Group) :
    g.bare.pushGroup inner.bare = (g.pushGroup inner).bare := by
  simp [pushGroup, bare]

theorem scope_bare (g : OpenGroup) : g.bare.scope = g.scope := by simp [scope, bare]

attribute [ext] OpenGroup

theorem bare_pushToken (g : OpenGroup) (t : Token) :
    g.bare.pushToken t.bare = (g.pushToken t).bare := by
  obtain ⟨hcurrent, helements, hopening, hkind⟩ := g.current_pushToken t
  obtain ⟨hcurrent', helements', hopening', hkind'⟩ := g.bare.current_pushToken t.bare
  have hscope : (g.bare.pushToken t.bare).scope = (g.pushToken t).scope := by
    rw [scope_pushToken, scope_pushToken, scope_bare, push_eq_of_shape (shape_bare t)]
  ext1
  · rw [hopening']
    exact congrArg Token.bare hopening.symm
  · exact hkind'.trans hkind.symm
  · rw [helements']
    exact congrArg (List.map Element.bare) helements.symm
  · rw [hcurrent']
    simp [hcurrent, bare]
  · exact congrArg Scope.lambdas hscope
  · exact congrArg Scope.comprehension hscope

theorem bare_pushComma (g : OpenGroup) (t : Token) :
    g.bare.pushComma t.bare = (g.pushComma t).bare := by
  simp [pushComma, bare, Element.bare, bareItems_eq_map]

theorem bare_close (g : OpenGroup) (t : Token) : g.bare.close t.bare = (g.close t).bare := by
  unfold close
  simp only [bare, List.isEmpty_map]
  split
  · simp [Group.bare, bareElements_eq_map]
  · simp [Group.bare, bareElements_eq_map, Element.bare, bareItems_eq_map]

theorem separates_bare (g : OpenGroup) (t : Token) : g.bare.separates t.bare = g.separates t := by
  simp [separates, bare]

end OpenGroup

def OpenBlock.bare (b : OpenBlock) : OpenBlock :=
  ⟨b.before.map Statement.bare, b.header.map Item.bare, b.newline.bare, b.indent.bare⟩

namespace ParseState

def bare (s : ParseState) : ParseState where
  blocks := s.blocks.map OpenBlock.bare
  body := s.body.map Statement.bare
  pending := s.pending.map fun p => (p.1.map Item.bare, p.2.bare)
  line := s.line.map Item.bare
  groups := s.groups.map OpenGroup.bare

theorem feedGroup_bare (s : ParseState) (g : OpenGroup) (outer : List OpenGroup) (t : Token) :
    (s.bare.feedGroup g.bare (outer.map OpenGroup.bare) t.bare).toOption =
      (s.feedGroup g outer t).toOption.map bare := by
  have hcurrent : g.bare.current = g.current.map Item.bare := rfl
  unfold feedGroup
  simp only [isClosing_bare, kind_bare, OpenGroup.separates_bare, isOpening_bare, hcurrent,
    List.isEmpty_map]
  split
  · cases outer with
    | nil => simp [Except.toOption, OpenGroup.bare_close, pushItem, bare]
    | cons h outer => simp [Except.toOption, OpenGroup.bare_close, OpenGroup.bare_pushGroup, bare]
  split
  · rfl
  split
  · split
    · rfl
    · simp [Except.toOption, OpenGroup.bare_pushComma, bare]
  split
  · rename_i hopening
    rw [List.getLast?_map]
    simp [Except.toOption, OpenGroup.bare_ofToken hopening, bare]
  · simp [Except.toOption, OpenGroup.bare_pushToken, bare]

theorem settle_bare (s : ParseState) (t : Token) :
    (s.bare.settle t.bare).toOption = (s.settle t).toOption.map fun p => (p.1.bare, p.2) := by
  unfold settle
  cases hpending : s.pending with
  | none => simp [bare, hpending, Except.toOption]
  | some p =>
      obtain ⟨items, newline⟩ := p
      have hopens : ((items.map Item.bare).getLast?.any (·.isOp ":")) =
          (items.getLast?.any (·.isOp ":")) := by
        rw [List.getLast?_map]
        cases items.getLast? <;> simp
      simp only [bare, hpending, Option.map_some, kind_bare, hopens]
      split
      · split
        · simp [Except.toOption, OpenBlock.bare]
        · rfl
      split
      · rfl
      · simp [Except.toOption, Statement.bare, Line.bare, bareItems_eq_map]

theorem endLine_bare (s : ParseState) (t : Token) :
    (s.bare.endLine t.bare).toOption = (s.endLine t).toOption.map bare := by
  have hline : s.bare.line.getLast? = s.line.getLast?.map Item.bare := List.getLast?_map ..
  have hdangling (last : Token) :
      (last.bare.kind == .op && danglingOperators.contains last.bare.text) =
        (last.kind == .op && danglingOperators.contains last.text) := by
    by_cases hkind : last.kind = .op
    · rw [text_bare (by rw [hkind]; rfl), kind_bare]
    · rw [kind_bare, beq_false_of_ne hkind, Bool.false_and, Bool.false_and]
  unfold endLine
  rw [hline]
  cases s.line.getLast? with
  | none => rfl
  | some i =>
      cases i with
      | group g => rfl
      | token last =>
          simp only [Option.map_some, Item.bare_token, hdangling]
          split <;> rfl

theorem toOption_endBlock {s : ParseState} {b : OpenBlock} {outer : List OpenBlock}
    (h : s.blocks = b :: outer) (t : Token) :
    (s.endBlock t).toOption =
      (compoundOf b.header b.newline ⟨b.indent, s.body, t⟩).toOption.map fun statement =>
        { s with blocks := outer, body := b.before ++ [statement] } := by
  simp only [endBlock, h]
  cases compoundOf b.header b.newline ⟨b.indent, s.body, t⟩ <;> rfl

theorem endBlock_bare (s : ParseState) (t : Token) :
    (s.bare.endBlock t.bare).toOption = (s.endBlock t).toOption.map bare := by
  cases hblocks : s.blocks with
  | nil => simp [endBlock, bare, hblocks, Except.toOption]
  | cons b outer =>
      have hblocks' : s.bare.blocks = b.bare :: outer.map OpenBlock.bare := by simp [bare, hblocks]
      have hcompound := compoundOf_bare b.header b.newline ⟨b.indent, s.body, t⟩
      rw [Block.bare, bareBody_eq_map] at hcompound
      rw [toOption_endBlock hblocks, toOption_endBlock hblocks']
      simp only [OpenBlock.bare, bare, hcompound, Option.map_map]
      congr 1
      funext statement
      simp [bare]

theorem toOption_map {ε α β : Type} (f : α → β) (x : Except ε α) :
    (x.map f).toOption = x.toOption.map f := by
  cases x <;> rfl

theorem cases_of_toOption_eq {ε α : Type} {f : α → α} {x y : Except ε α}
    (h : x.toOption = y.toOption.map f) :
    (∃ e e', y = .error e ∧ x = .error e') ∨ ∃ a, y = .ok a ∧ x = .ok (f a) := by
  cases x <;> cases y <;> simp_all [Except.toOption]

def bareResult : ParseState ⊕ Module → ParseState ⊕ Module := Sum.map bare Module.bare

theorem feedLine_bare (s : ParseState) (t : Token) :
    (s.bare.feedLine t.bare).toOption = (s.feedLine t).toOption.map bareResult := by
  have hline : s.bare.line.isEmpty = s.line.isEmpty := by simp [bare]
  have hblocks : s.bare.blocks.isEmpty = s.blocks.isEmpty := by simp [bare]
  have hlast : s.bare.line.getLast? = s.line.getLast?.map Item.bare := List.getLast?_map ..
  have hend : ((s.bare.endLine t.bare).map Sum.inl).toOption =
      ((s.endLine t).map (Sum.inl (β := Module))).toOption.map bareResult := by
    rw [toOption_map, toOption_map, endLine_bare, Option.map_map, Option.map_map]
    rfl
  unfold feedLine
  simp only [kind_bare, hline, hblocks, isOpening_bare, hlast]
  split
  · exact hend
  · split
    · rfl
    · exact hend
  · split
    · rw [toOption_map, toOption_map, endBlock_bare, Option.map_map, Option.map_map]
      rfl
    · exact hend
  · split
    · split
      · simp [Except.toOption, bareResult, Module.bare, bareBody_eq_map, bare]
      · rfl
    · exact hend
  · split
    · rename_i hopening
      simp [Except.toOption, bareResult, OpenGroup.bare_ofToken hopening, bare]
    · simp [Except.toOption, bareResult, pushItem, bare]

theorem feed_bare (s : ParseState) (t : Token) :
    (s.bare.feed t.bare).toOption = (s.feed t).toOption.map bareResult := by
  unfold feed
  cases hgroups : s.groups with
  | cons g outer =>
      have hgroups' : s.bare.groups = g.bare :: outer.map OpenGroup.bare := by simp [bare, hgroups]
      rw [hgroups']
      simp only [toOption_map, feedGroup_bare, Option.map_map]
      rfl
  | nil =>
      have hgroups' : s.bare.groups = [] := by simp [bare, hgroups]
      rw [hgroups']
      simp only
      obtain ⟨e, e', hs, hs'⟩ | ⟨⟨s', used⟩, hs, hs'⟩ := cases_of_toOption_eq (settle_bare s t)
      · rw [hs, hs']
        rfl
      · rw [hs, hs']
        cases used with
        | true => rfl
        | false => exact feedLine_bare s' t

theorem feedAll_bare (s : ParseState) (ts : List Token) :
    (s.bare.feedAll (ts.map Token.bare)).toOption = (s.feedAll ts).toOption.map Module.bare := by
  induction ts generalizing s with
  | nil => rfl
  | cons t ts ih =>
      rw [List.map_cons, feedAll, feedAll]
      obtain ⟨e, e', hs, hs'⟩ | ⟨r, hs, hs'⟩ := cases_of_toOption_eq (feed_bare s t)
      · rw [hs, hs']
        rfl
      · rw [hs, hs']
        cases r with
        | inl s' => exact ih s'
        | inr m => rfl

end ParseState

theorem feedAll_tokens_parse {source : Text} {m : Module} (h : parse source = .ok m) :
    ParseState.empty.feedAll m.tokens = .ok m := by
  obtain ⟨ts, hts, hm⟩ := tokens_parse h
  rw [hm]
  unfold parse at h
  rwa [hts] at h

/-- Sources whose tokens have the same shapes have the same tree, up to trivia, places and the
spelling of line ends. -/
theorem bare_parse_eq {source₁ source₂ : Text} {m₁ m₂ : Module} (h₁ : parse source₁ = .ok m₁)
    (h₂ : parse source₂ = .ok m₂) (h : m₁.tokens.map Token.shape = m₂.tokens.map Token.shape) :
    m₁.bare = m₂.bare := by
  have hbare : m₁.tokens.map Token.bare = m₂.tokens.map Token.bare := by
    have hfactor : Token.bare = (fun u : Shape => Token.synthetic u.1 u.2) ∘ Token.shape := rfl
    rw [hfactor, ← List.map_map, h, List.map_map]
  have hfeed₁ := ParseState.feedAll_bare .empty m₁.tokens
  have hfeed₂ := ParseState.feedAll_bare .empty m₂.tokens
  rw [feedAll_tokens_parse h₁] at hfeed₁
  rw [feedAll_tokens_parse h₂, ← hbare, hfeed₁] at hfeed₂
  exact Option.some.inj hfeed₂

end SchemaTidy
