import SchemaTidy.Print.Module
import SchemaTidy.Proofs.Tree.Bare

/-!
# Printing after respacing

Canonical printing reads the kinds and texts of the tokens and, of the trivia before them, only
comments and blank lines. Two sources that agree on these are printed alike, whatever their blanks,
line breaks and places.
-/

namespace SchemaTidy

/-- What canonical printing reads of the trivia before a token. -/
inductive Lead where
  /-- Before a statement, at the end of a block or of the module. -/
  | rows (lines : List Trivia.TriviaLine)
  /-- Before any other token: the comment on the line of the token before it and the comments on lines
  of their own. -/
  | remarks (sameLine : Option Text) (ownLine : List Text)
deriving DecidableEq

/-- The comments and blank lines before a token that starts or ends statements. -/
def Token.rowsBefore (t : Token) : Lead := .rows (Trivia.lines t.trivia)

/-- The comments before a token inside of a line or at its end. -/
def Token.remarks (t : Token) : Lead :=
  .remarks (Trivia.sameLineComment? t.trivia) (Trivia.ownLineComments t.trivia)

/-- What stands before the tokens of a logical line. -/
def lineLeads (items : List Item) (newline : Token) : List Lead :=
  match tokensOfItems items with
  | [] => [newline.remarks]
  | t :: ts => t.rowsBefore :: (ts ++ [newline]).map Token.remarks

mutual

def Statement.leads : Statement → List Lead
  | .simple line => lineLeads line.items line.newline
  | .compound _ header newline block => lineLeads header newline ++ block.leads

def Block.leads : Block → List Lead
  | ⟨indent, body, dedent⟩ => indent.remarks :: (leadsOf body ++ [dedent.rowsBefore])

/-- What stands before the tokens of some statements. -/
def leadsOf : List Statement → List Lead
  | [] => []
  | s :: ss => s.leads ++ leadsOf ss

end

/-- What stands before the tokens of a module, token by token. -/
def Module.leads (m : Module) : List Lead := leadsOf m.body ++ [m.endMarker.rowsBefore]

/-! ## Tokens of bare trees -/

mutual

@[simp] theorem Item.tokens_bare : ∀ i : Item, i.bare.tokens = i.tokens.map Token.bare
  | .token t => by simp [Item.bare]
  | .group g => by simp [Item.bare, g.tokens_bare]

theorem Element.tokens_bare : ∀ e : Element, e.bare.tokens = e.tokens.map Token.bare
  | ⟨items, comma⟩ => by
      cases comma <;> simp [Element.bare, Element.tokens, tokensOfItems_bare items]

theorem Group.tokens_bare : ∀ g : Group, g.bare.tokens = g.tokens.map Token.bare
  | ⟨opening, elements, closing, kind, sortable⟩ => by
      simp [Group.bare, Group.tokens, tokensOfElements_bare elements]

theorem tokensOfItems_bare : ∀ is : List Item,
    tokensOfItems (bareItems is) = (tokensOfItems is).map Token.bare
  | [] => by simp [bareItems]
  | i :: is => by simp [bareItems, i.tokens_bare, tokensOfItems_bare is]

theorem tokensOfElements_bare : ∀ es : List Element,
    tokensOfElements (bareElements es) = (tokensOfElements es).map Token.bare
  | [] => by simp [bareElements, tokensOfElements]
  | e :: es => by
      simp [bareElements, tokensOfElements, e.tokens_bare, tokensOfElements_bare es]

end

theorem Item.length_tokens_eq {i j : Item} (h : i.bare = j.bare) :
    i.tokens.length = j.tokens.length := by
  simpa using congrArg (fun k : Item => k.tokens.length) h

theorem length_tokensOfItems_eq {is js : List Item} (h : bareItems is = bareItems js) :
    (tokensOfItems is).length = (tokensOfItems js).length := by
  simpa [tokensOfItems_bare] using congrArg (fun ks => (tokensOfItems ks).length) h

theorem Element.length_tokens_eq {e f : Element} (h : e.bare = f.bare) :
    e.tokens.length = f.tokens.length := by
  simpa [Element.tokens_bare] using congrArg (fun k : Element => k.tokens.length) h

theorem length_tokensOfElements_eq {es fs : List Element} (h : bareElements es = bareElements fs) :
    (tokensOfElements es).length = (tokensOfElements fs).length := by
  simpa [tokensOfElements_bare] using congrArg (fun ks => (tokensOfElements ks).length) h

theorem map_append_inj {α β : Type} {f : α → β} {xs xs' ys ys' : List α}
    (h : (xs ++ ys).map f = (xs' ++ ys').map f) (hlength : xs.length = xs'.length) :
    xs.map f = xs'.map f ∧ ys.map f = ys'.map f := by
  rw [List.map_append, List.map_append] at h
  exact List.append_inj h (by simpa using hlength)

/-! ## What a group reads of its tokens -/

namespace Element

theorem keyword?_eq {e f : Element} (h : e.bare = f.bare) : e.keyword? = f.keyword? := by
  rw [← keyword?_bare, h, keyword?_bare]

@[simp] theorem stringKey?_bare (e : Element) : e.bare.stringKey? = e.stringKey? := by
  obtain ⟨items, comma⟩ := e
  unfold stringKey?
  rw [items_bare]
  match items with
  | [] => rfl
  | [.token _] => rfl
  | [.token _, .token _] => rfl
  | .token key :: .token colon :: i :: is =>
      simp only [List.map_cons, Item.bare_token, SchemaTidy.isOp_bare, kind_bare]
      split
      · rename_i hkey
        have hkind : key.kind = .string := by simpa using (Bool.and_eq_true_iff.mp hkey).1
        rw [text_bare (by rw [hkind]; rfl)]
      · rfl
  | [.token _, .group _] => rfl
  | .token _ :: .group _ :: _ :: _ => rfl
  | .group _ :: _ => rfl

theorem sortKey?_eq {e f : Element} (h : e.bare = f.bare) (kind : GroupKind) :
    sortKey? kind e = sortKey? kind f := by
  have hstring : e.stringKey? = f.stringKey? := by rw [← stringKey?_bare, h, stringKey?_bare]
  unfold sortKey?
  rw [keyword?_eq h, hstring]

end Element

/-- The text of a token and the comments before it. -/
def Token.face (t : Token) : Text × Lead := (t.text, t.remarks)

section Face

variable {t u : Token} (h : t.face = u.face)
include h

theorem text_eq_of_face : t.text = u.text := congrArg Prod.fst h

theorem sameLineComment?_eq_of_face :
    Trivia.sameLineComment? t.trivia = Trivia.sameLineComment? u.trivia :=
  (Lead.remarks.inj (congrArg Prod.snd h)).1

theorem ownLineComments_eq_of_face :
    Trivia.ownLineComments t.trivia = Trivia.ownLineComments u.trivia :=
  (Lead.remarks.inj (congrArg Prod.snd h)).2

theorem comments_eq_of_face : Trivia.comments t.trivia = Trivia.comments u.trivia := by
  rw [Trivia.comments, sameLineComment?_eq_of_face h, ownLineComments_eq_of_face h, Trivia.comments]

end Face

theorem Item.exists_tokens_eq (i : Item) : ∃ ts, i.tokens = i.firstToken :: ts := by
  cases i with
  | token t => exact ⟨[], by simp [Item.firstToken]⟩
  | group g =>
      obtain ⟨opening, elements, closing, kind, sortable⟩ := g
      exact ⟨tokensOfElements elements ++ [closing], by simp [Group.tokens, Item.firstToken]⟩

theorem Item.face_firstToken_eq {i j : Item} (h : i.tokens.map Token.face = j.tokens.map Token.face) :
    i.firstToken.face = j.firstToken.face := by
  obtain ⟨ts, hi⟩ := i.exists_tokens_eq
  obtain ⟨us, hj⟩ := j.exists_tokens_eq
  rw [hi, hj, List.map_cons, List.map_cons] at h
  exact (List.cons.inj h).1

theorem bareItems_cons {i : Item} {is js : List Item} (h : bareItems (i :: is) = bareItems js) :
    ∃ j js', js = j :: js' ∧ i.bare = j.bare ∧ bareItems is = bareItems js' := by
  cases js with
  | nil => cases h
  | cons j js' => exact ⟨j, js', rfl, (List.cons.inj h).1, (List.cons.inj h).2⟩

theorem bareElements_cons {e : Element} {es fs : List Element}
    (h : bareElements (e :: es) = bareElements fs) :
    ∃ f fs', fs = f :: fs' ∧ e.bare = f.bare ∧ bareElements es = bareElements fs' := by
  cases fs with
  | nil => cases h
  | cons f fs' => exact ⟨f, fs', rfl, (List.cons.inj h).1, (List.cons.inj h).2⟩

theorem flatMap_comments_eq {is js : List Item} (hbare : bareItems is = bareItems js)
    (hface : (tokensOfItems is).map Token.face = (tokensOfItems js).map Token.face) :
    (is.flatMap fun i => Trivia.comments i.firstToken.trivia) =
      js.flatMap fun j => Trivia.comments j.firstToken.trivia := by
  induction is generalizing js with
  | nil =>
      cases js with
      | nil => rfl
      | cons j js => cases hbare
  | cons i is ih =>
      obtain ⟨j, js, rfl, hij, hrest⟩ := bareItems_cons hbare
      simp only [tokensOfItems_cons] at hface
      obtain ⟨hhead, htail⟩ := map_append_inj hface (Item.length_tokens_eq hij)
      rw [List.flatMap_cons, List.flatMap_cons, ih hrest htail,
        comments_eq_of_face (Item.face_firstToken_eq hhead)]

theorem innerComments_eq {is js : List Item} (hbare : bareItems is = bareItems js)
    (hface : (tokensOfItems is).map Token.face = (tokensOfItems js).map Token.face) :
    innerComments is = innerComments js := by
  cases is with
  | nil =>
      cases js with
      | nil => rfl
      | cons j js => cases hbare
  | cons i is =>
      obtain ⟨j, js, rfl, hij, hrest⟩ := bareItems_cons hbare
      simp only [tokensOfItems_cons] at hface
      exact flatMap_comments_eq hrest (map_append_inj hface (Item.length_tokens_eq hij)).2

namespace Element

theorem face_items_eq {e f : Element} (hbare : e.bare = f.bare)
    (hface : e.tokens.map Token.face = f.tokens.map Token.face) :
    bareItems e.items = bareItems f.items ∧
      (tokensOfItems e.items).map Token.face = (tokensOfItems f.items).map Token.face ∧
      e.comma.map Token.face = f.comma.map Token.face := by
  obtain ⟨items, comma⟩ := e
  obtain ⟨items', comma'⟩ := f
  have hitems : bareItems items = bareItems items' := congrArg Element.items hbare
  obtain ⟨hleft, hright⟩ := map_append_inj hface (length_tokensOfItems_eq hitems)
  refine ⟨hitems, hleft, ?_⟩
  cases comma <;> cases comma' <;> simp_all

theorem leadingTrivia_eq {e f : Element} (hbare : e.bare = f.bare)
    (hface : e.tokens.map Token.face = f.tokens.map Token.face) :
    Trivia.sameLineComment? e.leadingTrivia = Trivia.sameLineComment? f.leadingTrivia ∧
      Trivia.ownLineComments e.leadingTrivia = Trivia.ownLineComments f.leadingTrivia := by
  obtain ⟨hitems, hface, -⟩ := face_items_eq hbare hface
  unfold leadingTrivia
  cases he : e.items with
  | nil =>
      cases hf : f.items with
      | nil => exact ⟨rfl, rfl⟩
      | cons j js => rw [he, hf] at hitems; cases hitems
  | cons i is =>
      rw [he] at hitems hface
      obtain ⟨j, js, hf, hij, -⟩ := bareItems_cons hitems
      rw [hf] at hface ⊢
      simp only [tokensOfItems_cons] at hface
      have hfirst := Item.face_firstToken_eq (map_append_inj hface (Item.length_tokens_eq hij)).1
      exact ⟨sameLineComment?_eq_of_face hfirst, ownLineComments_eq_of_face hfirst⟩

end Element

theorem triviaAfter_eq {es fs : List Element} {closing closing' : Token}
    (hbare : bareElements es = bareElements fs)
    (hface : (tokensOfElements es).map Token.face = (tokensOfElements fs).map Token.face)
    (hclosing : closing.face = closing'.face) :
    Trivia.sameLineComment? (triviaAfter closing.trivia es) =
      Trivia.sameLineComment? (triviaAfter closing'.trivia fs) := by
  cases es with
  | nil =>
      cases fs with
      | nil => exact sameLineComment?_eq_of_face hclosing
      | cons f fs => cases hbare
  | cons e es =>
      obtain ⟨f, fs, rfl, hef, -⟩ := bareElements_cons hbare
      simp only [tokensOfElements] at hface
      exact (Element.leadingTrivia_eq hef
        (map_append_inj hface (Element.length_tokens_eq hef)).1).1

namespace Group

theorem hasTrailingComma_bare (g : Group) : g.bare.hasTrailingComma = g.hasTrailingComma := by
  unfold hasTrailingComma
  rw [elements_bare, List.getLast?_map]
  cases g.elements.getLast? with
  | none => rfl
  | some e => cases e with | mk items comma => cases comma <;> rfl

theorem isComprehension_bare (g : Group) : g.bare.isComprehension = g.isComprehension := by
  unfold isComprehension
  rw [elements_bare]
  match g.elements with
  | [] => rfl
  | [e] =>
      simp only [List.map_cons, List.map_nil, Element.items_bare, ← List.map_drop, List.any_map]
      congr 1
      funext i
      simp
  | _ :: _ :: _ => rfl

theorem isTupleLike_bare (g : Group) : g.bare.isTupleLike = g.isTupleLike := by
  simp [isTupleLike]

theorem commaWhenExploded_bare (style : Style) (g : Group) :
    g.bare.commaWhenExploded style = g.commaWhenExploded style := by
  simp [commaWhenExploded, isTupleLike_bare, isComprehension_bare, hasTrailingComma_bare]

@[simp] theorem sortable_bare (g : Group) : g.bare.sortable = g.sortable := by cases g; rfl

theorem face_parts_eq {g g' : Group} (hbare : g.bare = g'.bare)
    (hface : g.tokens.map Token.face = g'.tokens.map Token.face) :
    g.opening.face = g'.opening.face ∧ g.closing.face = g'.closing.face ∧
      bareElements g.elements = bareElements g'.elements ∧
      (tokensOfElements g.elements).map Token.face = (tokensOfElements g'.elements).map Token.face := by
  obtain ⟨opening, elements, closing, kind, sortable⟩ := g
  obtain ⟨opening', elements', closing', kind', sortable'⟩ := g'
  have helements : bareElements elements = bareElements elements' := congrArg Group.elements hbare
  rw [Group.tokens, Group.tokens, List.map_cons, List.map_cons] at hface
  obtain ⟨hopening, hrest⟩ := List.cons.inj hface
  obtain ⟨hleft, hright⟩ := map_append_inj hrest (length_tokensOfElements_eq helements)
  exact ⟨hopening, (List.cons.inj hright).1, helements, hleft⟩

theorem bracketOf_eq {g g' : Group} (hbare : g.bare = g'.bare)
    (hface : g.tokens.map Token.face = g'.tokens.map Token.face) (style : Style) (spaced : Bool)
    (slots : List Slot) : g.bracketOf style spaced slots = g'.bracketOf style spaced slots := by
  have hsortable : g.sortable = g'.sortable := by rw [← sortable_bare, hbare, sortable_bare]
  have htuple : g.isTupleLike = g'.isTupleLike := by
    rw [← isTupleLike_bare, hbare, isTupleLike_bare]
  have htrailing : g.hasTrailingComma = g'.hasTrailingComma := by
    rw [← hasTrailingComma_bare, hbare, hasTrailingComma_bare]
  have hcomma : g.commaWhenExploded style = g'.commaWhenExploded style := by
    rw [← commaWhenExploded_bare, hbare, commaWhenExploded_bare]
  obtain ⟨hopening, hclosing, helements, hinner⟩ := face_parts_eq hbare hface
  unfold bracketOf
  simp only [hsortable, htuple, htrailing, hcomma, text_eq_of_face hopening,
    text_eq_of_face hclosing, triviaAfter_eq helements hinner hclosing,
    ownLineComments_eq_of_face hclosing]

end Group

theorem slotOf_eq {e f : Element} (hbare : e.bare = f.bare)
    (hface : e.tokens.map Token.face = f.tokens.map Token.face) (kind : GroupKind)
    {following following' : Text}
    (hfollowing : Trivia.sameLineComment? following = Trivia.sameLineComment? following')
    (chunks : List Chunk) : e.slotOf kind following chunks = f.slotOf kind following' chunks := by
  obtain ⟨hitems, hinner, hcomma⟩ := Element.face_items_eq hbare hface
  unfold Element.slotOf
  rw [Element.keyword?_eq hbare, (Element.leadingTrivia_eq hbare hface).2,
    innerComments_eq hitems hinner, hfollowing, Element.sortKey?_eq hbare]
  cases he : e.comma with
  | none =>
      cases hf : f.comma with
      | none => rfl
      | some comma' => simp [he, hf] at hcomma
  | some comma =>
      cases hf : f.comma with
      | none => simp [he, hf] at hcomma
      | some comma' =>
          rw [he, hf] at hcomma
          simp only [comments_eq_of_face (Option.some.inj hcomma)]

mutual

/-- Items that look alike have the same chunks. -/
theorem chunksOf_eq (style : Style) : ∀ {is js : List Item}, bareItems is = bareItems js →
    (tokensOfItems is).map Token.face = (tokensOfItems js).map Token.face →
    ∀ (spacer : Spacer) (run : List Text), chunksOf style spacer run is = chunksOf style spacer run js
  | [], js, hbare, _, spacer, run => by
      cases js with
      | nil => rfl
      | cons j js => cases hbare
  | .token t :: is, js, hbare, hface, spacer, run => by
      obtain ⟨j, js, rfl, hij, hrest⟩ := bareItems_cons hbare
      cases j with
      | group g => cases hij
      | token u =>
          simp only [tokensOfItems_cons, tokens_token] at hface
          obtain ⟨hhead, htail⟩ := map_append_inj hface rfl
          have htext : t.text = u.text := text_eq_of_face (List.cons.inj hhead).1
          have hkind : t.kind = u.kind := congrArg (fun i : Item => i.firstToken.kind) hij
          simp only [chunksOf, hkind, htext, chunksOf_eq style hrest htail]
  | .group g :: is, js, hbare, hface, spacer, run => by
      obtain ⟨j, js, rfl, hij, hrest⟩ := bareItems_cons hbare
      cases j with
      | token u => cases hij
      | group g' =>
          have hgroup : g.bare = g'.bare := by simpa using hij
          simp only [tokensOfItems_cons, tokens_group] at hface
          obtain ⟨hhead, htail⟩ := map_append_inj hface (by simpa using Item.length_tokens_eq hij)
          have hkind : g.kind = g'.kind := by rw [← Group.kind_bare, hgroup, Group.kind_bare]
          simp only [chunksOf, hkind, bracket_eq style hgroup hhead, chunksOf_eq style hrest htail]

theorem bracket_eq (style : Style) : ∀ {g g' : Group}, g.bare = g'.bare →
    g.tokens.map Token.face = g'.tokens.map Token.face →
    ∀ spaced : Bool, g.bracket style spaced = g'.bracket style spaced
  | ⟨opening, elements, closing, kind, sortable⟩, ⟨opening', elements', closing', kind', sortable'⟩,
      hbare, hface, spaced => by
      obtain ⟨-, hclosing, helements, hinner⟩ := Group.face_parts_eq hbare hface
      have hkind : kind = kind' := congrArg Group.kind hbare
      rw [Group.bracket, Group.bracket, Group.bracketOf_eq hbare hface, hkind,
        slotsOf_eq style helements hinner hclosing]

theorem slotsOf_eq (style : Style) : ∀ {es fs : List Element} {kind : GroupKind}
    {closing closing' : Token}, bareElements es = bareElements fs →
    (tokensOfElements es).map Token.face = (tokensOfElements fs).map Token.face →
    closing.face = closing'.face →
    slotsOf style kind closing.trivia es = slotsOf style kind closing'.trivia fs
  | [], fs, kind, closing, closing', hbare, _, _ => by
      cases fs with
      | nil => simp [slotsOf]
      | cons f fs => cases hbare
  | e :: es, fs, kind, closing, closing', hbare, hface, hclosing => by
      obtain ⟨f, fs, rfl, hef, hrest⟩ := bareElements_cons hbare
      simp only [tokensOfElements] at hface
      obtain ⟨hhead, htail⟩ := map_append_inj hface (Element.length_tokens_eq hef)
      rw [slotsOf, slotsOf, slot_eq style hef hhead kind (triviaAfter_eq hrest htail hclosing),
        slotsOf_eq style hrest htail hclosing]

theorem slot_eq (style : Style) : ∀ {e f : Element}, e.bare = f.bare →
    e.tokens.map Token.face = f.tokens.map Token.face → ∀ (kind : GroupKind)
    {following following' : Text},
    Trivia.sameLineComment? following = Trivia.sameLineComment? following' →
    e.slot style kind following = f.slot style kind following'
  | ⟨items, comma⟩, ⟨items', comma'⟩, hbare, hface, kind, following, following', hfollowing => by
      obtain ⟨hitems, hinner, -⟩ := Element.face_items_eq hbare hface
      rw [Element.slot, Element.slot]
      simp only [Element.keyword?_eq hbare, chunksOf_eq style hitems hinner]
      exact slotOf_eq hbare hface kind hfollowing _

end

theorem map_face_eq {ts us : List Token} (hwords : ∀ t ∈ ts, t.kind.isWord = true)
    (hbare : ts.map Token.bare = us.map Token.bare)
    (hremarks : ts.map Token.remarks = us.map Token.remarks) :
    ts.map Token.face = us.map Token.face := by
  induction ts generalizing us with
  | nil =>
      cases us with
      | nil => rfl
      | cons u us => cases hbare
  | cons t ts ih =>
      cases us with
      | nil => cases hbare
      | cons u us =>
          simp only [List.map_cons, List.cons.injEq] at hbare hremarks ⊢
          have htext : t.text = u.text :=
            text_eq_of_shape (shape_eq_of_bare hbare.1) (hwords t (by simp))
          refine ⟨Prod.ext htext hremarks.1, ?_⟩
          exact ih (fun v hv => hwords v (by simp [hv])) hbare.2 hremarks.2

/-! ## Logical lines -/

namespace Item

theorem tokens_mapFirst (f : Token → Token) (i : Item) :
    (i.mapFirst f).tokens = f i.firstToken :: i.tokens.tail := by
  cases i with
  | token t => simp [mapFirst, firstToken]
  | group g => cases g; simp [mapFirst, firstToken, Group.tokens]

theorem bare_mapFirst (trivia : Text) (i : Item) : (i.mapFirst (·.withTrivia trivia)).bare = i.bare := by
  cases i with
  | token t => rfl
  | group g => cases g; rfl

end Item

/-- What stands before the first token of a line is not part of its chunks. -/
theorem chunksOf_mapFirst (style : Style) (spacer : Spacer) (run : List Text) (trivia : Text)
    (i : Item) (is : List Item) :
    chunksOf style spacer run (i.mapFirst (·.withTrivia trivia) :: is) =
      chunksOf style spacer run (i :: is) := by
  cases i with
  | token t => simp only [Item.mapFirst, chunksOf, Token.withTrivia]
  | group g =>
      obtain ⟨opening, elements, closing, kind, sortable⟩ := g
      simp only [Item.mapFirst, chunksOf, Group.bracket, Token.withTrivia]
      rfl

theorem length_lineLeads (items : List Item) (newline : Token) :
    (lineLeads items newline).length = (tokensOfItems items).length + 1 := by
  unfold lineLeads
  cases tokensOfItems items <;> simp

section LogicalLine

variable {is js : List Item} {newline newline' : Token} (hbare : bareItems is = bareItems js)
  (hwords : ItemsWellFormed is) (hleads : lineLeads is newline = lineLeads js newline')
include hbare hwords hleads

/-- Lines that differ in spacing only have the same rows. -/
theorem headerRows_eq (style : Style) (depth : Nat) :
    headerRows style depth is newline = headerRows style depth js newline' := by
  cases is with
  | nil =>
      cases js with
      | cons j js => cases hbare
      | nil =>
          have hcomment := (Lead.remarks.inj (List.cons.inj hleads).1).1
          simp only [headerRows, printLine, hcomment]
  | cons i is =>
      obtain ⟨j, js, rfl, hij, hrest⟩ := bareItems_cons hbare
      have htokens := congrArg tokensOfItems hbare
      rw [tokensOfItems_bare, tokensOfItems_bare] at htokens
      have hwords := isWord_of_mem_items hwords
      obtain ⟨ts, hts⟩ := i.exists_tokens_eq
      obtain ⟨us, hus⟩ := j.exists_tokens_eq
      simp only [lineLeads, tokensOfItems_cons, hts, hus, List.cons_append, List.map_cons,
        List.cons.injEq] at hleads htokens hwords
      obtain ⟨hrows, hremarks⟩ := hleads
      have hlines := Lead.rows.inj hrows
      obtain ⟨hinner, hend⟩ := map_append_inj hremarks (by simpa using congrArg List.length htokens.2)
      have hcomment := (Lead.remarks.inj (List.cons.inj hend).1).1
      have htext : i.firstToken.text = j.firstToken.text :=
        text_eq_of_shape (shape_eq_of_bare htokens.1) (hwords _ (by simp))
      -- The trivia before the first token is printed above the line, so it is left out here.
      have hbare' : bareItems (i.mapFirst (·.withTrivia []) :: is) =
          bareItems (j.mapFirst (·.withTrivia []) :: js) := by
        rw [bareItems, bareItems, Item.bare_mapFirst, Item.bare_mapFirst, hij, hrest]
      have hface : (tokensOfItems (i.mapFirst (·.withTrivia []) :: is)).map Token.face =
          (tokensOfItems (j.mapFirst (·.withTrivia []) :: js)).map Token.face := by
        have hfirst : (i.firstToken.withTrivia []).face = (j.firstToken.withTrivia []).face :=
          Prod.ext htext rfl
        have htail := map_face_eq (fun t ht => hwords t (by simp [ht])) htokens.2 hinner
        rw [tokensOfItems_cons, tokensOfItems_cons, Item.tokens_mapFirst, Item.tokens_mapFirst, hts,
          hus]
        simpa [hfirst] using htail
      have hchunks : lineChunks style (i :: is) = lineChunks style (j :: js) := by
        rw [lineChunks, lineChunks, ← chunksOf_mapFirst style _ [] [] i is,
          ← chunksOf_mapFirst style _ [] [] j js, chunksOf_eq style hbare' hface]
      have hcomments : innerComments (i :: is) = innerComments (j :: js) :=
        (innerComments_eq hbare' hface :)
      simp only [headerRows, triviaRows, printLine, hlines, hcomment, hchunks, hcomments]

end LogicalLine

/-! ## Statements -/

mutual

theorem Statement.tokens_bare : ∀ s : Statement, s.bare.tokens = s.tokens.map Token.bare
  | .simple line => by
      simp [Statement.bare, Statement.tokens, Line.tokens, Line.bare, tokensOfItems_bare]
  | .compound signature header newline block => by
      simp [Statement.bare, Statement.tokens, tokensOfItems_bare, block.tokens_bare]

theorem Block.tokens_bare : ∀ b : Block, b.bare.tokens = b.tokens.map Token.bare
  | ⟨indent, body, dedent⟩ => by simp [Block.bare, Block.tokens, tokensOfBody_bare body]

theorem tokensOfBody_bare : ∀ ss : List Statement,
    tokensOfBody (bareBody ss) = (tokensOfBody ss).map Token.bare
  | [] => rfl
  | s :: ss => by simp [bareBody, tokensOfBody, s.tokens_bare, tokensOfBody_bare ss]

end

mutual

theorem Statement.length_leads : ∀ s : Statement, s.leads.length = s.tokens.length
  | .simple line => by simp [Statement.leads, Statement.tokens, Line.tokens, length_lineLeads]
  | .compound signature header newline block => by
      simp [Statement.leads, Statement.tokens, length_lineLeads, block.length_leads]
      omega

theorem Block.length_leads : ∀ b : Block, b.leads.length = b.tokens.length
  | ⟨indent, body, dedent⟩ => by simp [Block.leads, Block.tokens, length_leadsOf body]

theorem length_leadsOf : ∀ ss : List Statement, (leadsOf ss).length = (tokensOfBody ss).length
  | [] => rfl
  | s :: ss => by simp [leadsOf, tokensOfBody, s.length_leads, length_leadsOf ss]

end

mutual

theorem Statement.rows_eq (style : Style) : ∀ {s t : Statement}, s.bare = t.bare → s.WellFormed →
    s.leads = t.leads → ∀ depth : Nat, s.rows style depth = t.rows style depth
  | .simple line, .simple line', hbare, hs, hleads, depth => by
      have hitems : bareItems line.items = bareItems line'.items := by
        injection hbare with hline
        exact congrArg Line.items hline
      exact headerRows_eq hitems hs.1.wellFormed hleads style depth
  | .compound signature header newline block, .compound signature' header' newline' block', hbare,
      hs, hleads, depth => by
      injection hbare with _ hheader _ hblock
      obtain ⟨hwell, -, original, horiginal, -, hcompound⟩ := hs
      have hlength : (lineLeads header newline).length = (lineLeads header' newline').length := by
        rw [length_lineLeads, length_lineLeads, length_tokensOfItems_eq hheader]
      obtain ⟨hline, hrest⟩ := List.append_inj hleads hlength
      have hwords := itemsWellFormed_header horiginal.wellFormed hcompound
      rw [Statement.rows, Statement.rows, headerRows_eq hheader hwords hline style depth,
        Block.rows_eq style hblock hwell hrest]
  | .simple _, .compound .., hbare, _, _, _ => by cases hbare
  | .compound .., .simple _, hbare, _, _, _ => by cases hbare

theorem Block.rows_eq (style : Style) : ∀ {b c : Block}, b.bare = c.bare → b.WellFormed →
    b.leads = c.leads → ∀ depth : Nat, b.rows style depth = c.rows style depth
  | ⟨indent, body, dedent⟩, ⟨indent', body', dedent'⟩, hbare, hb, hleads, depth => by
      injection hbare with _ hbody _
      obtain ⟨-, -, -, hwell⟩ := hb
      obtain ⟨hinner, hend⟩ := List.append_inj' (List.cons.inj hleads).2 rfl
      have hlines : Trivia.lines dedent.trivia = Trivia.lines dedent'.trivia :=
        Lead.rows.inj (List.cons.inj hend).1
      rw [Block.rows, Block.rows, rowsOf_eq style hbody hwell hinner, triviaRows, hlines, triviaRows]

/-- Statements that differ in spacing only have the same rows. -/
theorem rowsOf_eq (style : Style) : ∀ {ss ts : List Statement}, bareBody ss = bareBody ts →
    BodyWellFormed ss → leadsOf ss = leadsOf ts → ∀ depth : Nat,
    rowsOf style depth ss = rowsOf style depth ts
  | [], [], _, _, _, _ => rfl
  | s :: ss, t :: ts, hbare, hss, hleads, depth => by
      injection hbare with hst hrest
      have hlength : s.leads.length = t.leads.length := by
        rw [s.length_leads, t.length_leads]
        simpa [Statement.tokens_bare] using congrArg (fun u => u.tokens.length) hst
      obtain ⟨hhead, htail⟩ := List.append_inj hleads hlength
      rw [rowsOf, rowsOf, Statement.rows_eq style hst hss.1 hhead,
        rowsOf_eq style hrest hss.2 htail]
  | [], _ :: _, hbare, _, _, _ => by cases hbare
  | _ :: _, [], hbare, _, _, _ => by cases hbare

end

/-! ## Line terminators -/

def isTerminator (u : TokenKind × Text) : Bool := u.1 == .newline && !u.2.isEmpty

def firstTerminator? (ts : List Token) : Option Text :=
  ((ts.map Token.spelling).find? isTerminator).map Prod.snd

theorem firstTerminator?_append (ts us : List Token) :
    firstTerminator? (ts ++ us) = (firstTerminator? ts <|> firstTerminator? us) := by
  simp only [firstTerminator?, List.map_append, List.find?_append]
  cases (ts.map Token.spelling).find? isTerminator <;> rfl

theorem firstTerminator?_of_not {ts : List Token} (h : ∀ t ∈ ts, t.kind ≠ .newline) :
    firstTerminator? ts = none := by
  have hfind : (ts.map Token.spelling).find? isTerminator = none := by
    rw [List.find?_eq_none]
    intro u hu
    obtain ⟨t, ht, rfl⟩ := List.mem_map.mp hu
    simp [isTerminator, Token.spelling, h t ht]
  rw [firstTerminator?, hfind]
  rfl

theorem firstTerminator?_line {items : List Item} (hitems : ItemsWellFormed items) {newline : Token}
    (hnewline : newline.kind = .newline) (ts : List Token) :
    firstTerminator? (tokensOfItems items ++ newline :: ts) =
      if newline.text.isEmpty then firstTerminator? ts else some newline.text := by
  have hwords : ∀ t ∈ tokensOfItems items, t.kind ≠ .newline := by
    intro t ht hkind
    have hword := isWord_of_mem_items hitems t ht
    rw [hkind] at hword
    cases hword
  rw [firstTerminator?_append, firstTerminator?_of_not hwords]
  cases hempty : newline.text.isEmpty <;>
    simp [firstTerminator?, Token.spelling, isTerminator, hnewline, hempty]

mutual

theorem Statement.lineBreak?_eq : ∀ {s : Statement}, s.WellFormed →
    s.lineBreak? = firstTerminator? s.tokens
  | .simple ⟨items, newline, reformat⟩, hs => by
      obtain ⟨hitems, -, hnewline⟩ := hs
      rw [Statement.lineBreak?, Statement.tokens, Line.tokens,
        firstTerminator?_line hitems.wellFormed hnewline.1]
      rfl
  | .compound signature header newline block, hs => by
      obtain ⟨hblock, hnewline, original, horiginal, -, hcompound⟩ := hs
      have hheader := itemsWellFormed_header horiginal.wellFormed hcompound
      rw [Statement.lineBreak?, Statement.tokens, firstTerminator?_line hheader hnewline.1,
        Block.lineBreak?_eq hblock]

theorem Block.lineBreak?_eq : ∀ {b : Block}, b.WellFormed → b.lineBreak? = firstTerminator? b.tokens
  | ⟨indent, body, dedent⟩, hb => by
      obtain ⟨hindent, hdedent, -, hbody⟩ := hb
      have hopen : firstTerminator? [indent] = none := firstTerminator?_of_not (by simp [hindent])
      have hclose : firstTerminator? [dedent] = none := firstTerminator?_of_not (by simp [hdedent])
      rw [Block.lineBreak?, Block.tokens, ← List.singleton_append, firstTerminator?_append, hopen,
        firstTerminator?_append, hclose, lineBreakOf?_eq hbody]
      cases firstTerminator? (tokensOfBody body) <;> rfl

theorem lineBreakOf?_eq : ∀ {ss : List Statement}, BodyWellFormed ss →
    lineBreakOf? ss = firstTerminator? (tokensOfBody ss)
  | [], _ => rfl
  | s :: ss, hss => by
      rw [lineBreakOf?, tokensOfBody, firstTerminator?_append, Statement.lineBreak?_eq hss.1,
        lineBreakOf?_eq hss.2]

end

/-! ## Main statement -/

theorem Module.leads_append {m m' : Module} (h : m.leads = m'.leads) :
    leadsOf m.body = leadsOf m'.body ∧
      Trivia.lines m.endMarker.trivia = Trivia.lines m'.endMarker.trivia := by
  obtain ⟨hbody, hend⟩ := List.append_inj' h rfl
  exact ⟨hbody, Lead.rows.inj (List.cons.inj hend).1⟩

/-- Canonical printing does not depend on spacing: two sources with tokens of the same kinds and texts,
and with the same comments and blank lines before them, are printed alike. -/
theorem print_respaced {source₁ source₂ : Text} {m₁ m₂ : Module} (h₁ : parse source₁ = .ok m₁)
    (h₂ : parse source₂ = .ok m₂)
    (hspelling : m₁.tokens.map Token.spelling = m₂.tokens.map Token.spelling)
    (hleads : m₁.leads = m₂.leads) {style : Style} (hmode : style.mode = .canonical) :
    m₁.print style = m₂.print style := by
  have hshape : m₁.tokens.map Token.shape = m₂.tokens.map Token.shape := by
    have hfactor : Token.shape =
        (fun u : Shape => (u.1, if u.1.isWord then u.2 else [])) ∘ Token.spelling := rfl
    rw [hfactor, ← List.map_map, hspelling, List.map_map]
  have hbare : bareBody m₁.body = bareBody m₂.body :=
    congrArg Module.body (bare_parse_eq h₁ h₂ hshape)
  have hwell := parse_wellFormed h₁
  obtain ⟨hbody, hend⟩ := Module.leads_append hleads
  have hbreaks : lineBreakOf? m₁.body = lineBreakOf? m₂.body := by
    rw [Module.tokens, Module.tokens, List.map_append, List.map_append] at hspelling
    rw [lineBreakOf?_eq hwell, lineBreakOf?_eq (parse_wellFormed h₂), firstTerminator?,
      firstTerminator?, (List.append_inj' hspelling rfl).1]
  simp only [Module.print, hmode, Module.printCanonical, Module.lineBreak, hbreaks, triviaRows,
    rowsOf_eq style hbare hwell hbody, hend]

/-- A source with wide indentation, blanks around brackets and a broken line. -/
def looseSource : Text :=
  ("# a\n\nclass  S ( B ) :   # b\n        x = [ 1 ,# c\n\n           2 ]\n" ++
    "        y = f( k = 'v' \\\n   'w' )\n        # d\n").toList

/-- The tokens, comments and blank lines of `looseSource` in other spacing. -/
def denseSource : Text :=
  "# a\n   \nclass S(B):# b\n\tx=[1,   # c\n2\n]\n\ty=f(k='v''w')\n\t# d\n".toList

theorem print_respaced_looseSource :
    ∃ m₁ m₂, parse looseSource = .ok m₁ ∧ parse denseSource = .ok m₂ ∧
      looseSource ≠ denseSource ∧ m₁.print {} = m₂.print {} := by
  have hsource : ((parse looseSource).toOption.any fun m₁ =>
      (parse denseSource).toOption.any fun m₂ =>
        m₁.tokens.map Token.spelling = m₂.tokens.map Token.spelling && m₁.leads = m₂.leads) =
      true := by
    decide +kernel
  cases hm₁ : parse looseSource with
  | error e => simp [hm₁, Except.toOption] at hsource
  | ok m₁ =>
      cases hm₂ : parse denseSource with
      | error e => simp [hm₁, hm₂, Except.toOption] at hsource
      | ok m₂ =>
          simp only [hm₁, hm₂, Except.toOption, Option.any_some, Bool.and_eq_true,
            decide_eq_true_eq] at hsource
          exact ⟨m₁, m₂, rfl, rfl, by decide, print_respaced hm₁ hm₂ hsource.1 hsource.2 rfl⟩

end SchemaTidy
