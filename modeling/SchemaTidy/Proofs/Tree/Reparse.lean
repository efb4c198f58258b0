import Mathlib.Data.List.Forall2
import SchemaTidy.Proofs.Tree.Reprint

/-!
# Parsing a print

The parser accepts every token sequence that a print of a well-formed module may have. Inside of
brackets only the scope matters: a print leads from the same scope to the same scope as the items do.
Outside, a print gives a line that is like the line, so it ends, opens a block and declares a class
wherever the line does.
-/

namespace SchemaTidy

section Congruence

variable {t u : Token} (h : t.shape = u.shape)
include h

theorem kind_eq_of_shape : t.kind = u.kind := congrArg Prod.fst h

theorem text_eq_of_shape (hkind : t.kind.isWord = true) : t.text = u.text := by
  have htext := congrArg Prod.snd h
  simpa [Token.shape, hkind, ← kind_eq_of_shape h] using htext

theorem isOp_eq_of_shape (text : String) : t.isOp text = u.isOp text := by
  by_cases hkind : t.kind = .op
  · have htext := text_eq_of_shape h (by rw [hkind]; rfl)
    rw [Token.isOp, Token.isOp, kind_eq_of_shape h, htext]
  · have hkind' : u.kind ≠ .op := kind_eq_of_shape h ▸ hkind
    rw [Token.isOp, Token.isOp, beq_false_of_ne hkind, beq_false_of_ne hkind']
    rfl

theorem isName_eq_of_shape (text : String) : t.isName text = u.isName text := by
  by_cases hkind : t.kind = .name
  · have htext := text_eq_of_shape h (by rw [hkind]; rfl)
    rw [Token.isName, Token.isName, kind_eq_of_shape h, htext]
  · have hkind' : u.kind ≠ .name := kind_eq_of_shape h ▸ hkind
    rw [Token.isName, Token.isName, beq_false_of_ne hkind, beq_false_of_ne hkind']
    rfl

theorem isIdentifier_eq_of_shape : t.isIdentifier = u.isIdentifier := by
  by_cases hkind : t.kind = .name
  · have htext := text_eq_of_shape h (by rw [hkind]; rfl)
    rw [Token.isIdentifier, Token.isIdentifier, kind_eq_of_shape h, htext]
  · have hkind' : u.kind ≠ .name := kind_eq_of_shape h ▸ hkind
    rw [Token.isIdentifier, Token.isIdentifier, beq_false_of_ne hkind, beq_false_of_ne hkind']
    rfl

theorem isOpening_eq_of_shape : t.isOpening = u.isOpening := by
  simp only [Token.isOpening, isOp_eq_of_shape h]

theorem isClosing_eq_of_shape : t.isClosing = u.isClosing := by
  simp only [Token.isClosing, isOp_eq_of_shape h]

theorem push_eq_of_shape (s : Scope) : s.push (.token t) = s.push (.token u) := by
  simp only [Scope.push, isOp_eq_of_shape h, isName_eq_of_shape h]

theorem separates_eq_of_shape (s : Scope) : s.separates t = s.separates u := by
  simp only [Scope.separates, isOp_eq_of_shape h]

end Congruence

namespace Scope

theorem begun_push (s : Scope) (i : Item) : (s.push i).begun = true := by
  cases i with
  | token t =>
      simp only [push]
      split
      · rfl
      split
      · rfl
      split <;> rfl
  | group g => rfl

theorem begun_pushAll {s : Scope} {items : List Item} (h : s.begun = true ∨ items ≠ []) :
    (s.pushAll items).begun = true := by
  induction items generalizing s with
  | nil => simpa [pushAll] using h
  | cons i is ih => exact ih (.inl (s.begun_push i))

/-- A literal leaves the scope alone, apart from beginning the element. -/
theorem push_literal (s : Scope) {t : Token} (h : t.kind = .string) :
    s.push (.token t) = { s with begun := true } := by
  simp [push, Token.isName, Token.isOp, h]

theorem pushAll_literalRun (s : Scope) {items : List Item} (h : IsLiteralRun items)
    (hne : items ≠ []) : s.pushAll items = { s with begun := true } := by
  induction items generalizing s with
  | nil => exact absurd rfl hne
  | cons i is ih =>
      obtain ⟨t, rfl, ht⟩ := h i (by simp)
      show (s.push (.token t)).pushAll is = _
      rw [push_literal s ht]
      cases is with
      | nil => rfl
      | cons j js => exact ih _ (fun k hk => h k (by simp [hk])) (by simp)

end Scope

namespace OpenGroup

/-- The group has grown inside: bracket and kind are the same. -/
def Grows (g g' : OpenGroup) : Prop := g'.opening = g.opening ∧ g'.kind = g.kind

theorem Grows.refl (g : OpenGroup) : g.Grows g := ⟨rfl, rfl⟩

theorem Grows.trans {g g' g'' : OpenGroup} (h : g.Grows g') (h' : g'.Grows g'') : g.Grows g'' :=
  ⟨h'.1.trans h.1, h'.2.trans h.2⟩

end OpenGroup

namespace ParseState

variable {blocks : List OpenBlock} {body : List Statement} {pending : Option (List Item × Token)}
  {line : List Item} {outer : List OpenGroup}

theorem feedAll_of_feed {s s' : ParseState} {t : Token} (h : s.feed t = .ok (.inl s'))
    (ts : List Token) : s.feedAll (t :: ts) = s'.feedAll ts := by
  rw [feedAll, h]

theorem feedAll_leaf {g : OpenGroup} {t : Token} (hkind : t.kind.isWord = true)
    (hopening : t.isOpening = false) (hclosing : t.isClosing = false)
    (hseparates : g.scope.separates t = false) (rest : List Token) :
    feedAll ⟨blocks, body, pending, line, g :: outer⟩ (t :: rest) =
      feedAll ⟨blocks, body, pending, line, g.pushToken t :: outer⟩ rest := by
  refine feedAll_of_feed ?_ rest
  have hend : (t.kind == .endMarker) = false := by
    cases hk : t.kind <;> simp [hk, TokenKind.isWord] at hkind ⊢
  rw [OpenGroup.separates_scope] at hseparates
  simp [feed, feedGroup, hclosing, hend, hseparates, hopening, Except.map]

theorem feedAll_comma {g : OpenGroup} {t : Token} (hbegun : g.scope.begun = true)
    (hseparates : g.scope.separates t = true) (rest : List Token) :
    feedAll ⟨blocks, body, pending, line, g :: outer⟩ (t :: rest) =
      feedAll ⟨blocks, body, pending, line, g.pushComma t :: outer⟩ rest := by
  refine feedAll_of_feed ?_ rest
  have hshape := shape_of_separates hseparates
  have hkind : t.kind = .op := congrArg Prod.fst hshape
  have hclosing : t.isClosing = false := by
    rw [isClosing_eq_of_shape (u := .ofOp ",") hshape]
    rfl
  have hcurrent : g.current.isEmpty = false := by simpa [OpenGroup.scope] using hbegun
  rw [OpenGroup.separates_scope] at hseparates
  simp [feed, feedGroup, hclosing, hkind, hseparates, hcurrent, Except.map]

theorem feedAll_opening {g : OpenGroup} {t : Token} (h : t.isOpening = true) (rest : List Token) :
    feedAll ⟨blocks, body, pending, line, g :: outer⟩ (t :: rest) =
      feedAll ⟨blocks, body, pending, line, .ofToken t g.current.getLast? :: g :: outer⟩ rest := by
  refine feedAll_of_feed ?_ rest
  obtain ⟨c, hc, hkind, htext, -⟩ := bracketsAfter_of_isOpening h []
  have hclosing : t.isClosing = false := by
    rcases hc with rfl | rfl | rfl <;> simp [Token.isClosing, Token.isOp, htext]
  have hseparates : g.separates t = false := by
    rcases hc with rfl | rfl | rfl <;> simp [OpenGroup.separates, Token.isOp, htext]
  simp [feed, feedGroup, hclosing, hkind, hseparates, h, Except.map]

theorem feedAll_closing {g k : OpenGroup} {t : Token} (h : t.isClosing = true)
    (rest : List Token) :
    feedAll ⟨blocks, body, pending, line, g :: k :: outer⟩ (t :: rest) =
      feedAll ⟨blocks, body, pending, line, k.pushGroup (g.close t) :: outer⟩ rest := by
  refine feedAll_of_feed ?_ rest
  simp [feed, feedGroup, h, Except.map]

theorem feedAll_closingLast {g : OpenGroup} {t : Token} (h : t.isClosing = true)
    (rest : List Token) :
    feedAll ⟨blocks, body, pending, line, [g]⟩ (t :: rest) =
      feedAll ⟨blocks, body, pending, line ++ [.group (g.close t)], []⟩ rest := by
  refine feedAll_of_feed ?_ rest
  simp [feed, feedGroup, h, Except.map, pushItem]

theorem feedAll_literals {items : List Item} (hitems : IsLiteralRun items) (g : OpenGroup)
    {ts : List Token} (hts : ts.map Token.shape = shapesOf items) :
    ∃ g', g.Grows g' ∧ g'.scope = g.scope.pushAll items ∧ ∀ rest,
      feedAll ⟨blocks, body, pending, line, g :: outer⟩ (ts ++ rest) =
        feedAll ⟨blocks, body, pending, line, g' :: outer⟩ rest := by
  induction items generalizing g ts with
  | nil =>
      obtain rfl : ts = [] := by simpa [shapesOf] using hts
      exact ⟨g, .refl g, rfl, fun rest => rfl⟩
  | cons i is ih =>
      obtain ⟨u, rfl, hu⟩ := hitems i (by simp)
      cases ts with
      | nil => simp [shapesOf] at hts
      | cons t ts =>
          obtain ⟨hshape, hts⟩ : t.shape = u.shape ∧ ts.map Token.shape = shapesOf is := by
            simpa [shapesOf] using hts
          have hkind : t.kind = .string := (kind_eq_of_shape hshape).trans hu
          have hleaf : t.isOpening = false ∧ t.isClosing = false ∧
              g.scope.separates t = false := by
            simp [Token.isOpening, Token.isClosing, Scope.separates, Token.isOp, hkind]
          obtain ⟨g', hgrows, hscope, hfeed⟩ :=
            ih (fun j hj => hitems j (by simp [hj])) (g.pushToken t) hts
          obtain ⟨-, -, hopen, hgkind⟩ := g.current_pushToken t
          refine ⟨g', OpenGroup.Grows.trans ⟨hopen, hgkind⟩ hgrows, ?_, fun rest => ?_⟩
          · rw [hscope, g.scope_pushToken, push_eq_of_shape hshape]
            rfl
          · rw [List.cons_append, feedAll_leaf (by rw [hkind]; rfl) hleaf.1 hleaf.2.1 hleaf.2.2]
            exact hfeed rest

end ParseState

theorem MatchingBrackets.isOpening {opening closing t : Token} (h : MatchingBrackets opening closing)
    (ht : t.shape = opening.shape) : t.isOpening = true := by
  obtain ⟨hkind, -, c, hc, htext, -⟩ := h
  rw [isOpening_eq_of_shape ht]
  rcases hc with rfl | rfl | rfl <;> simp [Token.isOpening, Token.isOp, hkind, htext]

theorem MatchingBrackets.isClosing {opening closing t : Token} (h : MatchingBrackets opening closing)
    (ht : t.shape = closing.shape) : t.isClosing = true := by
  obtain ⟨-, hkind, c, hc, -, htext⟩ := h
  rw [isClosing_eq_of_shape ht]
  rcases hc with rfl | rfl | rfl <;>
    simp [Token.isClosing, Token.isOp, hkind, htext, Cursor.matching]

namespace ParseState

variable {blocks : List OpenBlock} {body : List Statement} {pending : Option (List Item × Token)}
  {line : List Item}

/-- A comma behind the last element is read, whether it separates or not. -/
theorem feedAll_lastComma {outer : List OpenGroup} {g : OpenGroup} {t : Token}
    (hbegun : g.scope.begun = true) (ht : t.shape = .comma) :
    ∃ g', g.Grows g' ∧ ∀ rest, feedAll ⟨blocks, body, pending, line, g :: outer⟩ (t :: rest) =
      feedAll ⟨blocks, body, pending, line, g' :: outer⟩ rest := by
  cases hseparates : g.scope.separates t with
  | true => exact ⟨g.pushComma t, ⟨rfl, rfl⟩, feedAll_comma hbegun hseparates⟩
  | false =>
      have hcomma : t.shape = (Token.ofOp ",").shape := ht
      obtain ⟨-, -, hopen, hkind⟩ := g.current_pushToken t
      refine ⟨g.pushToken t, ⟨hopen, hkind⟩, feedAll_leaf ?_ ?_ ?_ hseparates⟩
      · rw [kind_eq_of_shape hcomma]
        rfl
      · rw [isOpening_eq_of_shape hcomma]
        rfl
      · rw [isClosing_eq_of_shape hcomma]
        rfl

mutual

theorem feedAll_item : ∀ {i : Item} {us : List Shape} (outer : List OpenGroup) (g : OpenGroup)
    {ts : List Token}, i.WellFormed → i.Prints us →
    (∀ t, i = .token t → g.scope.separates t = false) → ts.map Token.shape = us →
    ∃ g', g.Grows g' ∧ g'.scope = g.scope.push i ∧ ∀ rest,
      feedAll ⟨blocks, body, pending, line, g :: outer⟩ (ts ++ rest) =
        feedAll ⟨blocks, body, pending, line, g' :: outer⟩ rest
  | .token u, us, outer, g, ts, hi, hus, hadmits, hts => by
      rw [Item.Prints] at hus
      rw [hus] at hts
      obtain ⟨t, rfl, hshape⟩ := List.map_eq_singleton_iff.mp hts
      obtain ⟨hkind, -, hopening, hclosing⟩ := hi
      obtain ⟨-, -, hopen, hgkind⟩ := g.current_pushToken t
      refine ⟨g.pushToken t, ⟨hopen, hgkind⟩, ?_, feedAll_leaf ?_ ?_ ?_ ?_⟩
      · rw [g.scope_pushToken, push_eq_of_shape hshape]
      · rw [kind_eq_of_shape hshape]
        exact hkind
      · rw [isOpening_eq_of_shape hshape]
        exact hopening
      · rw [isClosing_eq_of_shape hshape]
        exact hclosing
      · rw [separates_eq_of_shape hshape]
        exact hadmits u rfl
  | .group ⟨opening, elements, closing, kind, sortable⟩, us, outer, g, ts, hi, hus, _, hts => by
      obtain ⟨hbrackets, helements, -⟩ := hi
      obtain ⟨vs, hvs, rfl⟩ := hus
      obtain ⟨t, ts, rfl, hopen, hts⟩ := List.map_eq_cons_iff.mp hts
      obtain ⟨es, ds, rfl, hes, hds⟩ := List.map_eq_append_iff.mp hts
      obtain ⟨d, rfl, hclose⟩ := List.map_eq_singleton_iff.mp hds
      obtain ⟨g', -, hfeed⟩ :=
        feedAll_elements (g :: outer) (.ofToken t g.current.getLast?) helements hvs
          rfl hes
      refine ⟨g.pushGroup (g'.close d), ⟨rfl, rfl⟩, g.scope_pushGroup _, fun rest => ?_⟩
      rw [List.cons_append, List.append_assoc, feedAll_opening (hbrackets.isOpening hopen), hfeed,
        List.singleton_append, feedAll_closing (hbrackets.isClosing hclose)]

theorem feedAll_elements : ∀ {s : Scope} {es : List Element} {us : List Shape}
    (outer : List OpenGroup) (g : OpenGroup) {ts : List Token}, ElementsWellFormed s es →
    ElementsPrint es us → g.scope = s → ts.map Token.shape = us →
    ∃ g', g.Grows g' ∧ ∀ rest,
      feedAll ⟨blocks, body, pending, line, g :: outer⟩ (ts ++ rest) =
        feedAll ⟨blocks, body, pending, line, g' :: outer⟩ rest
  | s, [], us, outer, g, ts, _, hus, _, hts => by
      rw [ElementsPrint] at hus
      obtain rfl : ts = [] := by simpa [hus] using hts
      exact ⟨g, .refl g, fun rest => rfl⟩
  | s, ⟨items, comma⟩ :: es, us, outer, g, ts, hes, hus, hscope, hts => by
      obtain ⟨⟨hne, hadmits, hitems⟩, hcomma⟩ := hes
      obtain ⟨vs, ws, hvs, rfl, hws⟩ := hus
      rw [Element.Prints] at hvs
      obtain ⟨is, cs, rfl, his, hcs⟩ := List.map_eq_append_iff.mp hts
      obtain ⟨g₁, hgrows₁, hscope₁, hfeed₁⟩ :=
        feedAll_items outer g hitems hvs (hscope ▸ hadmits) his
      have hbegun : g₁.scope.begun = true := by
        rw [hscope₁]
        exact Scope.begun_pushAll (.inr hne)
      rcases hws with ⟨rfl, rfl | rfl⟩ | ⟨hmore, ws, hws, rfl⟩
      · obtain rfl : cs = [] := by simpa using hcs
        exact ⟨g₁, hgrows₁, fun rest => by rw [List.append_assoc, hfeed₁, List.nil_append]⟩
      · obtain ⟨t, rfl, ht⟩ := List.map_eq_singleton_iff.mp hcs
        obtain ⟨g₂, hgrows₂, hfeed₂⟩ :=
          @feedAll_lastComma blocks body pending line outer g₁ t hbegun ht
        refine ⟨g₂, hgrows₁.trans hgrows₂, fun rest => ?_⟩
        rw [List.append_assoc, hfeed₁, List.singleton_append, hfeed₂]
      · cases comma with
        | none => exact absurd hcomma hmore
        | some c =>
            obtain ⟨t, ts, rfl, ht, hts⟩ := List.map_eq_cons_iff.mp hcs
            have hsame : t.shape = c.shape := ht.trans (shape_of_separates hcomma.1).symm
            have hseparates : g₁.scope.separates t = true := by
              rw [separates_eq_of_shape hsame, hscope₁, hscope]
              exact hcomma.1
            obtain ⟨g₂, hgrows₂, hfeed₂⟩ :=
              feedAll_elements outer (g₁.pushComma t) hcomma.2 hws
                (by rw [g₁.scope_pushComma, hscope₁, hscope]) hts
            refine ⟨g₂, hgrows₁.trans (OpenGroup.Grows.trans ⟨rfl, rfl⟩ hgrows₂), fun rest => ?_⟩
            rw [List.append_assoc, hfeed₁, List.cons_append, feedAll_comma hbegun hseparates, hfeed₂]

theorem feedAll_items : ∀ {is : List Item} {us : List Shape} (outer : List OpenGroup)
    (g : OpenGroup) {ts : List Token}, ItemsWellFormed is → ItemsPrint is us →
    g.scope.Admits is → ts.map Token.shape = us →
    ∃ g', g.Grows g' ∧ g'.scope = g.scope.pushAll is ∧ ∀ rest,
      feedAll ⟨blocks, body, pending, line, g :: outer⟩ (ts ++ rest) =
        feedAll ⟨blocks, body, pending, line, g' :: outer⟩ rest
  | [], us, outer, g, ts, _, hus, _, hts => by
      rw [ItemsPrint] at hus
      obtain rfl : ts = [] := by simpa [hus] using hts
      exact ⟨g, .refl g, rfl, fun rest => rfl⟩
  | i :: is, us, outer, g, ts, his, hus, hadmits, hts => by
      rcases hus with ⟨vs, ws, hvs, hws, rfl⟩ | ⟨hrun, rfl⟩
      · obtain ⟨as, bs, rfl, has, hbs⟩ := List.map_eq_append_iff.mp hts
        obtain ⟨g₁, hgrows₁, hscope₁, hfeed₁⟩ :=
          feedAll_item outer g his.1 hvs hadmits.1 has
        obtain ⟨g₂, hgrows₂, hscope₂, hfeed₂⟩ :=
          feedAll_items outer g₁ his.2 hws (hscope₁ ▸ hadmits.2) hbs
        refine ⟨g₂, hgrows₁.trans hgrows₂, ?_, fun rest => ?_⟩
        · rw [hscope₂, hscope₁]
          rfl
        · rw [List.append_assoc, hfeed₁, hfeed₂]
      · obtain ⟨t, ts, rfl, ht, hts⟩ := List.map_eq_cons_iff.mp hts
        obtain ⟨as, bs, rfl, has, hbs⟩ := List.map_eq_append_iff.mp hts
        obtain ⟨d, rfl, hd⟩ := List.map_eq_singleton_iff.mp hbs
        have hopening : t.isOpening = true := by
          rw [isOpening_eq_of_shape (u := .ofOp "(") ht]
          rfl
        have hclosing : d.isClosing = true := by
          rw [isClosing_eq_of_shape (u := .ofOp ")") hd]
          rfl
        obtain ⟨g', -, -, hfeed⟩ := @feedAll_literals blocks body pending line (g :: outer) _ hrun
          (.ofToken t g.current.getLast?) _ has
        refine ⟨g.pushGroup (g'.close d), ⟨rfl, rfl⟩, ?_, fun rest => ?_⟩
        · rw [g.scope_pushGroup, Scope.pushAll_literalRun _ hrun (by simp)]
          rfl
        · rw [List.cons_append, List.append_assoc, feedAll_opening hopening, hfeed,
            List.singleton_append, feedAll_closing hclosing]

end

end ParseState

/-! ## Lines -/

def Item.Like : Item → Item → Prop
  | .token t, .token u => t.shape = u.shape
  | .group g, .group h => g.kind = h.kind
  | _, _ => False

/-- A line and a line that a print of it gives: item by item alike, up to parentheses around literals
at the end. -/
def LineLike : List Item → List Item → Prop
  | [], [] => True
  | i :: is, j :: js =>
      (i.Like j ∧ LineLike is js) ∨ (IsLiteralRun (i :: is) ∧ ∃ g, j = .group g ∧ js = [])
  | _, _ => False

/-- Items before an opening bracket that look the same from outside. -/
def PreviousLike : Option Item → Option Item → Prop
  | none, none => True
  | some i, some j => i.Like j
  | _, _ => False

theorem followsCallable_eq {previous previous' : Option Item} (h : PreviousLike previous previous') :
    followsCallable previous = followsCallable previous' := by
  match previous, previous', h with
  | none, none, _ => rfl
  | some (.token t), some (.token u), h =>
      have hshape : t.shape = u.shape := h
      simp only [followsCallable, isIdentifier_eq_of_shape hshape, kind_eq_of_shape hshape]
  | some (.group _), some (.group _), _ => rfl

theorem groupKind_eq {opening t : Token} {previous previous' : Option Item}
    (hopening : opening.kind = .op) (ht : t.shape = opening.shape)
    (h : PreviousLike previous previous') : groupKind t previous' = groupKind opening previous := by
  have htext : t.text = opening.text :=
    text_eq_of_shape ht (by rw [kind_eq_of_shape ht, hopening]; rfl)
  simp only [groupKind, htext, followsCallable_eq h]

namespace ParseState

variable {blocks : List OpenBlock} {body : List Statement}

theorem feedAll_lineToken {line : List Item} {t : Token} (hkind : t.kind.isWord = true)
    (hopening : t.isOpening = false) (rest : List Token) :
    feedAll ⟨blocks, body, none, line, []⟩ (t :: rest) =
      feedAll ⟨blocks, body, none, line ++ [.token t], []⟩ rest := by
  refine feedAll_of_feed ?_ rest
  simp only [feed, settle, feedLine]
  cases hk : t.kind <;> first | exact absurd (hk ▸ hkind) (by decide) | simp [hopening, pushItem]

theorem feedAll_lineOpening {line : List Item} {t : Token} (h : t.isOpening = true)
    (rest : List Token) :
    feedAll ⟨blocks, body, none, line, []⟩ (t :: rest) =
      feedAll ⟨blocks, body, none, line, [.ofToken t line.getLast?]⟩ rest := by
  refine feedAll_of_feed ?_ rest
  obtain ⟨c, -, hkind, -, -⟩ := bracketsAfter_of_isOpening h []
  simp [feed, settle, feedLine, hkind, h]

theorem feedAll_line {is : List Item} {us : List Shape} {line : List Item} {previous : Option Item}
    {ts : List Token} (his : ItemsWellFormed is) (hus : ItemsPrint is us)
    (hkinds : KindsFollow previous is) (hprevious : PreviousLike previous line.getLast?)
    (hts : ts.map Token.shape = us) :
    ∃ is', LineLike is is' ∧ ∀ rest, feedAll ⟨blocks, body, none, line, []⟩ (ts ++ rest) =
      feedAll ⟨blocks, body, none, line ++ is', []⟩ rest := by
  induction is generalizing us line previous ts with
  | nil =>
      rw [ItemsPrint] at hus
      obtain rfl : ts = [] := by simpa [hus] using hts
      exact ⟨[], trivial, fun rest => by rw [List.append_nil, List.nil_append]⟩
  | cons i is ih =>
      rcases hus with ⟨vs, ws, hvs, hws, rfl⟩ | ⟨hrun, rfl⟩
      · obtain ⟨as, bs, rfl, has, hbs⟩ := List.map_eq_append_iff.mp hts
        have hitem : ∃ j, i.Like j ∧ ∀ rest, feedAll ⟨blocks, body, none, line, []⟩ (as ++ rest) =
            feedAll ⟨blocks, body, none, line ++ [j], []⟩ rest := by
          cases i with
          | token u =>
              rw [Item.Prints] at hvs
              rw [hvs] at has
              obtain ⟨t, rfl, hshape⟩ := List.map_eq_singleton_iff.mp has
              obtain ⟨⟨hkind, -, hopening, -⟩, -⟩ := his
              refine ⟨.token t, hshape.symm, feedAll_lineToken ?_ ?_⟩
              · rw [kind_eq_of_shape hshape]
                exact hkind
              · rw [isOpening_eq_of_shape hshape]
                exact hopening
          | group g =>
              obtain ⟨opening, elements, closing, kind, sortable⟩ := g
              obtain ⟨⟨hbrackets, helements, -⟩, -⟩ := his
              obtain ⟨xs, hxs, rfl⟩ := hvs
              obtain ⟨t, as, rfl, hopen, has⟩ := List.map_eq_cons_iff.mp has
              obtain ⟨es, ds, rfl, hes, hds⟩ := List.map_eq_append_iff.mp has
              obtain ⟨d, rfl, hclose⟩ := List.map_eq_singleton_iff.mp hds
              obtain ⟨g', hgrows, hfeed⟩ := @feedAll_elements blocks body none line _ _ _ []
                (.ofToken t line.getLast?) _ helements hxs rfl hes
              refine ⟨.group (g'.close d), ?_, fun rest => ?_⟩
              · show kind = g'.kind
                have hkind : kind = groupKind opening previous := hkinds.1 _ rfl
                rw [hgrows.2, hkind]
                exact (groupKind_eq hbrackets.1 hopen hprevious).symm
              · rw [List.cons_append, List.append_assoc,
                  feedAll_lineOpening (hbrackets.isOpening hopen), hfeed, List.singleton_append,
                  feedAll_closingLast (hbrackets.isClosing hclose)]
        obtain ⟨j, hlike, hfeed⟩ := hitem
        obtain ⟨js, hjs, hfeed'⟩ := @ih _ (line ++ [j]) (some i) bs his.2 hws hkinds.2
          (by rw [List.getLast?_concat]; exact hlike) hbs
        refine ⟨j :: js, .inl ⟨hlike, hjs⟩, fun rest => ?_⟩
        rw [List.append_assoc, hfeed, hfeed', List.append_assoc, List.singleton_append]
      · obtain ⟨t, ts, rfl, ht, hts⟩ := List.map_eq_cons_iff.mp hts
        obtain ⟨as, bs, rfl, has, hbs⟩ := List.map_eq_append_iff.mp hts
        obtain ⟨d, rfl, hd⟩ := List.map_eq_singleton_iff.mp hbs
        have hopening : t.isOpening = true := by
          rw [isOpening_eq_of_shape (u := .ofOp "(") ht]
          rfl
        have hclosing : d.isClosing = true := by
          rw [isClosing_eq_of_shape (u := .ofOp ")") hd]
          rfl
        obtain ⟨g', -, -, hfeed⟩ := @feedAll_literals blocks body none line [] _ hrun
          (.ofToken t line.getLast?) _ has
        refine ⟨[.group (g'.close d)], .inr ⟨hrun, _, rfl, rfl⟩, fun rest => ?_⟩
        rw [List.cons_append, List.append_assoc, feedAll_lineOpening hopening, hfeed,
          List.singleton_append, feedAll_closingLast hclosing]

end ParseState

namespace Item.Like

theorem endsLine {i j : Item} (h : i.Like j) : i.endsLine = j.endsLine := by
  match i, j, h with
  | .token t, .token u, h =>
      have hshape : t.shape = u.shape := h
      by_cases hkind : t.kind = .op
      · have htext := text_eq_of_shape hshape (by rw [hkind]; rfl)
        rw [Item.endsLine, Item.endsLine, kind_eq_of_shape hshape, htext]
      · have hkind' : u.kind ≠ .op := kind_eq_of_shape hshape ▸ hkind
        rw [Item.endsLine, Item.endsLine, beq_false_of_ne hkind, beq_false_of_ne hkind']
        rfl
  | .group _, .group _, _ => rfl

theorem isOp {i j : Item} (h : i.Like j) (text : String) : i.isOp text = j.isOp text := by
  match i, j, h with
  | .token t, .token u, h =>
      have hshape : t.shape = u.shape := h
      simpa [Item.isOp, Item.token?] using isOp_eq_of_shape hshape text
  | .group _, .group _, _ => rfl

end Item.Like

namespace LineLike

theorem getLast? {is js : List Item} (h : LineLike is js) (his : is ≠ []) :
    ∃ i j, is.getLast? = some i ∧ js.getLast? = some j ∧
      (i.Like j ∨ (∃ t, i = .token t ∧ t.kind = .string) ∧ ∃ g, j = .group g) := by
  induction is generalizing js with
  | nil => exact absurd rfl his
  | cons i is ih =>
      cases js with
      | nil => exact h.elim
      | cons j js =>
          rcases h with ⟨hlike, hrest⟩ | ⟨hrun, g, rfl, rfl⟩
          · cases is with
            | nil =>
                cases js with
                | nil => exact ⟨i, j, rfl, rfl, .inl hlike⟩
                | cons k ks => exact hrest.elim
            | cons k ks =>
                obtain ⟨a, b, ha, hb, hab⟩ := ih hrest (by simp)
                refine ⟨a, b, by simpa using ha, ?_, hab⟩
                cases js with
                | nil => simp at hb
                | cons l ls => simpa using hb
          · have hlast : (i :: is).getLast? = some ((i :: is).getLast (by simp)) :=
              List.getLast?_eq_some_getLast _
            refine ⟨_, .group g, hlast, rfl, .inr ⟨?_, g, rfl⟩⟩
            exact hrun _ (List.getLast_mem _)

theorem endsLine {is js : List Item} (h : LineLike is js)
    (hends : is.getLast?.any Item.endsLine = true) : js.getLast?.any Item.endsLine = true := by
  have hne : is ≠ [] := by
    rintro rfl
    cases hends
  obtain ⟨i, j, hi, hj, hlike | ⟨-, g, rfl⟩⟩ := h.getLast? hne
  · rw [hi] at hends
    rw [hj]
    exact hlike.endsLine.symm.trans hends
  · rw [hj]
    rfl

theorem opensBlock {is js : List Item} (h : LineLike is js) (his : is ≠ []) :
    SchemaTidy.opensBlock js = SchemaTidy.opensBlock is := by
  obtain ⟨i, j, hi, hj, hlike | ⟨⟨t, rfl, ht⟩, g, rfl⟩⟩ := h.getLast? his
  · rw [SchemaTidy.opensBlock, SchemaTidy.opensBlock, hi, hj]
    exact (hlike.isOp ":").symm
  · rw [SchemaTidy.opensBlock, SchemaTidy.opensBlock, hi, hj]
    simp [Item.isOp, Item.token?, Token.isOp, ht]

/-- Behind a line that opens a block no literals get parentheses. -/
theorem forall₂ {is js : List Item} (h : LineLike is js)
    (hopens : SchemaTidy.opensBlock is = true) : List.Forall₂ Item.Like is js := by
  induction is generalizing js with
  | nil => cases hopens
  | cons i is ih =>
      cases js with
      | nil => exact h.elim
      | cons j js =>
          rcases h with ⟨hlike, hrest⟩ | ⟨hrun, -⟩
          · refine .cons hlike ?_
            cases is with
            | nil =>
                cases js with
                | nil => exact .nil
                | cons k ks => exact hrest.elim
            | cons k ks => exact ih hrest (by simpa [SchemaTidy.opensBlock] using hopens)
          · exfalso
            have hlast : (i :: is).getLast? = some ((i :: is).getLast (by simp)) :=
              List.getLast?_eq_some_getLast _
            obtain ⟨t, ht, hkind⟩ := hrun _ (List.getLast_mem (by simp))
            rw [SchemaTidy.opensBlock, hlast, ht] at hopens
            simp [Item.isOp, Item.token?, Token.isOp, hkind] at hopens

end LineLike

theorem Item.Like.of_token {t : Token} {j : Item} (h : (Item.token t).Like j) :
    ∃ u, j = .token u ∧ t.shape = u.shape := by
  cases j with
  | token u => exact ⟨u, rfl, h⟩
  | group g => exact h.elim

theorem Item.Like.of_group {g : Group} {j : Item} (h : (Item.group g).Like j) :
    ∃ g', j = .group g' ∧ g.kind = g'.kind := by
  cases j with
  | token u => exact h.elim
  | group g' => exact ⟨g', rfl, h⟩

theorem isSome_signatureOf? {is js : List Item} (h : List.Forall₂ Item.Like is js)
    (hsome : (signatureOf? is).isSome = true) : (signatureOf? js).isSome = true := by
  unfold signatureOf? at hsome
  simp only at hsome
  split at hsome
  · rcases h with _ | ⟨-, _ | ⟨hname, _ | ⟨hcolon, ⟨⟩⟩⟩⟩
    obtain ⟨name, rfl, hname⟩ := hname.of_token
    obtain ⟨colon, rfl, hcolon⟩ := hcolon.of_token
    rw [isOp_eq_of_shape hcolon, isIdentifier_eq_of_shape hname] at hsome
    split at hsome
    · rename_i hop
      split at hsome
      · rename_i hidentifier
        simp [signatureOf?, hop, hidentifier]
      · cases hsome
    · cases hsome
  · rcases h with _ | ⟨-, _ | ⟨hname, _ | ⟨hbases, _ | ⟨hcolon, ⟨⟩⟩⟩⟩⟩
    obtain ⟨name, rfl, hname⟩ := hname.of_token
    obtain ⟨bases, rfl, hbases⟩ := hbases.of_group
    obtain ⟨colon, rfl, hcolon⟩ := hcolon.of_token
    rw [isOp_eq_of_shape hcolon, isIdentifier_eq_of_shape hname, hbases] at hsome
    split at hsome
    · rename_i hop
      split at hsome
      · rename_i hidentifier
        simp only [signatureOf?, hop, hidentifier, if_true, Option.isSome_some]
      · cases hsome
    · cases hsome
  · rcases h with _ | ⟨-, _ | ⟨hname, _ | ⟨hparams, _ | ⟨hbases, _ | ⟨hcolon, ⟨⟩⟩⟩⟩⟩⟩
    obtain ⟨name, rfl, hname⟩ := hname.of_token
    obtain ⟨params, rfl, hparams⟩ := hparams.of_group
    obtain ⟨bases, rfl, hbases⟩ := hbases.of_group
    obtain ⟨colon, rfl, hcolon⟩ := hcolon.of_token
    rw [isOp_eq_of_shape hcolon, isIdentifier_eq_of_shape hname, hparams, hbases] at hsome
    split at hsome
    · rename_i hop
      split at hsome
      · rename_i hidentifier
        simp only [signatureOf?, hop, hidentifier, if_true, Option.isSome_some]
      · cases hsome
    · cases hsome
  · cases hsome

theorem compoundOf_like {is js : List Item} {newline newline' : Token} {block block' : Block}
    {s : Statement} (h : List.Forall₂ Item.Like is js) (hs : compoundOf is newline block = .ok s) :
    ∃ s', compoundOf js newline' block' = .ok s' := by
  unfold compoundOf
  split
  · rename_i first rest
    split
    · rename_i hclass
      cases h with
      | cons hlike hrest =>
          rename_i i is
          cases i with
          | group g => exact hlike.elim
          | token t =>
              have hshape : t.shape = first.shape := hlike
              have hsome : (signatureOf? (.token t :: is)).isSome = true := by
                rw [compoundOf, if_pos (by rw [isName_eq_of_shape hshape]; exact hclass)] at hs
                split at hs
                · rename_i signature hsignature
                  rw [hsignature]
                  rfl
                · cases hs
              have hsome' := isSome_signatureOf? (.cons hlike hrest) hsome
              obtain ⟨signature, hsignature⟩ := Option.isSome_iff_exists.mp hsome'
              rw [hsignature]
              exact ⟨_, rfl⟩
    · exact ⟨_, rfl⟩
  · exact ⟨_, rfl⟩

/-! ## Statements -/

theorem itemsPrint_of_relabelHeader {items : List Item} {us : List Shape}
    (h : ItemsPrint (relabelHeader items) us) : ItemsPrint items us := by
  unfold relabelHeader at h
  split at h
  · split at h
    · rename_i word g rest _
      obtain ⟨opening, elements, closing, kind, sortable⟩ := g
      rcases h with ⟨vs, ws, hvs, hws | ⟨hrun, -⟩, rfl⟩ | ⟨hrun, -⟩
      · exact .inl ⟨vs, ws, hvs, .inl hws, rfl⟩
      · obtain ⟨t, ht, -⟩ := hrun _ (List.mem_cons_self ..)
        cases ht
      · obtain ⟨t, ht, -⟩ := hrun _ (List.mem_cons_of_mem _ (List.mem_cons_self ..))
        cases ht
    · exact h
  · exact h

theorem itemsPrint_of_header {signature : Option ClassSignature} {original header : List Item}
    {newline : Token} {block : Block} {us : List Shape}
    (hcompound : compoundOf original newline block = .ok (.compound signature header newline block))
    (h : ItemsPrint header us) : ItemsPrint original us := by
  unfold compoundOf at hcompound
  split at hcompound
  · split at hcompound
    · split at hcompound
      · cases hcompound
        exact h
      · cases hcompound
    · cases hcompound
      exact itemsPrint_of_relabelHeader h
  · cases hcompound
    exact h

theorem itemsPrint_cons {items : List Item} {us : List Shape} (hne : items ≠ [])
    (hitems : ItemsWellFormed items) (h : ItemsPrint items us) :
    ∃ u vs, us = u :: vs ∧ u.1.isWord = true := by
  cases items with
  | nil => exact absurd rfl hne
  | cons i is =>
      rcases h with ⟨vs, ws, hvs, -, rfl⟩ | ⟨-, rfl⟩
      · cases i with
        | token t =>
            rw [Item.Prints] at hvs
            exact ⟨t.shape, ws, by rw [hvs]; rfl, hitems.1.1⟩
        | group g =>
            obtain ⟨opening, elements, closing, kind, sortable⟩ := g
            obtain ⟨xs, -, rfl⟩ := hvs
            refine ⟨opening.shape, xs ++ [closing.shape] ++ ws, by simp, ?_⟩
            obtain ⟨⟨⟨hkind, -⟩, -⟩, -⟩ := hitems
            show opening.kind.isWord = true
            rw [hkind]
            rfl
      · exact ⟨_, _, rfl, rfl⟩

namespace ParseState

/-- A state between statements. -/
structure IsBetween (s : ParseState) : Prop where
  line : s.line = []
  groups : s.groups = []
  pending : ∀ p, s.pending = some p → opensBlock p.1 = false

/-- The state in which the pending line is a statement. -/
def settled (s : ParseState) : ParseState :=
  ⟨s.blocks,
    match s.pending with
    | none => s.body
    | some (items, newline) => s.body ++ [.simple ⟨items, newline, false⟩],
    none, [], []⟩

theorem feedAll_settled {s : ParseState} (hs : s.IsBetween) {t : Token} (ht : t.kind ≠ .indent)
    (rest : List Token) : s.feedAll (t :: rest) = s.settled.feedAll (t :: rest) := by
  have hfeed : s.feed t = s.settled.feed t := by
    obtain ⟨blocks, body, pending, line, groups⟩ := s
    obtain ⟨rfl, rfl, hpending⟩ := hs
    cases pending with
    | none => rfl
    | some p =>
        have hopens : p.1.getLast?.any (·.isOp ":") = false := hpending p rfl
        simp [feed, settle, settled, hopens, ht]
  rw [feedAll, feedAll, hfeed]

theorem feedAll_newline {blocks : List OpenBlock} {body : List Statement} {line : List Item}
    {t : Token} (ht : t.kind = .newline) (hends : line.getLast?.any Item.endsLine = true)
    (rest : List Token) :
    feedAll ⟨blocks, body, none, line, []⟩ (t :: rest) =
      feedAll ⟨blocks, body, some (line, t), [], []⟩ rest := by
  refine feedAll_of_feed ?_ rest
  simp only [feed, settle, feedLine, ht, endLine]
  cases hlast : line.getLast? with
  | none =>
      rw [hlast] at hends
      cases hends
  | some i =>
      rw [hlast] at hends
      cases i with
      | group g => rfl
      | token last =>
          have hdangling : (last.kind == .op && danglingOperators.contains last.text) = false := by
            simpa only [Option.any_some, Item.endsLine, Bool.not_eq_true'] using hends
          simp only [hdangling, Bool.false_eq_true, if_false]
          rfl

/-- A print of a line and its end leave a pending line that is like it. -/
theorem feedAll_logicalLine {s : ParseState} (hs : s.IsBetween) {items : List Item}
    {us : List Shape} {ts : List Token} {t : Token} (hitems : LineWellFormed items)
    (hus : ItemsPrint items us) (hts : ts.map Token.shape = us) (ht : t.shape = (.newline, [])) :
    ∃ items', LineLike items items' ∧ ∀ rest, s.feedAll (ts ++ t :: rest) =
      feedAll ⟨s.blocks, s.settled.body, some (items', t), [], []⟩ rest := by
  have hne : items ≠ [] := by
    rintro rfl
    cases hitems.ends
  obtain ⟨u, vs, rfl, hu⟩ := itemsPrint_cons hne hitems.wellFormed hus
  obtain ⟨first, ts', hts', hfirst, -⟩ := List.map_eq_cons_iff.mp hts
  have hkind : first.kind ≠ .indent := by
    intro hkind
    rw [← hfirst] at hu
    have : first.kind.isWord = true := hu
    simp [hkind, TokenKind.isWord] at this
  obtain ⟨items', hlike, hfeed⟩ := @feedAll_line s.blocks s.settled.body items _ [] none ts
    hitems.wellFormed hus hitems.kinds trivial hts
  refine ⟨items', hlike, fun rest => ?_⟩
  have hstart : s.feedAll (ts ++ t :: rest) = s.settled.feedAll (ts ++ t :: rest) := by
    rw [hts', List.cons_append]
    exact feedAll_settled hs hkind _
  rw [hstart]
  refine (hfeed (t :: rest)).trans ?_
  rw [List.nil_append]
  exact feedAll_newline (congrArg Prod.fst ht) (hlike.endsLine hitems.ends) rest

theorem feedAll_indent {blocks : List OpenBlock} {body : List Statement} {items : List Item}
    {newline t : Token} (ht : t.kind = .indent) (hopens : opensBlock items = true)
    (rest : List Token) :
    feedAll ⟨blocks, body, some (items, newline), [], []⟩ (t :: rest) =
      feedAll ⟨⟨body, items, newline, t⟩ :: blocks, [], none, [], []⟩ rest := by
  refine feedAll_of_feed ?_ rest
  have hopens' : items.getLast?.any (·.isOp ":") = true := hopens
  simp [feed, settle, ht, hopens']

theorem feedAll_dedent {s : ParseState} (hs : s.IsBetween) {b : OpenBlock}
    {outer : List OpenBlock} (hblocks : s.blocks = b :: outer) {t : Token} {st : Statement}
    (ht : t.kind = .dedent)
    (hst : compoundOf b.header b.newline ⟨b.indent, s.settled.body, t⟩ = .ok st)
    (rest : List Token) :
    s.feedAll (t :: rest) = feedAll ⟨outer, b.before ++ [st], none, [], []⟩ rest := by
  rw [feedAll_settled hs (by simp [ht])]
  refine feedAll_of_feed ?_ rest
  have hst' : compoundOf b.header b.newline ⟨b.indent, s.settled.body, t⟩ = .ok st := hst
  simp only [settled] at hst'
  simp [feed, settle, settled, feedLine, ht, endBlock, hblocks, hst', Except.map]

mutual

/-- A print of a statement leads to a state between statements in the same blocks. -/
theorem feedAll_statement : ∀ {st : Statement} {us : List Shape} {s : ParseState}
    {ts : List Token}, st.WellFormed → st.Prints us → s.IsBetween → ts.map Token.shape = us →
    ∃ s' : ParseState, s'.IsBetween ∧ s'.blocks = s.blocks ∧ ∀ rest,
      s.feedAll (ts ++ rest) = s'.feedAll rest
  | .simple ⟨items, newline, reformat⟩, us, s, ts, hst, hus, hs, hts => by
      obtain ⟨hitems, hopens, -⟩ := hst
      obtain ⟨vs, hvs, rfl⟩ := hus
      obtain ⟨is, ns, rfl, his, hns⟩ := List.map_eq_append_iff.mp hts
      obtain ⟨t, rfl, ht⟩ := List.map_eq_singleton_iff.mp hns
      obtain ⟨items', hlike, hfeed⟩ := feedAll_logicalLine hs hitems hvs his ht
      have hne : items ≠ [] := by
        rintro rfl
        cases hitems.ends
      refine ⟨⟨s.blocks, s.settled.body, some (items', t), [], []⟩, ⟨rfl, rfl, ?_⟩, rfl, ?_⟩
      · rintro p hp
        obtain rfl := Option.some.inj hp
        exact (hlike.opensBlock hne).trans hopens
      · intro rest
        rw [List.append_assoc]
        exact hfeed rest
  | .compound signature header newline ⟨indent, body, dedent⟩, us, s, ts, hst, hus, hs, hts => by
      obtain ⟨⟨-, -, -, hbody⟩, -, original, horiginal, hopens, hcompound⟩ := hst
      obtain ⟨vs, ws, hvs, ⟨xs, hxs, rfl⟩, rfl⟩ := hus
      obtain ⟨is, ns, rfl, his, hns⟩ := List.map_eq_append_iff.mp hts
      obtain ⟨t, ns, rfl, ht, hns⟩ := List.map_eq_cons_iff.mp hns
      obtain ⟨i, ns, rfl, hi, hns⟩ := List.map_eq_cons_iff.mp hns
      obtain ⟨bs, ds, rfl, hbs, hds⟩ := List.map_eq_append_iff.mp hns
      obtain ⟨d, rfl, hd⟩ := List.map_eq_singleton_iff.mp hds
      obtain ⟨items', hlike, hfeed⟩ :=
        feedAll_logicalLine hs horiginal (itemsPrint_of_header hcompound hvs) his ht
      have hne : original ≠ [] := by
        rintro rfl
        cases hopens
      have hopens' : opensBlock items' = true := (hlike.opensBlock hne).trans hopens
      obtain ⟨s', hs', hblocks, hfeed'⟩ :=
        feedAll_body (s := ⟨⟨s.settled.body, items', t, i⟩ :: s.blocks, [], none, [], []⟩) hbody
          hxs ⟨rfl, rfl, by simp⟩ hbs
      obtain ⟨st, hst⟩ := @compoundOf_like original items' newline t ⟨indent, body, dedent⟩
        ⟨i, s'.settled.body, d⟩ _ (hlike.forall₂ hopens) hcompound
      refine ⟨⟨s.blocks, s.settled.body ++ [st], none, [], []⟩, ⟨rfl, rfl, by simp⟩, rfl, ?_⟩
      intro rest
      rw [List.append_assoc, List.cons_append, hfeed, List.cons_append,
        feedAll_indent (congrArg Prod.fst hi) hopens', List.append_assoc, hfeed',
        List.singleton_append, feedAll_dedent hs' hblocks (congrArg Prod.fst hd) hst]

theorem feedAll_body : ∀ {ss : List Statement} {us : List Shape} {s : ParseState}
    {ts : List Token}, BodyWellFormed ss → BodyPrints ss us → s.IsBetween →
    ts.map Token.shape = us →
    ∃ s' : ParseState, s'.IsBetween ∧ s'.blocks = s.blocks ∧ ∀ rest,
      s.feedAll (ts ++ rest) = s'.feedAll rest
  | [], us, s, ts, _, hus, hs, hts => by
      rw [BodyPrints] at hus
      obtain rfl : ts = [] := by simpa [hus] using hts
      exact ⟨s, hs, rfl, fun rest => rfl⟩
  | st :: ss, us, s, ts, hss, hus, hs, hts => by
      obtain ⟨vs, ws, hvs, hws, rfl⟩ := hus
      obtain ⟨as, bs, rfl, has, hbs⟩ := List.map_eq_append_iff.mp hts
      obtain ⟨s₁, hs₁, hblocks₁, hfeed₁⟩ := feedAll_statement hss.1 hvs hs has
      obtain ⟨s₂, hs₂, hblocks₂, hfeed₂⟩ := feedAll_body hss.2 hws hs₁ hbs
      refine ⟨s₂, hs₂, hblocks₂.trans hblocks₁, fun rest => ?_⟩
      rw [List.append_assoc, hfeed₁, hfeed₂]

end

/-- The parser accepts every print of a well-formed module. -/
theorem feedAll_print {body : List Statement} {us : List Shape} {ts : List Token}
    (hbody : BodyWellFormed body) (hus : BodyPrints body us)
    (hts : ts.map Token.shape = us ++ [(.endMarker, [])]) :
    ∃ m, empty.feedAll ts = .ok m := by
  obtain ⟨as, bs, rfl, has, hbs⟩ := List.map_eq_append_iff.mp hts
  obtain ⟨t, rfl, ht⟩ := List.map_eq_singleton_iff.mp hbs
  obtain ⟨s, hs, hblocks, hfeed⟩ :=
    feedAll_body (s := empty) hbody hus ⟨rfl, rfl, by simp [empty]⟩ has
  have hkind : t.kind = .endMarker := congrArg Prod.fst ht
  have hblocks' : s.blocks = [] := hblocks
  refine ⟨⟨s.settled.body, t⟩, ?_⟩
  rw [hfeed, feedAll_settled hs (by simp [hkind]), feedAll]
  simp [feed, settle, settled, feedLine, hkind, hblocks']

end ParseState

end SchemaTidy
