import SchemaTidy.Proofs.Token.Structure
import SchemaTidy.Proofs.Tree.Spelling

/-!
# Well-formed trees

What parsing promises about a tree, beyond its text: words are tokens by themselves, brackets match,
commas stand where they separate elements and nowhere else, lines end as lines may end, and blocks
have a body.
-/

namespace SchemaTidy

/-- What decides whether a comma separates elements. -/
structure Scope where
  /-- Lambdas whose colon has not been read. -/
  lambdas : Nat := 0
  /-- Whether a comprehension has begun. -/
  comprehension : Bool := false
  /-- Whether the element has begun. -/
  begun : Bool := false

namespace Scope

def push (s : Scope) : Item → Scope
  | .token t =>
      if t.isName "lambda" then { s with lambdas := s.lambdas + 1, begun := true }
      else if t.isOp ":" && 0 < s.lambdas then { s with lambdas := s.lambdas - 1, begun := true }
      else if t.isName "for" && s.begun then { s with comprehension := true, begun := true }
      else { s with begun := true }
  | .group _ => { s with begun := true }

/-- Whether a token is a comma that ends an element. -/
def separates (s : Scope) (t : Token) : Bool := t.isOp "," && s.lambdas == 0 && !s.comprehension

def next (s : Scope) : Scope := { s with begun := false }

def pushAll (s : Scope) (items : List Item) : Scope := items.foldl push s

/-- No token of some items is a comma that ends an element. -/
def Admits (s : Scope) : List Item → Prop
  | [] => True
  | i :: is => (∀ t, i = .token t → s.separates t = false) ∧ (s.push i).Admits is

theorem pushAll_append (s : Scope) (is js : List Item) :
    s.pushAll (is ++ js) = (s.pushAll is).pushAll js :=
  List.foldl_append

theorem admits_append {s : Scope} {is js : List Item} :
    s.Admits (is ++ js) ↔ s.Admits is ∧ (s.pushAll is).Admits js := by
  induction is generalizing s with
  | nil => simp [Admits, pushAll]
  | cons i is ih =>
      rw [List.cons_append, Admits, Admits, ih, and_assoc]
      rfl

end Scope

namespace OpenGroup

/-- The scope behind what has been read of a group. -/
def scope (g : OpenGroup) : Scope := ⟨g.lambdas, g.comprehension, !g.current.isEmpty⟩

@[simp] theorem scope_ofToken (t : Token) (previous : Option Item) :
    (ofToken t previous).scope = {} := rfl

theorem separates_scope (g : OpenGroup) (t : Token) : g.scope.separates t = g.separates t := rfl

@[simp] theorem scope_pushToken (g : OpenGroup) (t : Token) :
    (g.pushToken t).scope = g.scope.push (.token t) := by
  unfold pushToken Scope.push scope
  simp only
  split
  · simp
  split
  · simp
  split
  · simp
  · simp

@[simp] theorem scope_pushGroup (g : OpenGroup) (h : Group) :
    (g.pushGroup h).scope = g.scope.push (.group h) := by
  simp [pushGroup, scope, Scope.push]

@[simp] theorem scope_pushComma (g : OpenGroup) (t : Token) :
    (g.pushComma t).scope = g.scope.next := by
  simp [pushComma, scope, Scope.next]

end OpenGroup

/-- A word of the program that is no bracket. -/
def Token.IsLeaf (t : Token) : Prop :=
  t.kind.isWord = true ∧ Lexeme.Cuts t.kind t.text [] ∧ t.isOpening = false ∧ t.isClosing = false

/-- An opening bracket and the closing one that belongs to it. -/
def MatchingBrackets (opening closing : Token) : Prop :=
  opening.kind = .op ∧ closing.kind = .op ∧
    ∃ c, (c = '(' ∨ c = '[' ∨ c = '{') ∧ opening.text = [c] ∧ closing.text = [Cursor.matching c]

mutual

def Item.WellFormed : Item → Prop
  | .token t => t.IsLeaf
  | .group g => g.WellFormed

def Group.WellFormed : Group → Prop
  | ⟨opening, elements, closing, _, sortable⟩ =>
      MatchingBrackets opening closing ∧ ElementsWellFormed {} elements ∧ sortable = false

/-- Well-formed elements from a scope on: each has items, and each but the last ends with a comma that
separates. -/
def ElementsWellFormed (s : Scope) : List Element → Prop
  | [] => True
  | e :: es =>
      e.WellFormed s ∧
        match e.comma with
        | some comma =>
            (s.pushAll e.items).separates comma = true ∧
              ElementsWellFormed (s.pushAll e.items).next es
        | none => es = []

def Element.WellFormed (s : Scope) : Element → Prop
  | ⟨items, _⟩ => items ≠ [] ∧ s.Admits items ∧ ItemsWellFormed items

def ItemsWellFormed : List Item → Prop
  | [] => True
  | i :: is => i.WellFormed ∧ ItemsWellFormed is

end

theorem itemsWellFormed_iff {items : List Item} :
    ItemsWellFormed items ↔ ∀ i ∈ items, i.WellFormed := by
  induction items with
  | nil => simp [ItemsWellFormed]
  | cons i is ih => simp [ItemsWellFormed, ih]

/-- The groups of a line have the kinds that follow from the items before them. -/
def KindsFollow : Option Item → List Item → Prop
  | _, [] => True
  | previous, i :: is =>
      (∀ g, i = .group g → g.kind = groupKind g.opening previous) ∧ KindsFollow (some i) is

theorem kindsFollow_concat {previous : Option Item} {items : List Item} {i : Item} :
    KindsFollow previous (items ++ [i]) ↔
      KindsFollow previous items ∧
        ∀ g, i = .group g → g.kind = groupKind g.opening (items.getLast?.or previous) := by
  induction items generalizing previous with
  | nil => simp [KindsFollow]
  | cons j items ih =>
      rw [List.cons_append, KindsFollow, KindsFollow, ih, and_assoc]
      cases items <;> simp [List.getLast?_cons]

def Item.endsLine : Item → Bool
  | .token t => !(t.kind == .op && danglingOperators.contains t.text)
  | .group _ => true

def opensBlock (items : List Item) : Bool := items.getLast?.any (·.isOp ":")

/-- The items of a well-formed logical line. -/
structure LineWellFormed (items : List Item) : Prop where
  wellFormed : ItemsWellFormed items
  kinds : KindsFollow none items
  ends : items.getLast?.any Item.endsLine = true

theorem LineWellFormed.ne_nil {items : List Item} (h : LineWellFormed items) : items ≠ [] := by
  rintro rfl
  cases h.ends

def Token.IsLineEnd (t : Token) : Prop := t.kind = .newline ∧ (t.text = [] ∨ IsBreak t.text)

mutual

def Statement.WellFormed : Statement → Prop
  | .simple line =>
      LineWellFormed line.items ∧ opensBlock line.items = false ∧ line.newline.IsLineEnd
  | .compound signature header newline block =>
      block.WellFormed ∧ newline.IsLineEnd ∧
        ∃ original, LineWellFormed original ∧ opensBlock original = true ∧
          compoundOf original newline block = .ok (.compound signature header newline block)

def Block.WellFormed : Block → Prop
  | ⟨indent, body, dedent⟩ =>
      indent.kind = .indent ∧ dedent.kind = .dedent ∧ body ≠ [] ∧ BodyWellFormed body

def BodyWellFormed : List Statement → Prop
  | [] => True
  | s :: ss => s.WellFormed ∧ BodyWellFormed ss

end

theorem bodyWellFormed_concat {ss : List Statement} {s : Statement} (hss : BodyWellFormed ss)
    (hs : s.WellFormed) : BodyWellFormed (ss ++ [s]) := by
  induction ss with
  | nil => exact ⟨hs, trivial⟩
  | cons t ss ih => exact ⟨hss.1, ih hss.2⟩

/-! ## Parse states -/

namespace Scope

def pushElements (s : Scope) : List Element → Scope
  | [] => s
  | e :: es => (s.pushAll e.items).next.pushElements es

/-- Well-formed elements each of which ends with a comma. -/
def Completes (s : Scope) : List Element → Prop
  | [] => True
  | e :: es =>
      e.WellFormed s ∧ (∃ comma, e.comma = some comma ∧ (s.pushAll e.items).separates comma = true) ∧
        (s.pushAll e.items).next.Completes es

theorem completes_concat {s : Scope} {es : List Element} {e : Element} :
    s.Completes (es ++ [e]) ↔
      s.Completes es ∧ e.WellFormed (s.pushElements es) ∧
        ∃ comma, e.comma = some comma ∧
          ((s.pushElements es).pushAll e.items).separates comma = true := by
  induction es generalizing s with
  | nil => simp [Completes, pushElements]
  | cons d es ih =>
      rw [List.cons_append, Completes, Completes, ih, pushElements]
      simp only [and_assoc]

theorem pushElements_concat (s : Scope) (es : List Element) (e : Element) :
    s.pushElements (es ++ [e]) = ((s.pushElements es).pushAll e.items).next := by
  induction es generalizing s with
  | nil => rfl
  | cons d es ih =>
      rw [List.cons_append, pushElements, pushElements, ih]

theorem Completes.elementsWellFormed {s : Scope} {es : List Element} (h : s.Completes es) :
    ElementsWellFormed s es := by
  induction es generalizing s with
  | nil => trivial
  | cons e es ih =>
      obtain ⟨he, ⟨comma, hcomma, hseparates⟩, hes⟩ := h
      rw [ElementsWellFormed, hcomma]
      exact ⟨he, hseparates, ih hes⟩

theorem Completes.elementsWellFormed_concat {s : Scope} {es : List Element} (h : s.Completes es)
    {items : List Item} (he : Element.WellFormed (s.pushElements es) ⟨items, none⟩) :
    ElementsWellFormed s (es ++ [⟨items, none⟩]) := by
  induction es generalizing s with
  | nil => exact ⟨he, rfl⟩
  | cons e es ih =>
      obtain ⟨hhead, ⟨comma, hcomma, hseparates⟩, hes⟩ := h
      rw [List.cons_append, ElementsWellFormed, hcomma]
      exact ⟨hhead, hseparates, ih hes he⟩

end Scope

namespace OpenGroup

structure Valid (g : OpenGroup) : Prop where
  elements : Scope.Completes {} g.elements
  current : ItemsWellFormed g.current
  admits : (Scope.pushElements {} g.elements).Admits g.current
  scope : g.scope = (Scope.pushElements {} g.elements).pushAll g.current

theorem valid_ofToken (t : Token) (previous : Option Item) : (ofToken t previous).Valid :=
  ⟨trivial, trivial, trivial, rfl⟩

theorem current_pushToken (g : OpenGroup) (t : Token) :
    (g.pushToken t).current = g.current ++ [.token t] ∧ (g.pushToken t).elements = g.elements ∧
      (g.pushToken t).opening = g.opening ∧ (g.pushToken t).kind = g.kind := by
  unfold pushToken
  simp only
  split
  · exact ⟨rfl, rfl, rfl, rfl⟩
  split
  · exact ⟨rfl, rfl, rfl, rfl⟩
  split <;> exact ⟨rfl, rfl, rfl, rfl⟩

theorem Valid.push {g g' : OpenGroup} (h : g.Valid) {i : Item} (hi : i.WellFormed)
    (hadmits : ∀ t, i = .token t → g.separates t = false)
    (helements : g'.elements = g.elements) (hcurrent : g'.current = g.current ++ [i])
    (hscope : g'.scope = g.scope.push i) : g'.Valid := by
  refine ⟨helements ▸ h.elements, ?_, ?_, ?_⟩
  · rw [hcurrent, itemsWellFormed_iff]
    intro j hj
    rcases List.mem_append.mp hj with hj | hj
    · exact itemsWellFormed_iff.mp h.current j hj
    · rw [List.mem_singleton.mp hj]
      exact hi
  · rw [hcurrent, helements, Scope.admits_append, ← h.scope]
    exact ⟨h.admits, fun t ht => hadmits t ht, trivial⟩
  · rw [hscope, hcurrent, helements, Scope.pushAll_append, ← h.scope]
    rfl

theorem Valid.pushComma {g : OpenGroup} (h : g.Valid) {t : Token} (hcurrent : g.current ≠ [])
    (hseparates : g.separates t = true) : (g.pushComma t).Valid := by
  refine ⟨?_, trivial, trivial, ?_⟩
  · show Scope.Completes {} (g.elements ++ [⟨g.current, some t⟩])
    rw [Scope.completes_concat]
    refine ⟨h.elements, ⟨hcurrent, h.admits, h.current⟩, t, rfl, ?_⟩
    rw [← h.scope]
    exact hseparates
  · rw [scope_pushComma, h.scope]
    show _ = Scope.pushElements {} (g.elements ++ [⟨g.current, some t⟩])
    rw [Scope.pushElements_concat]

theorem Valid.close {g : OpenGroup} (h : g.Valid) {t : Token} (ht : MatchingBrackets g.opening t) :
    (g.close t).WellFormed := by
  unfold OpenGroup.close
  simp only
  refine ⟨ht, ?_, rfl⟩
  split
  · exact h.elements.elementsWellFormed
  · rename_i hcurrent
    exact h.elements.elementsWellFormed_concat ⟨by simpa using hcurrent, h.admits, h.current⟩

end OpenGroup

def OpenGroup.IsOpenedBy (g : OpenGroup) (c : Char) : Prop :=
  g.opening.kind = .op ∧ (c = '(' ∨ c = '[' ∨ c = '{') ∧ g.opening.text = [c]

/-- Open groups, innermost first, and their brackets. -/
def GroupsOpenedBy : List OpenGroup → List Char → Prop
  | [], [] => True
  | g :: gs, c :: cs => g.IsOpenedBy c ∧ g.Valid ∧ GroupsOpenedBy gs cs
  | _, _ => False

structure OpenBlock.Valid (b : OpenBlock) : Prop where
  before : BodyWellFormed b.before
  header : LineWellFormed b.header
  opens : opensBlock b.header = true
  newline : b.newline.IsLineEnd
  indent : b.indent.kind = .indent

/-- What has been read is well formed, below open brackets and behind a token of the kind `before`. -/
structure ParseState.Valid (s : ParseState) (brackets : List Char) (before : Option TokenKind) :
    Prop where
  groups : GroupsOpenedBy s.groups brackets
  line : ItemsWellFormed s.line
  kinds : KindsFollow none s.line
  kind : ∀ g, s.groups.getLast? = some g → g.kind = groupKind g.opening s.line.getLast?
  pending : ∀ p, s.pending = some p →
    LineWellFormed p.1 ∧ p.2.IsLineEnd ∧ s.line = [] ∧ s.groups = []
  body : BodyWellFormed s.body
  blocks : ∀ b ∈ s.blocks, b.Valid
  /-- Only behind an opening marker has nothing of a block been read. -/
  started : s.body = [] → s.blocks ≠ [] → s.pending = none → s.line = [] → s.groups = [] →
    before = some .indent
  /-- Behind an unfinished line stands a word. -/
  unfinished : s.line ≠ [] ∨ s.groups ≠ [] → endsLine before = false

namespace ParseState

theorem valid_empty : empty.Valid [] none where
  groups := trivial
  line := trivial
  kinds := trivial
  kind := by simp [empty]
  pending := by simp [empty]
  body := trivial
  blocks := by simp [empty]
  started := by simp [empty]
  unfinished := by simp [empty]

end ParseState

theorem bracketsAfter_of_isOpening {t : Token} (h : t.isOpening = true) (brackets : List Char) :
    ∃ c, (c = '(' ∨ c = '[' ∨ c = '{') ∧ t.kind = .op ∧ t.text = [c] ∧
      bracketsAfter t.kind t.text brackets = some (c :: brackets) := by
  simp only [Token.isOpening, Token.isOp, Bool.or_eq_true, Bool.and_eq_true, beq_iff_eq] at h
  rcases h with (⟨hkind, htext⟩ | ⟨hkind, htext⟩) | ⟨hkind, htext⟩
  · exact ⟨'(', .inl rfl, hkind, htext, by rw [hkind, htext]; rfl⟩
  · exact ⟨'[', .inr (.inl rfl), hkind, htext, by rw [hkind, htext]; rfl⟩
  · exact ⟨'{', .inr (.inr rfl), hkind, htext, by rw [hkind, htext]; rfl⟩

theorem bracketsAfter_of_isClosing {t : Token} (h : t.isClosing = true) {brackets outer : List Char}
    (hb : bracketsAfter t.kind t.text brackets = some outer) :
    ∃ c, brackets = c :: outer ∧ t.kind = .op ∧ t.text = [Cursor.matching c] := by
  simp only [Token.isClosing, Token.isOp, Bool.or_eq_true, Bool.and_eq_true, beq_iff_eq] at h
  have hclosing : ∃ d, t.kind = .op ∧ t.text = [d] ∧ (d = ')' ∨ d = ']' ∨ d = '}') := by
    rcases h with (⟨hkind, htext⟩ | ⟨hkind, htext⟩) | ⟨hkind, htext⟩
    · exact ⟨')', hkind, htext, .inl rfl⟩
    · exact ⟨']', hkind, htext, .inr (.inl rfl)⟩
    · exact ⟨'}', hkind, htext, .inr (.inr rfl)⟩
  obtain ⟨d, hkind, htext, hd⟩ := hclosing
  rw [hkind, htext] at hb
  cases brackets with
  | nil => rcases hd with rfl | rfl | rfl <;> cases hb
  | cons o rest =>
      have hmatch : (if Cursor.matching o == d then some rest else none) = some outer := by
        rcases hd with rfl | rfl | rfl <;> exact hb
      split at hmatch
      · rename_i hod
        cases hmatch
        refine ⟨o, rfl, hkind, ?_⟩
        rw [htext, beq_iff_eq.mp hod]
      · cases hmatch

theorem bracketsAfter_of_isLeaf {t : Token} (hopening : t.isOpening = false)
    (hclosing : t.isClosing = false) (hcuts : Lexeme.Cuts t.kind t.text []) (brackets : List Char) :
    bracketsAfter t.kind t.text brackets = some brackets := by
  by_cases hop : t.kind = .op
  · rw [hop] at hcuts ⊢
    obtain ⟨-, c, cs, htext, hscan⟩ := id hcuts
    have hlone : c ∈ Lexeme.loneOperators → cs = [] := by
      intro hc
      obtain ⟨-, c', cs', hw, hscan'⟩ := Lexeme.cuts_lone hc (cs ++ [])
      obtain ⟨rfl, rfl⟩ := List.cons.inj hw
      have hsame := (hscan true .start).symm.trans (hscan' true .start)
      simpa using hsame
    simp only [Token.isOpening, Token.isClosing, Token.isOp, hop, htext, Bool.or_eq_false_iff,
      beq_self_eq_true, Bool.true_and, beq_eq_false_iff_ne, String.reduceToList] at hopening hclosing
    rw [htext]
    have hne : c ≠ '(' ∧ c ≠ '[' ∧ c ≠ '{' ∧ c ≠ ')' ∧ c ≠ ']' ∧ c ≠ '}' := by
      refine ⟨?_, ?_, ?_, ?_, ?_, ?_⟩ <;> rintro rfl <;>
        simp [hlone (by decide)] at hopening hclosing
    simp [bracketsAfter, hne]
  · exact bracketsAfter_of_ne_op hop _ _

theorem endsLine_of_isWord {kind : TokenKind} (h : kind.isWord = true) :
    endsLine (some kind) = false := by
  cases kind <;> first | rfl | cases h

namespace ParseState

variable {s s' : ParseState} {g : OpenGroup} {outer : List OpenGroup} {t : Token}
  {brackets brackets' : List Char} {before : Option TokenKind}

theorem Valid.pending_eq_none (hs : s.Valid brackets before) (hg : s.groups ≠ []) :
    s.pending = none := by
  cases hp : s.pending with
  | none => rfl
  | some p => exact absurd (hs.pending p hp).2.2.2 hg

theorem Valid.setGroup (hs : s.Valid brackets before) (hg : s.groups = g :: outer)
    (hkind : t.kind.isWord = true) {g' : OpenGroup} (hvalid : g'.Valid)
    (hopening : g'.opening = g.opening) (hgkind : g'.kind = g.kind) :
    Valid { s with groups := g' :: outer } brackets (some t.kind) := by
  have hnone := hs.pending_eq_none (by simp [hg])
  refine ⟨?_, hs.line, hs.kinds, ?_, by simp [hnone], hs.body, hs.blocks, by simp, fun _ =>
    endsLine_of_isWord hkind⟩
  · have hgroups := hs.groups
    rw [hg] at hgroups
    cases brackets with
    | nil => exact hgroups.elim
    | cons c cs =>
        obtain ⟨⟨hop, hc, htext⟩, -, houter⟩ := hgroups
        exact ⟨⟨hopening ▸ hop, hc, hopening ▸ htext⟩, hvalid, houter⟩
  · intro x hx
    have hlast := hs.kind
    rw [hg] at hlast
    cases outer with
    | nil =>
        obtain rfl : g' = x := by simpa using hx
        rw [hopening, hgkind]
        exact hlast g (by simp)
    | cons h hs' => exact hlast x (by simpa using hx)

theorem valid_feedGroup (hs : s.Valid brackets before) (hg : s.groups = g :: outer)
    (hspelling : IsSpelling t.kind t.text) (hkind : t.kind.isWord = true)
    (hb : bracketsAfter t.kind t.text brackets = some brackets')
    (h : s.feedGroup g outer t = .ok s') : s'.Valid brackets' (some t.kind) := by
  have hgroups := hs.groups
  have hends := endsLine_of_isWord hkind
  have hnone := hs.pending_eq_none (by simp [hg])
  have hlast := hs.kind
  rw [hg] at hgroups hlast
  unfold feedGroup at h
  by_cases hclosing : t.isClosing = true
  · rw [if_pos hclosing] at h
    obtain ⟨c, rfl, hop, htext⟩ := bracketsAfter_of_isClosing hclosing hb
    obtain ⟨⟨hgop, hc, hgtext⟩, hvalid, houter⟩ := hgroups
    have hclose : (g.close t).WellFormed := hvalid.close ⟨hgop, hop, c, hc, hgtext, htext⟩
    cases outer with
    | nil =>
        cases h
        cases brackets' with
        | cons d ds => exact houter.elim
        | nil =>
            refine ⟨trivial, ?_, ?_, by simp [pushItem], by simp [pushItem, hnone], hs.body,
              hs.blocks, by simp [pushItem], fun _ => hends⟩
            · refine itemsWellFormed_iff.mpr fun i hi => ?_
              rcases List.mem_append.mp hi with hi | hi
              · exact itemsWellFormed_iff.mp hs.line i hi
              · rw [List.mem_singleton.mp hi]
                exact hclose
            · refine kindsFollow_concat.mpr ⟨hs.kinds, ?_⟩
              rintro x hx
              obtain rfl : g.close t = x := by simpa using hx
              simpa [OpenGroup.close] using hlast g (by simp)
    | cons k outer =>
        cases h
        cases brackets' with
        | nil => exact houter.elim
        | cons d ds =>
            obtain ⟨hk, hkvalid, houter⟩ := houter
            refine ⟨⟨hk, ?_, houter⟩, hs.line, hs.kinds, ?_, by simp [hnone], hs.body, hs.blocks,
              by simp, fun _ => hends⟩
            · exact hkvalid.push (i := .group (g.close t)) hclose (by simp) rfl rfl
                (k.scope_pushGroup _)
            · intro x hx
              cases outer with
              | nil =>
                  obtain rfl : k.pushGroup (g.close t) = x := by simpa using hx
                  exact hlast k (by simp)
              | cons l outer => exact hlast x (by simpa using hx)
  rw [if_neg hclosing] at h
  split at h
  · cases h
  by_cases hopening : t.isOpening = true
  · have hcomma : g.separates t = false := by
      obtain ⟨c, hc, -, htext, -⟩ := bracketsAfter_of_isOpening hopening brackets
      have : t.isOp "," = false := by
        rcases hc with rfl | rfl | rfl <;> simp [Token.isOp, htext]
      simp [OpenGroup.separates, this]
    rw [if_neg (by simp [hcomma]), if_pos hopening] at h
    cases h
    obtain ⟨c, hc, hop, htext, hbrackets⟩ := bracketsAfter_of_isOpening hopening brackets
    rw [hb] at hbrackets
    obtain rfl := Option.some.inj hbrackets
    refine ⟨⟨⟨hop, hc, htext⟩, OpenGroup.valid_ofToken _ _, hgroups⟩, hs.line, hs.kinds, ?_,
      by simp [hnone], hs.body, hs.blocks, by simp, fun _ => hends⟩
    intro x hx
    exact hlast x (by simpa using hx)
  · have hleaf : t.IsLeaf := ⟨hkind, hspelling.1 hkind, by simpa using hopening, by simpa using hclosing⟩
    rw [bracketsAfter_of_isLeaf hleaf.2.2.1 hleaf.2.2.2 hleaf.2.1] at hb
    obtain rfl := Option.some.inj hb
    have hvalid : g.Valid := by
      cases brackets with
      | nil => exact hgroups.elim
      | cons c cs => exact hgroups.2.1
    split at h
    · rename_i hseparates
      split at h
      · cases h
      · rename_i hcurrent
        cases h
        exact hs.setGroup hg hkind (hvalid.pushComma (by simpa using hcurrent) hseparates) rfl rfl
    · rename_i hseparates
      cases h
      obtain ⟨hcurrent, helements, hopen, hgkind⟩ := g.current_pushToken t
      refine hs.setGroup hg hkind (hvalid.push (i := .token t) hleaf ?_ helements hcurrent
        (g.scope_pushToken t)) hopen hgkind
      rintro u hu
      obtain rfl : t = u := by simpa using hu
      simpa using hseparates

theorem Valid.groups_eq_nil (hs : s.Valid [] before) : s.groups = [] := by
  have hgroups := hs.groups
  cases hg : s.groups with
  | nil => rfl
  | cons g gs =>
      rw [hg] at hgroups
      exact hgroups.elim

/-- The pending line becomes a statement or the header of a block, which the token opens. -/
theorem valid_settle (hs : s.Valid [] before) {used : Bool} (h : s.settle t = .ok (s', used)) :
    (used = true ∧ t.kind = .indent ∧ s'.Valid [] (some .indent)) ∨
      (used = false ∧ s'.Valid [] before ∧ s'.pending = none ∧ s'.groups = []) := by
  have hnone := hs.groups_eq_nil
  unfold settle at h
  split at h
  · rename_i hpending
    cases h
    exact .inr ⟨rfl, hs, hpending, hnone⟩
  · rename_i items newline hpending
    obtain ⟨hitems, hnewline, hline, hgroups⟩ := hs.pending _ hpending
    simp only at h
    split at h
    · rename_i hkind
      split at h
      · rename_i hopens
        cases h
        refine .inl ⟨rfl, by simpa using hkind, hs.groups, hs.line, hs.kinds, hs.kind, by simp,
          trivial, ?_, fun _ _ _ _ _ => rfl, by simp [hline, hgroups]⟩
        intro b hb
        rcases List.mem_cons.mp hb with rfl | hb
        · exact ⟨hs.body, hitems, hopens, hnewline, by simpa using hkind⟩
        · exact hs.blocks b hb
      · cases h
    split at h
    · cases h
    · rename_i hopens
      cases h
      refine .inr ⟨rfl, ⟨hs.groups, hs.line, hs.kinds, hs.kind, by simp, ?_, hs.blocks, by simp,
        hs.unfinished⟩, rfl, hnone⟩
      exact bodyWellFormed_concat hs.body ⟨hitems, by simpa [opensBlock] using hopens, hnewline⟩

theorem valid_endLine (hs : s.Valid [] before) (ht : t.IsLineEnd) (h : s.endLine t = .ok s') :
    s'.Valid [] (some .newline) := by
  have hnone := hs.groups_eq_nil
  have hstep (hends : s.line.getLast?.any Item.endsLine = true) :
      Valid { s with pending := some (s.line, t), line := [] } [] (some .newline) := by
    refine ⟨hs.groups, trivial, trivial, by simp [hnone], ?_, hs.body, hs.blocks, by simp,
      by simp [hnone]⟩
    intro p hp
    obtain rfl := Option.some.inj hp
    exact ⟨⟨hs.line, hs.kinds, hends⟩, ht, rfl, hnone⟩
  unfold endLine at h
  split at h
  · cases h
  · rename_i last hlast
    split at h
    · cases h
    · rename_i hdangling
      cases h
      have hends : Item.endsLine (.token last) = true := by
        rw [Item.endsLine, Bool.eq_false_iff.mpr hdangling]
        rfl
      exact hstep (by rw [hlast]; exact hends)
  · rename_i g hlast
    cases h
    exact hstep (by simp [hlast, Item.endsLine])

theorem compoundOf_eq_ok {header : List Item} {newline : Token} {block : Block} {st : Statement}
    (h : compoundOf header newline block = .ok st) :
    ∃ signature header', st = .compound signature header' newline block := by
  unfold compoundOf at h
  split at h
  · split at h
    · split at h
      · cases h
        exact ⟨_, _, rfl⟩
      · cases h
    · cases h
      exact ⟨_, _, rfl⟩
  · cases h
    exact ⟨_, _, rfl⟩

theorem valid_endBlock (hs : s.Valid [] before) (hline : s.line = []) (hpending : s.pending = none)
    (hends : endsLine before = true) (ht : t.kind = .dedent) (h : s.endBlock t = .ok s') :
    s'.Valid [] (some .dedent) := by
  have hnone := hs.groups_eq_nil
  unfold endBlock at h
  split at h
  · cases h
  · rename_i b outer hblocks
    split at h
    · cases h
    · rename_i st hst
      cases h
      have hb := hs.blocks b (by simp [hblocks])
      have hbody : s.body ≠ [] := by
        intro hbody
        have hbefore := hs.started hbody (by simp [hblocks]) hpending hline hnone
        simp [hbefore, endsLine] at hends
      obtain ⟨signature, header, rfl⟩ := compoundOf_eq_ok hst
      refine ⟨hs.groups, hs.line, hs.kinds, hs.kind, by simp [hpending], ?_, ?_, by simp,
        by simp [hline, hnone]⟩
      · exact bodyWellFormed_concat hb.before
          ⟨⟨hb.indent, ht, hbody, hs.body⟩, hb.newline, b.header, hb.header, hb.opens, hst⟩
      · exact fun c hc => hs.blocks c (by simp [hblocks, hc])

theorem valid_pushWord (hs : s.Valid [] before) (hpending : s.pending = none)
    (hspelling : IsSpelling t.kind t.text) (hkind : t.kind.isWord = true)
    (hb : bracketsAfter t.kind t.text [] = some brackets') :
    Valid (if t.isOpening then { s with groups := [.ofToken t s.line.getLast?] }
      else s.pushItem (.token t)) brackets' (some t.kind) := by
  have hends := endsLine_of_isWord hkind
  have hnone := hs.groups_eq_nil
  split
  · rename_i hopening
    obtain ⟨c, hc, hop, htext, hbrackets⟩ := bracketsAfter_of_isOpening hopening []
    rw [hb] at hbrackets
    obtain rfl := Option.some.inj hbrackets
    refine ⟨⟨⟨hop, hc, htext⟩, OpenGroup.valid_ofToken _ _, trivial⟩, hs.line, hs.kinds, ?_,
      by simp [hpending], hs.body, hs.blocks, by simp, fun _ => hends⟩
    intro g hg
    obtain rfl : OpenGroup.ofToken t s.line.getLast? = g := by simpa using hg
    rfl
  · rename_i hopening
    have hclosing : t.isClosing = false := by
      cases hclosing : t.isClosing with
      | false => rfl
      | true =>
          obtain ⟨c, hc, -⟩ := bracketsAfter_of_isClosing hclosing hb
          cases hc
    have hleaf : t.IsLeaf := ⟨hkind, hspelling.1 hkind, by simpa using hopening, hclosing⟩
    rw [bracketsAfter_of_isLeaf hleaf.2.2.1 hleaf.2.2.2 hleaf.2.1] at hb
    obtain rfl := Option.some.inj hb
    refine ⟨hs.groups, ?_, ?_, by simp [pushItem, hnone], by simp [pushItem, hpending], hs.body,
      hs.blocks, by simp [pushItem], fun _ => hends⟩
    · refine itemsWellFormed_iff.mpr fun i hi => ?_
      rcases List.mem_append.mp hi with hi | hi
      · exact itemsWellFormed_iff.mp hs.line i hi
      · rw [List.mem_singleton.mp hi]
        exact hleaf
    · exact kindsFollow_concat.mpr ⟨hs.kinds, by simp⟩

/-- What reading a token of the given kind gives is well formed. -/
def ResultValid (brackets : List Char) (kind : TokenKind) : ParseState ⊕ Module → Prop
  | .inl s => s.Valid brackets (some kind)
  | .inr m => BodyWellFormed m.body

theorem valid_feedLine (hs : s.Valid [] before) (hpending : s.pending = none)
    (hspelling : IsSpelling t.kind t.text)
    (horder : t.kind.isWord = true ∨ t.kind = .newline ∨ endsLine before = true)
    (hb : bracketsAfter t.kind t.text [] = some brackets') {r : ParseState ⊕ Module}
    (h : s.feedLine t = .ok r) :
    ResultValid brackets' t.kind r := by
  have hline : endsLine before = true → s.line = [] := by
    intro hends
    by_cases hl : s.line = []
    · exact hl
    · have := hs.unfinished (.inl hl)
      simp [hends] at this
  have hword (hkind : t.kind.isWord = true)
      (h : (if t.isOpening then Except.ok (Sum.inl { s with groups := [.ofToken t s.line.getLast?] })
        else .ok (.inl (s.pushItem (.token t)))) = (Except.ok r : Except ParseError _)) :
      ResultValid brackets' t.kind r := by
    have hvalid := valid_pushWord hs hpending hspelling hkind hb
    split at h
    · rename_i hopening
      cases h
      simpa [hopening, ResultValid] using hvalid
    · rename_i hopening
      cases h
      simpa [hopening, ResultValid] using hvalid
  have hnoword : t.kind.isWord = false → brackets' = [] := by
    intro hkind
    rw [bracketsAfter_of_ne_op (by rintro hop; rw [hop] at hkind; cases hkind)] at hb
    exact (Option.some.inj hb).symm
  unfold feedLine at h
  split at h
  · rename_i hkind
    obtain ⟨s', hs', rfl⟩ := exists_of_map_eq_ok h
    rw [hnoword (by rw [hkind]; rfl), hkind]
    exact valid_endLine hs ⟨hkind, hspelling.2 hkind⟩ hs'
  · rename_i hkind
    have hempty := hline (by simpa [hkind, TokenKind.isWord] using horder)
    rw [if_pos (by simp [hempty])] at h
    cases h
  · rename_i hkind
    have hends : endsLine before = true := by simpa [hkind, TokenKind.isWord] using horder
    rw [if_pos (by simp [hline hends])] at h
    obtain ⟨s', hs', rfl⟩ := exists_of_map_eq_ok h
    rw [hnoword (by rw [hkind]; rfl), hkind]
    exact valid_endBlock hs (hline hends) hpending hends hkind hs'
  · rename_i hkind
    have hempty := hline (by simpa [hkind, TokenKind.isWord] using horder)
    rw [if_pos (by simp [hempty])] at h
    split at h
    · cases h
      exact hs.body
    · cases h
  · rename_i h₁ h₂ h₃ h₄
    refine hword ?_ h
    cases hkind : t.kind <;> first | rfl | contradiction

theorem valid_feed (hs : s.Valid brackets before) (hspelling : IsSpelling t.kind t.text)
    (hinside : t.kind.isWord = true ∨ brackets = [])
    (horder : t.kind.isWord = true ∨ t.kind = .newline ∨ endsLine before = true)
    (hb : bracketsAfter t.kind t.text brackets = some brackets') {r : ParseState ⊕ Module}
    (h : s.feed t = .ok r) :
    ResultValid brackets' t.kind r := by
  unfold feed at h
  split at h
  · rename_i g outer hg
    obtain ⟨s', hs', rfl⟩ := exists_of_map_eq_ok h
    refine valid_feedGroup hs hg hspelling (hinside.resolve_right ?_) hb hs'
    rintro rfl
    rw [hs.groups_eq_nil] at hg
    cases hg
  · rename_i hg
    obtain rfl : brackets = [] := by
      have hgroups := hs.groups
      rw [hg] at hgroups
      cases brackets with
      | nil => rfl
      | cons c cs => exact hgroups.elim
    split at h
    · cases h
    · rename_i s₁ hsettle
      cases h
      rcases valid_settle hs hsettle with ⟨-, hkind, hvalid⟩ | ⟨hused, -⟩
      · rw [hkind] at hb ⊢
        obtain rfl := Option.some.inj hb
        exact hvalid
      · cases hused
    · rename_i s₁ hsettle
      rcases valid_settle hs hsettle with ⟨hused, -⟩ | ⟨-, hvalid, hpending, -⟩
      · cases hused
      · exact valid_feedLine hvalid hpending hspelling horder hb h

/-- A run over well-ordered tokens gives a well-formed module. -/
theorem wellFormed_feedAll {ts : List Token} {m : Module} (hs : s.Valid brackets before)
    (hts : WellOrdered brackets before (ts.map Token.spelling)) (h : s.feedAll ts = .ok m) :
    BodyWellFormed m.body := by
  induction ts generalizing s brackets before with
  | nil => cases h
  | cons t ts ih =>
      obtain ⟨hspelling, hinside, horder, outer, hb, hrest⟩ := hts
      rw [feedAll] at h
      split at h
      · cases h
      · rename_i s' hs'
        exact ih (valid_feed hs hspelling hinside horder hb hs') hrest h
      · rename_i m' hm'
        cases h
        exact valid_feed hs hspelling hinside horder hb hm'

end ParseState

theorem parse_wellFormed {source : Text} {m : Module} (h : parse source = .ok m) :
    BodyWellFormed m.body := by
  unfold parse at h
  split at h
  · cases h
  · rename_i ts hts
    refine ParseState.wellFormed_feedAll ParseState.valid_empty ?_ h
    rw [spelling_attachTrailers]
    exact wellOrdered_tokenize hts

end SchemaTidy
