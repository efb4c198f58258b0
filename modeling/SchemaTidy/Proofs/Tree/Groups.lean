import SchemaTidy.Proofs.Tree.WellFormed

/-!
# Groups at every depth

All groups of a tree, and what makes one of them regular: its elements are not empty, commas divide
them, and its brackets are those of its kind. Parsing gives regular groups only.
-/

namespace SchemaTidy

mutual

def Item.groups : Item → List Group
  | .token _ => []
  | .group g => g.groups

def Element.groups : Element → List Group
  | ⟨items, _⟩ => groupsOfItems items

def Group.groups : Group → List Group
  | ⟨opening, elements, closing, kind, sortable⟩ =>
      ⟨opening, elements, closing, kind, sortable⟩ :: groupsOfElements elements

def groupsOfItems : List Item → List Group
  | [] => []
  | i :: is => i.groups ++ groupsOfItems is

def groupsOfElements : List Element → List Group
  | [] => []
  | e :: es => e.groups ++ groupsOfElements es

end

mutual

def Statement.groups : Statement → List Group
  | .simple line => groupsOfItems line.items
  | .compound _ header _ block => groupsOfItems header ++ block.groups

def Block.groups : Block → List Group
  | ⟨_, body, _⟩ => groupsOfBody body

/-- The groups in some statements, at every depth. -/
def groupsOfBody : List Statement → List Group
  | [] => []
  | s :: ss => s.groups ++ groupsOfBody ss

end

def Module.groups (m : Module) : List Group := groupsOfBody m.body

/-- The brackets of a group are those of its kind, no element is empty, every element but the last has
a comma, and commas are commas. -/
structure Group.IsRegular (g : Group) : Prop where
  opening : g.opening.isOp g.kind.opening = true
  closing : g.closing.isOp g.kind.closing = true
  items : ∀ e ∈ g.elements, e.items ≠ []
  separated : ∀ e ∈ g.elements.dropLast, e.comma.isSome = true
  comma : ∀ e ∈ g.elements, ∀ t, e.comma = some t → t.isOp "," = true

def Item.Regular (i : Item) : Prop := ∀ g ∈ i.groups, g.IsRegular

/-- A group is regular, and so is every group in it. -/
def Group.Regular (g : Group) : Prop := ∀ h ∈ g.groups, h.IsRegular

structure Element.Regular (e : Element) : Prop where
  items_ne_nil : e.items ≠ []
  comma : ∀ t, e.comma = some t → t.isOp "," = true
  items : ∀ i ∈ e.items, i.Regular

def Statement.Regular (s : Statement) : Prop := ∀ g ∈ s.groups, g.IsRegular

theorem mem_groupsOfItems {g : Group} {is : List Item} :
    g ∈ groupsOfItems is ↔ ∃ i ∈ is, g ∈ i.groups := by
  induction is with
  | nil => simp [groupsOfItems]
  | cons i is ih => simp [groupsOfItems, ih]

theorem mem_groupsOfElements {g : Group} {es : List Element} :
    g ∈ groupsOfElements es ↔ ∃ e ∈ es, g ∈ groupsOfItems e.items := by
  induction es with
  | nil => simp [groupsOfElements]
  | cons e es ih =>
      obtain ⟨items, comma⟩ := e
      simp [groupsOfElements, Element.groups, ih]

theorem mem_groupsOfBody {g : Group} {ss : List Statement} :
    g ∈ groupsOfBody ss ↔ ∃ s ∈ ss, g ∈ s.groups := by
  induction ss with
  | nil => simp [groupsOfBody]
  | cons s ss ih => simp [groupsOfBody, ih]

@[simp] theorem Item.regular_token (t : Token) : (Item.token t).Regular := by
  simp [Item.Regular, Item.groups]

@[simp] theorem Item.regular_group {g : Group} : (Item.group g).Regular ↔ g.Regular := by
  simp [Item.Regular, Item.groups, Group.Regular]

theorem forall_groupsOfItems {is : List Item} :
    (∀ g ∈ groupsOfItems is, g.IsRegular) ↔ ∀ i ∈ is, i.Regular := by
  simp only [mem_groupsOfItems, Item.Regular]
  constructor
  · intro h i hi g hg
    exact h g ⟨i, hi, hg⟩
  · rintro h g ⟨i, hi, hg⟩
    exact h i hi g hg

theorem Group.regular_iff {g : Group} :
    g.Regular ↔ g.opening.isOp g.kind.opening = true ∧ g.closing.isOp g.kind.closing = true ∧
      (∀ e ∈ g.elements.dropLast, e.comma.isSome = true) ∧ ∀ e ∈ g.elements, e.Regular := by
  obtain ⟨opening, elements, closing, kind, sortable⟩ := g
  have hbelow : (∀ h ∈ groupsOfElements elements, h.IsRegular) ↔
      ∀ e ∈ elements, ∀ i ∈ e.items, i.Regular := by
    simp only [mem_groupsOfElements, ← forall_groupsOfItems]
    constructor
    · intro h e he g hg
      exact h g ⟨e, he, hg⟩
    · rintro h g ⟨e, he, hg⟩
      exact h e he g hg
  rw [Group.Regular, Group.groups, List.forall_mem_cons, hbelow]
  constructor
  · rintro ⟨h, hitems⟩
    exact ⟨h.opening, h.closing, h.separated, fun e he => ⟨h.items e he, h.comma e he, hitems e he⟩⟩
  · rintro ⟨hopening, hclosing, hseparated, helements⟩
    exact ⟨⟨hopening, hclosing, fun e he => (helements e he).items_ne_nil, hseparated,
      fun e he => (helements e he).comma⟩, fun e he => (helements e he).items⟩

theorem Statement.regular_simple {line : Line} :
    (Statement.simple line).Regular ↔ ∀ i ∈ line.items, i.Regular := by
  rw [Statement.Regular, Statement.groups, forall_groupsOfItems]

theorem forall_groupsOfBody {ss : List Statement} :
    (∀ g ∈ groupsOfBody ss, g.IsRegular) ↔ ∀ s ∈ ss, s.Regular := by
  simp only [mem_groupsOfBody, Statement.Regular]
  constructor
  · intro h s hs g hg
    exact h g ⟨s, hs, hg⟩
  · rintro h g ⟨s, hs, hg⟩
    exact h s hs g hg

theorem Statement.regular_compound {signature : Option ClassSignature} {header : List Item}
    {newline : Token} {block : Block} :
    (Statement.compound signature header newline block).Regular ↔
      (∀ i ∈ header, i.Regular) ∧ ∀ s ∈ block.body, s.Regular := by
  obtain ⟨indent, body, dedent⟩ := block
  rw [Statement.Regular, Statement.groups, Block.groups, List.forall_mem_append,
    forall_groupsOfItems, forall_groupsOfBody]

/-! ## Parsing -/

theorem isOp_groupKind {t : Token} (h : t.isOpening = true) (previous : Option Item) :
    t.isOp (groupKind t previous).opening = true := by
  obtain ⟨c, hc, hkind, htext, -⟩ := bracketsAfter_of_isOpening h []
  rcases hc with rfl | rfl | rfl
  · cases hcall : followsCallable previous <;>
      simp [groupKind, htext, hcall, Token.isOp, hkind, GroupKind.opening]
  · cases hcall : followsCallable previous <;>
      simp [groupKind, htext, hcall, Token.isOp, hkind, GroupKind.opening]
  · simp [groupKind, htext, Token.isOp, hkind, GroupKind.opening]

theorem isOp_closing {kind : GroupKind} {opening closing : Token} {c : Char}
    (hopening : opening.isOp kind.opening = true) (hc : opening.text = [c])
    (hclosing : closing.kind = .op) (htext : closing.text = [Cursor.matching c]) :
    closing.isOp kind.closing = true := by
  have hkind : kind.opening.toList = [c] := by
    simp only [Token.isOp, Bool.and_eq_true, beq_iff_eq] at hopening
    rw [← hopening.2, hc]
  have hmatch : kind.closing.toList = [Cursor.matching c] := by
    cases kind <;> simp only [GroupKind.opening] at hkind <;> cases hkind <;> rfl
  simp [Token.isOp, hclosing, htext, hmatch]

structure OpenGroup.Regular (g : OpenGroup) : Prop where
  opening : g.opening.isOp g.kind.opening = true
  elements : ∀ e ∈ g.elements, e.comma.isSome = true ∧ e.Regular
  current : ∀ i ∈ g.current, i.Regular

namespace OpenGroup

theorem regular_ofToken {t : Token} (h : t.isOpening = true) (previous : Option Item) :
    (ofToken t previous).Regular :=
  ⟨isOp_groupKind h previous, by simp [ofToken], by simp [ofToken]⟩

variable {g : OpenGroup}

theorem Regular.push {g' : OpenGroup} (h : g.Regular) {i : Item} (hi : i.Regular)
    (hopening : g'.opening = g.opening) (hkind : g'.kind = g.kind)
    (helements : g'.elements = g.elements) (hcurrent : g'.current = g.current ++ [i]) :
    g'.Regular := by
  refine ⟨hopening ▸ hkind ▸ h.opening, helements ▸ h.elements, ?_⟩
  rw [hcurrent, List.forall_mem_append, List.forall_mem_singleton]
  exact ⟨h.current, hi⟩

theorem Regular.pushComma (h : g.Regular) {t : Token} (hcurrent : g.current ≠ [])
    (hseparates : g.separates t = true) : (g.pushComma t).Regular := by
  have hcomma : t.isOp "," = true := by
    simp only [separates, Bool.and_eq_true] at hseparates
    exact hseparates.1.1
  have hnew : Element.Regular ⟨g.current, some t⟩ :=
    ⟨hcurrent, by simpa using hcomma, h.current⟩
  refine ⟨h.opening, ?_, by simp [OpenGroup.pushComma]⟩
  intro e he
  rcases List.mem_append.mp he with he | he
  · exact h.elements e he
  · rw [List.mem_singleton.mp he]
    exact ⟨rfl, hnew⟩

theorem Regular.close (h : g.Regular) {t : Token} (ht : t.isOp g.kind.closing = true) :
    (g.close t).Regular := by
  rw [Group.regular_iff]
  refine ⟨h.opening, ht, ?_⟩
  simp only [OpenGroup.close]
  split
  · exact ⟨fun e he => (h.elements e ((List.dropLast_sublist _).subset he)).1, fun e he =>
      (h.elements e he).2⟩
  · rename_i hcurrent
    have hnew : Element.Regular ⟨g.current, none⟩ :=
      ⟨by simpa using hcurrent, by simp, h.current⟩
    rw [List.dropLast_concat]
    refine ⟨fun e he => (h.elements e he).1, fun e he => ?_⟩
    rcases List.mem_append.mp he with he | he
    · exact (h.elements e he).2
    · rw [List.mem_singleton.mp he]
      exact hnew

end OpenGroup

structure ParseState.Regular (s : ParseState) : Prop where
  groups : ∀ g ∈ s.groups, g.Regular
  line : ∀ i ∈ s.line, i.Regular
  pending : ∀ p, s.pending = some p → ∀ i ∈ p.1, i.Regular
  body : ∀ st ∈ s.body, st.Regular
  blocks : ∀ b ∈ s.blocks, (∀ st ∈ b.before, st.Regular) ∧ ∀ i ∈ b.header, i.Regular

theorem regular_relabelHeader {header : List Item} (h : ∀ i ∈ header, i.Regular) :
    ∀ i ∈ relabelHeader header, i.Regular := by
  unfold relabelHeader
  split
  · rename_i word g rest
    split
    · simp only [List.forall_mem_cons, Item.regular_token, Item.regular_group, true_and] at h ⊢
      refine ⟨?_, h.2⟩
      obtain ⟨hopening, hclosing, hrest⟩ := Group.regular_iff.mp h.1
      refine Group.regular_iff.mpr ⟨?_, ?_, hrest⟩
      · cases hkind : g.kind <;> simpa [hkind, GroupKind.opening] using hopening
      · cases hkind : g.kind <;> simpa [hkind, GroupKind.closing] using hclosing
    · exact h
  · exact h

theorem regular_compoundOf {header : List Item} {newline : Token} {block : Block} {s : Statement}
    (hheader : ∀ i ∈ header, i.Regular) (hblock : ∀ st ∈ block.body, st.Regular)
    (h : compoundOf header newline block = .ok s) : s.Regular := by
  unfold compoundOf at h
  split at h
  · split at h
    · split at h
      · cases h
        exact Statement.regular_compound.mpr ⟨hheader, hblock⟩
      · cases h
    · cases h
      exact Statement.regular_compound.mpr ⟨regular_relabelHeader hheader, hblock⟩
  · cases h
    exact Statement.regular_compound.mpr ⟨hheader, hblock⟩

namespace ParseState

variable {s s' : ParseState} {t : Token} {brackets brackets' : List Char}
  {before : Option TokenKind}

theorem regular_empty : empty.Regular := by
  constructor <;> simp [empty]

theorem Regular.pushItem (hs : s.Regular) {i : Item} (hi : i.Regular) : (s.pushItem i).Regular where
  groups := hs.groups
  line := List.forall_mem_append.mpr ⟨hs.line, List.forall_mem_singleton.mpr hi⟩
  pending := hs.pending
  body := hs.body
  blocks := hs.blocks

theorem regular_feedGroup {g : OpenGroup} {outer : List OpenGroup} (hvalid : s.Valid brackets before)
    (hs : s.Regular) (hg : s.groups = g :: outer)
    (hb : bracketsAfter t.kind t.text brackets = some brackets')
    (h : s.feedGroup g outer t = .ok s') : s'.Regular := by
  have hgroups := hs.groups
  rw [hg, List.forall_mem_cons] at hgroups
  obtain ⟨hregular, houter⟩ := hgroups
  have hset {g' : OpenGroup} (hg' : g'.Regular) : Regular { s with groups := g' :: outer } :=
    ⟨List.forall_mem_cons.mpr ⟨hg', houter⟩, hs.line, hs.pending, hs.body, hs.blocks⟩
  unfold feedGroup at h
  split at h
  · rename_i hclosing
    obtain ⟨c, rfl, hop, htext⟩ := bracketsAfter_of_isClosing hclosing hb
    have hopened := hvalid.groups
    rw [hg] at hopened
    have hclose := hregular.close (isOp_closing hregular.opening hopened.1.2.2 hop htext)
    split at h
    · cases h
      have hnone : Regular { s with groups := [] } :=
        ⟨List.forall_mem_nil _, hs.line, hs.pending, hs.body, hs.blocks⟩
      exact hnone.pushItem (Item.regular_group.mpr hclose)
    · rename_i k outer
      cases h
      rw [List.forall_mem_cons] at houter
      have hk : (k.pushGroup (g.close t)).Regular :=
        houter.1.push (Item.regular_group.mpr hclose) rfl rfl rfl rfl
      exact ⟨List.forall_mem_cons.mpr ⟨hk, houter.2⟩, hs.line, hs.pending, hs.body, hs.blocks⟩
  split at h
  · cases h
  split at h
  · rename_i hseparates
    split at h
    · cases h
    · rename_i hcurrent
      cases h
      exact hset (hregular.pushComma (by simpa using hcurrent) hseparates)
  split at h
  · rename_i hopening
    cases h
    refine ⟨List.forall_mem_cons.mpr ⟨OpenGroup.regular_ofToken hopening _, ?_⟩, hs.line, hs.pending,
      hs.body, hs.blocks⟩
    exact List.forall_mem_cons.mpr ⟨hregular, houter⟩
  · cases h
    obtain ⟨hcurrent, helements, hopening, hkind⟩ := g.current_pushToken t
    exact hset (hregular.push (Item.regular_token t) hopening hkind helements hcurrent)

theorem regular_settle {used : Bool} (hs : s.Regular) (h : s.settle t = .ok (s', used)) :
    s'.Regular := by
  unfold settle at h
  split at h
  · cases h
    exact hs
  · rename_i items newline hpending
    have hitems := hs.pending _ hpending
    simp only at h
    split at h
    · split at h
      · cases h
        exact ⟨hs.groups, hs.line, by simp, by simp,
          List.forall_mem_cons.mpr ⟨⟨hs.body, hitems⟩, hs.blocks⟩⟩
      · cases h
    split at h
    · cases h
    · cases h
      refine ⟨hs.groups, hs.line, by simp, List.forall_mem_append.mpr ⟨hs.body, ?_⟩, hs.blocks⟩
      exact List.forall_mem_singleton.mpr (Statement.regular_simple.mpr hitems)

theorem regular_endLine (hs : s.Regular) (h : s.endLine t = .ok s') : s'.Regular := by
  have hstep : Regular { s with pending := some (s.line, t), line := [] } := by
    refine ⟨hs.groups, by simp, ?_, hs.body, hs.blocks⟩
    rintro p hp
    obtain rfl := Option.some.inj hp
    exact hs.line
  unfold endLine at h
  split at h
  · cases h
  · split at h
    · cases h
    · cases h
      exact hstep
  · cases h
    exact hstep

theorem regular_endBlock (hs : s.Regular) (h : s.endBlock t = .ok s') : s'.Regular := by
  unfold endBlock at h
  split at h
  · cases h
  · rename_i b outer hblocks
    split at h
    · cases h
    · rename_i st hst
      cases h
      have hblocks' := hs.blocks
      rw [hblocks, List.forall_mem_cons] at hblocks'
      obtain ⟨⟨hbefore, hheader⟩, houter⟩ := hblocks'
      refine ⟨hs.groups, hs.line, hs.pending, List.forall_mem_append.mpr ⟨hbefore, ?_⟩, houter⟩
      exact List.forall_mem_singleton.mpr (regular_compoundOf hheader hs.body hst)

/-- Every group of what reading a token gives is regular. -/
def GivesRegular : ParseState ⊕ Module → Prop
  | .inl s => s.Regular
  | .inr m => ∀ st ∈ m.body, st.Regular

theorem regular_feedLine (hs : s.Regular) {r : ParseState ⊕ Module} (h : s.feedLine t = .ok r) :
    GivesRegular r := by
  have hend {r : ParseState ⊕ Module} (h : (s.endLine t).map .inl = .ok r) : GivesRegular r := by
    obtain ⟨s', hs', rfl⟩ := exists_of_map_eq_ok h
    exact regular_endLine hs hs'
  unfold feedLine at h
  split at h
  · exact hend h
  · split at h
    · cases h
    · exact hend h
  · split at h
    · obtain ⟨s', hs', rfl⟩ := exists_of_map_eq_ok h
      exact regular_endBlock hs hs'
    · exact hend h
  · split at h
    · split at h
      · cases h
        exact hs.body
      · cases h
    · exact hend h
  · split at h
    · rename_i hopening
      cases h
      exact ⟨by simpa using OpenGroup.regular_ofToken hopening _, hs.line, hs.pending, hs.body,
        hs.blocks⟩
    · cases h
      exact hs.pushItem (Item.regular_token t)

theorem regular_feed (hvalid : s.Valid brackets before) (hs : s.Regular)
    (hb : bracketsAfter t.kind t.text brackets = some brackets') {r : ParseState ⊕ Module}
    (h : s.feed t = .ok r) : GivesRegular r := by
  unfold feed at h
  split at h
  · rename_i g outer hg
    obtain ⟨s', hs', rfl⟩ := exists_of_map_eq_ok h
    exact regular_feedGroup hvalid hs hg hb hs'
  · split at h
    · cases h
    · rename_i hsettle
      cases h
      exact regular_settle hs hsettle
    · rename_i hsettle
      exact regular_feedLine (regular_settle hs hsettle) h

theorem regular_feedAll {ts : List Token} {m : Module} (hvalid : s.Valid brackets before)
    (hs : s.Regular) (hts : WellOrdered brackets before (ts.map Token.spelling))
    (h : s.feedAll ts = .ok m) : ∀ st ∈ m.body, st.Regular := by
  induction ts generalizing s brackets before with
  | nil => cases h
  | cons t ts ih =>
      obtain ⟨hspelling, hinside, horder, outer, hb, hrest⟩ := hts
      rw [feedAll] at h
      split at h
      · cases h
      · rename_i s' hs'
        exact ih (valid_feed hvalid hspelling hinside horder hb hs')
          (regular_feed hvalid hs hb hs') hrest h
      · rename_i m' hm'
        cases h
        exact regular_feed hvalid hs hb hm'

end ParseState

/-- Every group of a parsed module is regular. -/
theorem parse_regular {source : Text} {m : Module} (h : parse source = .ok m) :
    ∀ s ∈ m.body, s.Regular := by
  unfold parse at h
  split at h
  · cases h
  · rename_i ts hts
    refine ParseState.regular_feedAll ParseState.valid_empty ParseState.regular_empty ?_ h
    rw [spelling_attachTrailers]
    exact wellOrdered_tokenize hts

end SchemaTidy
