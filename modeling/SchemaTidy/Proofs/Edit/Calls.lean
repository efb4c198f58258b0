import SchemaTidy.Proofs.Edit.Visit
import SchemaTidy.Proofs.Migration.Call

/-!
# Field constructor calls inside a group

The calls that the engine visits, listed by recursion on the group, and what a traversal does to
them. Whether a group is such a call depends on its kind and on the kinds and texts of the tokens
before it, so a visit that keeps the kind of each call finds the same calls again.
-/

namespace SchemaTidy

mutual

/-- The outermost field constructor calls inside a group, with their constructors. Keyword arguments
named in `skip` are passed over. -/
def Group.calls (d : Detector) (skip : List Text) : Group → List (Text × Group)
  | ⟨_, elements, _, _, _⟩ => callsInElements d skip elements

/-- The outermost field constructor calls inside some elements. -/
def callsInElements (d : Detector) (skip : List Text) : List Element → List (Text × Group)
  | [] => []
  | e :: es =>
      (if e.keyword?.any skip.contains then [] else e.calls d) ++ callsInElements d skip es

/-- The outermost field constructor calls inside an element. -/
def Element.calls (d : Detector) : Element → List (Text × Group)
  | ⟨items, _⟩ => callsInItems d [] items

/-- The outermost field constructor calls inside items that follow the items `before`, which are in
reverse order. -/
def callsInItems (d : Detector) (before : List Item) : List Item → List (Text × Group)
  | [] => []
  | .token t :: rest => callsInItems d (.token t :: before) rest
  | .group g :: rest =>
      (match d.constructorBefore? before g with
        | some constructor => [(constructor, g)]
        | none => g.calls d []) ++
        callsInItems d (.group g :: before) rest

end

/-- The calls that are nested `n` field constructor calls deep in a call of `constructor`, not inside
the argument `destination` of any of them. -/
def callsAt (d : Detector) (destination : Text) : Nat → Text → Group → List (Text × Group)
  | 0, constructor, g => [(constructor, g)]
  | n + 1, _, g => (g.calls d [destination]).flatMap fun x => callsAt d destination n x.1 x.2

/-- The names of the keyword arguments of a call, in order. -/
def Group.keywords (g : Group) : List Text := g.elements.filterMap Element.keyword?

/-! ## Outlines -/

def Item.outline (i : Item) : Option (TokenKind × Text) := i.token?.map fun t => (t.kind, t.text)

@[simp] theorem outline_token (t : Token) : (Item.token t).outline = some (t.kind, t.text) := rfl

@[simp] theorem outline_group (g : Group) : (Item.group g).outline = none := rfl

@[simp] theorem outline_mapFirst_withTrivia (i : Item) (trivia : Text) :
    (i.mapFirst (·.withTrivia trivia)).outline = i.outline := by
  cases i <;> rfl

theorem exists_token_of_outline {i : Item} {kind : TokenKind} {text : Text}
    (h : i.outline = some (kind, text)) : ∃ t, i = .token t ∧ t.kind = kind ∧ t.text = text := by
  cases i with
  | token t => exact ⟨t, rfl, by simpa using h⟩
  | group g => simp at h

theorem exists_group_of_outline {i : Item} (h : i.outline = none) : ∃ g, i = .group g := by
  cases i with
  | token t => simp at h
  | group g => exact ⟨g, rfl⟩

section TokenCongruence

variable {s t : Token} (hkind : s.kind = t.kind) (htext : s.text = t.text)

include hkind htext

theorem Token.isOp_congr (text : String) : s.isOp text = t.isOp text := by
  simp [Token.isOp, hkind, htext]

theorem Token.isIdentifier_congr : s.isIdentifier = t.isIdentifier := by
  simp [Token.isIdentifier, hkind, htext]

theorem Token.isReserved_congr : s.isReserved = t.isReserved := by
  simp [Token.isReserved, hkind, htext]

end TokenCongruence

theorem keyword?_of_outline {e e' : Element}
    (h : e'.items.map Item.outline = e.items.map Item.outline) : e'.keyword? = e.keyword? := by
  obtain ⟨items, comma⟩ := e
  obtain ⟨items', comma'⟩ := e'
  match items with
  | [] =>
      obtain rfl : items' = [] := by simpa using h
      rfl
  | [a] =>
      obtain ⟨a', rfl, -⟩ := List.map_eq_singleton_iff.mp h
      cases a <;> cases a' <;> rfl
  | a :: b :: rest =>
      obtain ⟨a', tail', rfl, ha, htail⟩ := List.map_eq_cons_iff.mp h
      obtain ⟨b', rest', rfl, hb, hrest⟩ := List.map_eq_cons_iff.mp htail
      cases a with
      | group g =>
          obtain ⟨g', rfl⟩ := exists_group_of_outline ha
          rfl
      | token s =>
          obtain ⟨s', rfl, hs⟩ := exists_token_of_outline ha
          cases b with
          | group g =>
              obtain ⟨g', rfl⟩ := exists_group_of_outline hb
              rfl
          | token t =>
              obtain ⟨t', rfl, ht⟩ := exists_token_of_outline hb
              cases rest with
              | nil =>
                  obtain rfl : rest' = [] := by simpa using hrest
                  rfl
              | cons c cs =>
                  obtain ⟨c', cs', rfl, -⟩ := List.map_eq_cons_iff.mp hrest
                  simp only [Element.keyword?, Token.isIdentifier_congr hs.1 hs.2,
                    Token.isOp_congr ht.1 ht.2, hs.2]

theorem outline_dropQualifiers {items items' : List Item}
    (h : items'.map Item.outline = items.map Item.outline) :
    (dropQualifiers items').map Item.outline = (dropQualifiers items).map Item.outline := by
  fun_induction dropQualifiers items generalizing items' with
  | case1 dot name rest hdrop ih =>
      obtain ⟨dot', tail', rfl, hdot, htail⟩ := List.map_eq_cons_iff.mp h
      obtain ⟨name', rest', rfl, hname, hrest⟩ := List.map_eq_cons_iff.mp htail
      obtain ⟨s, rfl, hs⟩ := exists_token_of_outline hdot
      obtain ⟨t, rfl, ht⟩ := exists_token_of_outline hname
      rw [dropQualifiers, Token.isOp_congr hs.1 hs.2, Token.isIdentifier_congr ht.1 ht.2,
        if_pos hdrop]
      exact ih hrest
  | case2 dot name rest hdrop =>
      obtain ⟨dot', tail', rfl, hdot, htail⟩ := List.map_eq_cons_iff.mp h
      obtain ⟨name', rest', rfl, hname, hrest⟩ := List.map_eq_cons_iff.mp htail
      obtain ⟨s, rfl, hs⟩ := exists_token_of_outline hdot
      obtain ⟨t, rfl, ht⟩ := exists_token_of_outline hname
      rw [dropQualifiers, Token.isOp_congr hs.1 hs.2, Token.isIdentifier_congr ht.1 ht.2,
        if_neg hdrop]
      exact h
  | case3 items hshape =>
      have hkeep : dropQualifiers items' = items' := by
        unfold dropQualifiers
        split
        · rename_i dot name rest
          obtain ⟨a, tail, rfl, ha, htail⟩ := List.map_eq_cons_iff.mp h.symm
          obtain ⟨b, rest', rfl, hb, -⟩ := List.map_eq_cons_iff.mp htail
          obtain ⟨s, rfl, -⟩ := exists_token_of_outline ha
          obtain ⟨t, rfl, -⟩ := exists_token_of_outline hb
          exact absurd rfl (hshape s t rest')
        · rfl
      rw [hkeep, h]

theorem startsExpression_of_outline {i i' : Option Item}
    (h : i'.map Item.outline = i.map Item.outline) :
    startsExpression i' = startsExpression i := by
  cases i with
  | none =>
      rw [Option.map_eq_none_iff.mp h]
  | some i =>
      obtain ⟨i', rfl, hi⟩ := Option.map_eq_some_iff.mp h
      cases i with
      | token t =>
          obtain ⟨t', rfl, ht⟩ := exists_token_of_outline hi
          simp only [startsExpression, Token.isReserved_congr ht.1 ht.2, ht.1, ht.2]
      | group g =>
          obtain ⟨g', rfl⟩ := exists_group_of_outline hi
          rfl

/-- Whether a group is a field constructor call depends on its kind and on the outlines before it. -/
theorem constructorBefore?_congr (d : Detector) {before before' : List Item} {g g' : Group}
    (h : before'.map Item.outline = before.map Item.outline) (hkind : g'.kind = g.kind) :
    d.constructorBefore? before' g' = d.constructorBefore? before g := by
  match before with
  | [] =>
      rw [List.map_nil, List.map_eq_nil_iff] at h
      rw [h]
      rfl
  | .group k :: rest =>
      obtain ⟨i, rest', rfl, hi, -⟩ := List.map_eq_cons_iff.mp h
      obtain ⟨k', rfl⟩ := exists_group_of_outline hi
      rfl
  | .token name :: rest =>
      obtain ⟨i, rest', rfl, hi, hrest⟩ := List.map_eq_cons_iff.mp h
      obtain ⟨name', rfl, hname⟩ := exists_token_of_outline hi
      have hstart : startsExpression (dropQualifiers rest').head? =
          startsExpression (dropQualifiers rest).head? := by
        apply startsExpression_of_outline
        rw [← List.head?_map, ← List.head?_map, outline_dropQualifiers hrest]
      simp only [Detector.constructorBefore?, hkind, Token.isIdentifier_congr hname.1 hname.2,
        hname.2, hstart]

/-! ## What a traversal keeps -/

theorem visitInItems_outline (d : Detector) (visit : CallPath → Text → Group → Group × Log)
    (i j : Nat) (before items : List Item) :
    (visitInItems d visit i j before items).1.map Item.outline = items.map Item.outline := by
  induction items generalizing j before with
  | nil => simp [visitInItems]
  | cons item rest ih =>
      cases item with
      | token t => simp [visitInItems, ih]
      | group g => simp [visitInItems, ih]

theorem Element.keyword?_visitCalls (d : Detector) (visit : CallPath → Text → Group → Group × Log)
    (i : Nat) (e : Element) : (e.visitCalls d visit i).1.keyword? = e.keyword? := by
  obtain ⟨items, comma⟩ := e
  apply keyword?_of_outline
  rw [Element.visitCalls]
  exact visitInItems_outline d visit i 0 [] items

theorem visitInElements_keyword? (d : Detector) (skip : List Text)
    (visit : CallPath → Text → Group → Group × Log) (i : Nat) (es : List Element) :
    (visitInElements d skip visit i es).1.map Element.keyword? = es.map Element.keyword? := by
  induction es generalizing i with
  | nil => simp [visitInElements]
  | cons e es ih =>
      simp only [visitInElements, List.map_cons, ih]
      split
      · rfl
      · rw [e.keyword?_visitCalls]

namespace Group

theorem map_keyword?_visitCalls (d : Detector) (skip : List Text)
    (visit : CallPath → Text → Group → Group × Log) (g : Group) :
    (g.visitCalls d skip visit).1.elements.map Element.keyword? =
      g.elements.map Element.keyword? := by
  cases g
  rw [visitCalls]
  exact visitInElements_keyword? d skip visit 0 _

@[simp] theorem kind_visitCalls (d : Detector) (skip : List Text)
    (visit : CallPath → Text → Group → Group × Log) (g : Group) :
    (g.visitCalls d skip visit).1.kind = g.kind := by
  cases g
  rw [visitCalls]

@[simp] theorem opening_visitCalls (d : Detector) (skip : List Text)
    (visit : CallPath → Text → Group → Group × Log) (g : Group) :
    (g.visitCalls d skip visit).1.opening = g.opening := by
  cases g
  rw [visitCalls]

end Group

theorem classify_visitCalls (d : Detector) (destination : Text)
    (visit : CallPath → Text → Group → Group × Log) (g : Group) :
    classify (g.visitCalls d [destination] visit).1 destination = classify g destination := by
  have hfind (i : Nat) (es : List Element) :
      (visitInElements d [destination] visit i es).1.find? (·.keyword? == some destination) =
        es.find? (·.keyword? == some destination) := by
    induction es generalizing i with
    | nil => simp [visitInElements]
    | cons e es ih =>
        simp only [visitInElements, List.find?_cons, ih]
        by_cases he : e.keyword? = some destination
        · simp [he]
        · have hskip : e.keyword?.any [destination].contains = false := by
            cases hk : e.keyword? with
            | none => rfl
            | some name =>
                rw [hk, Option.some.injEq] at he
                simpa using he
          have hne : (e.keyword? == some destination) = false := by simpa using he
          simp [hskip, e.keyword?_visitCalls, hne]
  cases g
  rw [Group.visitCalls]
  simp only [classify, hfind]

mutual

/-- The calls of a traversed group are the results of visiting the calls it had before. -/
theorem mem_calls_visitCalls (d : Detector) (skip : List Text) :
    (g : Group) → ∀ (visit : CallPath → Text → Group → Group × Log),
      (∀ path constructor inner, (visit path constructor inner).1.kind = inner.kind) →
      ∀ x ∈ (g.visitCalls d skip visit).1.calls d skip,
        ∃ path inner, (x.1, inner) ∈ g.calls d skip ∧ x.2 = (visit path x.1 inner).1
  | ⟨opening, elements, closing, kind, sortable⟩ => by
      intro visit hkind x hx
      rw [Group.visitCalls, Group.calls] at hx
      rw [Group.calls]
      exact mem_callsInElements_visit d skip elements visit 0 hkind x hx

theorem mem_callsInElements_visit (d : Detector) (skip : List Text) :
    (es : List Element) → ∀ (visit : CallPath → Text → Group → Group × Log) (i : Nat),
      (∀ path constructor inner, (visit path constructor inner).1.kind = inner.kind) →
      ∀ x ∈ callsInElements d skip (visitInElements d skip visit i es).1,
        ∃ path inner, (x.1, inner) ∈ callsInElements d skip es ∧ x.2 = (visit path x.1 inner).1
  | [] => by
      intro visit i hkind x hx
      simp [visitInElements, callsInElements] at hx
  | e :: es => by
      intro visit i hkind x hx
      rw [visitInElements, callsInElements] at hx
      rw [callsInElements]
      rcases List.mem_append.mp hx with hx | hx
      · by_cases hskip : e.keyword?.any skip.contains = true
        · simp [hskip] at hx
        · simp only [hskip, Bool.false_eq_true, if_false, e.keyword?_visitCalls] at hx ⊢
          obtain ⟨path, inner, hmem, heq⟩ := mem_elementCalls_visit d e visit i hkind x hx
          exact ⟨path, inner, List.mem_append_left _ hmem, heq⟩
      · obtain ⟨path, inner, hmem, heq⟩ :=
          mem_callsInElements_visit d skip es visit (i + 1) hkind x hx
        exact ⟨path, inner, List.mem_append_right _ hmem, heq⟩

theorem mem_elementCalls_visit (d : Detector) :
    (e : Element) → ∀ (visit : CallPath → Text → Group → Group × Log) (i : Nat),
      (∀ path constructor inner, (visit path constructor inner).1.kind = inner.kind) →
      ∀ x ∈ (e.visitCalls d visit i).1.calls d,
        ∃ path inner, (x.1, inner) ∈ e.calls d ∧ x.2 = (visit path x.1 inner).1
  | ⟨items, comma⟩ => by
      intro visit i hkind x hx
      rw [Element.visitCalls, Element.calls] at hx
      rw [Element.calls]
      exact mem_callsInItems_visit d items visit i 0 [] [] hkind rfl x hx

theorem mem_callsInItems_visit (d : Detector) :
    (items : List Item) → ∀ (visit : CallPath → Text → Group → Group × Log) (i j : Nat)
      (before before' : List Item),
      (∀ path constructor inner, (visit path constructor inner).1.kind = inner.kind) →
      before'.map Item.outline = before.map Item.outline →
      ∀ x ∈ callsInItems d before' (visitInItems d visit i j before items).1,
        ∃ path inner, (x.1, inner) ∈ callsInItems d before items ∧
          x.2 = (visit path x.1 inner).1
  | [] => by
      intro visit i j before before' hkind hbefore x hx
      simp [visitInItems, callsInItems] at hx
  | .token t :: rest => by
      intro visit i j before before' hkind hbefore x hx
      rw [visitInItems, callsInItems] at hx
      rw [callsInItems]
      exact mem_callsInItems_visit d rest visit i (j + 1) _ _ hkind (by simp [hbefore]) x hx
  | .group g :: rest => by
      intro visit i j before before' hkind hbefore x hx
      rw [visitInItems, callsInItems] at hx
      rw [callsInItems]
      rcases List.mem_append.mp hx with hx | hx
      · cases hc : d.constructorBefore? before g with
        | some constructor =>
            simp only [hc] at hx
            rw [constructorBefore?_congr d hbefore (hkind _ constructor g), hc] at hx
            rw [List.mem_singleton] at hx
            subst hx
            exact ⟨_, g, by simp, rfl⟩
        | none =>
            simp only [hc] at hx
            rw [constructorBefore?_congr d hbefore (Group.kind_visitCalls d [] _ g), hc] at hx
            obtain ⟨path, inner, hmem, heq⟩ := mem_calls_visitCalls d [] g
              (fun path => visit ((i, j) :: path)) (fun path => hkind ((i, j) :: path)) x hx
            exact ⟨_, inner, List.mem_append_left _ hmem, heq⟩
      · obtain ⟨path, inner, hmem, heq⟩ := mem_callsInItems_visit d rest visit i (j + 1)
          (.group g :: before) _ hkind (by simp [hbefore]) x hx
        exact ⟨path, inner, List.mem_append_right _ hmem, heq⟩

end

mutual

theorem visitCalls_eq_self (d : Detector) (skip : List Text) :
    (g : Group) → ∀ (visit : CallPath → Text → Group → Group × Log),
      (∀ path, ∀ x ∈ g.calls d skip,
        (visit path x.1 x.2).1 = x.2 ∧ (visit path x.1 x.2).2.edits = []) →
      (g.visitCalls d skip visit).1 = g ∧ (g.visitCalls d skip visit).2.edits = []
  | ⟨opening, elements, closing, kind, sortable⟩ => by
      intro visit h
      rw [Group.calls] at h
      obtain ⟨hes, hedits⟩ := visitInElements_eq_self d skip elements visit 0 h
      rw [Group.visitCalls]
      exact ⟨by simp only [hes], hedits⟩

theorem visitInElements_eq_self (d : Detector) (skip : List Text) :
    (es : List Element) → ∀ (visit : CallPath → Text → Group → Group × Log) (i : Nat),
      (∀ path, ∀ x ∈ callsInElements d skip es,
        (visit path x.1 x.2).1 = x.2 ∧ (visit path x.1 x.2).2.edits = []) →
      (visitInElements d skip visit i es).1 = es ∧
        (visitInElements d skip visit i es).2.edits = []
  | [] => by
      intro visit i h
      simp [visitInElements]
  | e :: es => by
      intro visit i h
      rw [callsInElements] at h
      obtain ⟨hes, hedits⟩ := visitInElements_eq_self d skip es visit (i + 1)
        fun path x hx => h path x (List.mem_append_right _ hx)
      rw [visitInElements]
      by_cases hskip : e.keyword?.any skip.contains = true
      · simp [hskip, hes, hedits]
      · simp only [hskip, Bool.false_eq_true, if_false] at h ⊢
        obtain ⟨he, hedits'⟩ := visitInElement_eq_self d e visit i
          fun path x hx => h path x (List.mem_append_left _ hx)
        simp [he, hes, hedits, hedits']

theorem visitInElement_eq_self (d : Detector) :
    (e : Element) → ∀ (visit : CallPath → Text → Group → Group × Log) (i : Nat),
      (∀ path, ∀ x ∈ e.calls d,
        (visit path x.1 x.2).1 = x.2 ∧ (visit path x.1 x.2).2.edits = []) →
      (e.visitCalls d visit i).1 = e ∧ (e.visitCalls d visit i).2.edits = []
  | ⟨items, comma⟩ => by
      intro visit i h
      rw [Element.calls] at h
      obtain ⟨hitems, hedits⟩ := visitInItems_eq_self d items visit i 0 [] h
      rw [Element.visitCalls]
      exact ⟨by simp only [hitems], hedits⟩

theorem visitInItems_eq_self (d : Detector) :
    (items : List Item) → ∀ (visit : CallPath → Text → Group → Group × Log) (i j : Nat)
      (before : List Item),
      (∀ path, ∀ x ∈ callsInItems d before items,
        (visit path x.1 x.2).1 = x.2 ∧ (visit path x.1 x.2).2.edits = []) →
      (visitInItems d visit i j before items).1 = items ∧
        (visitInItems d visit i j before items).2.edits = []
  | [] => by
      intro visit i j before h
      simp [visitInItems]
  | .token t :: rest => by
      intro visit i j before h
      rw [callsInItems] at h
      rw [visitInItems]
      simpa using visitInItems_eq_self d rest visit i (j + 1) (.token t :: before) h
  | .group g :: rest => by
      intro visit i j before h
      rw [callsInItems] at h
      obtain ⟨hrest, hedits⟩ := visitInItems_eq_self d rest visit i (j + 1) (.group g :: before)
        fun path x hx => h path x (List.mem_append_right _ hx)
      rw [visitInItems]
      cases hc : d.constructorBefore? before g with
      | some constructor =>
          obtain ⟨hg, hedits'⟩ := h [(i, j)] (constructor, g) (by simp [hc])
          simp [hg, hrest, hedits, hedits']
      | none =>
          obtain ⟨hg, hedits'⟩ := visitCalls_eq_self d [] g (fun path => visit ((i, j) :: path))
            fun path x hx => h ((i, j) :: path) x (List.mem_append_left _ (by simpa [hc] using hx))
          simp [hg, hrest, hedits, hedits']

end

/-! ## Calls after a migration -/

theorem mem_callsInElements {d : Detector} {skip : List Text} {es : List Element}
    {x : Text × Group} : x ∈ callsInElements d skip es ↔
      ∃ e ∈ es, e.keyword?.any skip.contains = false ∧ x ∈ e.calls d := by
  induction es with
  | nil => simp [callsInElements]
  | cons e es ih =>
      rw [callsInElements, List.mem_append, ih]
      by_cases hskip : e.keyword?.any skip.contains = true <;> simp [hskip]

theorem Group.calls_eq (d : Detector) (skip : List Text) (g : Group) :
    g.calls d skip = callsInElements d skip g.elements := by
  cases g
  rw [Group.calls]

theorem Element.calls_eq (d : Detector) (e : Element) : e.calls d = callsInItems d [] e.items := by
  cases e
  rw [Element.calls]

theorem callsInItems_congr (d : Detector) {before before' : List Item}
    (h : before'.map Item.outline = before.map Item.outline) (items : List Item) :
    callsInItems d before' items = callsInItems d before items := by
  induction items generalizing before before' with
  | nil => simp [callsInItems]
  | cons item rest ih =>
      cases item with
      | token t =>
          rw [callsInItems, callsInItems]
          exact ih (by simp [h])
      | group g =>
          have hrest : callsInItems d (.group g :: before') rest =
              callsInItems d (.group g :: before) rest := ih (by simp [h])
          rw [callsInItems, callsInItems, constructorBefore?_congr d h rfl, hrest]

theorem Element.Retouched.calls {e e' : Element} (h : e.Retouched e') (d : Detector) :
    e'.calls d = e.calls d := by
  obtain ⟨trivia, rfl⟩ := h
  obtain ⟨items, comma⟩ := e
  cases items with
  | nil => rfl
  | cons item rest =>
      rw [Element.calls_eq, Element.calls_eq]
      cases item with
      | token t =>
          simp only [Element.mapFirst, Item.mapFirst, callsInItems]
          exact callsInItems_congr d (by simp [Token.withTrivia]) rest
      | group g =>
          obtain ⟨opening, elements, closing, kind, sortable⟩ := g
          simp only [Element.mapFirst, Item.mapFirst, callsInItems, Detector.constructorBefore?,
            Group.calls]
          congr 1
          exact callsInItems_congr d (by simp) rest

end SchemaTidy
