import SchemaTidy.Edit.Engine

/-!
# Visiting nested calls

The engine lists the paths of the calls inside a group and then changes the group at one path after
another. As the calls are outermost ones, no change disturbs the path of another call, and the visits
amount to one traversal of the group.
-/

namespace SchemaTidy

namespace Log

@[simp] theorem append_empty (a : Log) : a.append {} = a := by
  simp [append]

@[simp] theorem empty_append (a : Log) : append {} a = a := by
  simp [append]

theorem append_assoc (a b c : Log) : (a.append b).append c = a.append (b.append c) := by
  simp [append, Nat.add_assoc]

@[simp] theorem edits_append (a b : Log) : (a.append b).edits = a.edits ++ b.edits := rfl

end Log

/-! ## Reading and setting a child -/

@[simp] theorem Element.eta (e : Element) : ⟨e.items, e.comma⟩ = e := by
  cases e
  rfl

namespace Group

@[simp] theorem eta (g : Group) : ⟨g.opening, g.elements, g.closing, g.kind, g.sortable⟩ = g := by
  cases g
  rfl

theorem child?_eq {g : Group} {pre post : List Element} {done rest : List Item} {comma : Option Token}
    {inner : Group} (h : g.elements = pre ++ ⟨done ++ .group inner :: rest, comma⟩ :: post) :
    g.child? (pre.length, done.length) = some inner := by
  simp [child?, h, Item.group?]

theorem setChild_eq {g : Group} {pre post : List Element} {done rest : List Item}
    {comma : Option Token} {i : Item} (new : Group)
    (h : g.elements = pre ++ ⟨done ++ i :: rest, comma⟩ :: post) :
    g.setChild (pre.length, done.length) new =
      { g with elements := pre ++ ⟨done ++ .group new :: rest, comma⟩ :: post } := by
  simp [setChild, h, List.modify_eq_take_cons_drop]

theorem exists_of_child? {g inner : Group} {step : Nat × Nat} (h : g.child? step = some inner) :
    ∃ pre post done rest comma, step = (pre.length, done.length) ∧
      g.elements = pre ++ ⟨done ++ .group inner :: rest, comma⟩ :: post := by
  obtain ⟨i, j⟩ := step
  obtain ⟨e, he, hi⟩ := Option.bind_eq_some_iff.mp h
  obtain ⟨item, hitem, hgroup⟩ := Option.bind_eq_some_iff.mp hi
  obtain ⟨hilt, rfl⟩ := List.getElem?_eq_some_iff.mp he
  obtain ⟨hjlt, rfl⟩ := List.getElem?_eq_some_iff.mp hitem
  have hinner : g.elements[i].items[j] = .group inner := by
    cases hcase : g.elements[i].items[j] with
    | token t => simp [hcase, Item.group?] at hgroup
    | group k => simpa [hcase, Item.group?] using hgroup
  refine ⟨g.elements.take i, g.elements.drop (i + 1), g.elements[i].items.take j,
    g.elements[i].items.drop (j + 1), g.elements[i].comma, ?_, ?_⟩
  · simp only [List.length_take]
    rw [Nat.min_eq_left (Nat.le_of_lt hilt), Nat.min_eq_left (Nat.le_of_lt hjlt)]
  · simp only at hilt hjlt
    rw [← hinner, ← List.drop_eq_getElem_cons hjlt, List.take_append_drop, Element.eta,
      ← List.drop_eq_getElem_cons hilt, List.take_append_drop]

theorem child?_setChild {g inner : Group} {step : Nat × Nat} (new : Group)
    (h : g.child? step = some inner) : (g.setChild step new).child? step = some new := by
  obtain ⟨pre, post, done, rest, comma, rfl, hg⟩ := exists_of_child? h
  rw [setChild_eq new hg]
  exact child?_eq rfl

theorem setChild_setChild {g inner : Group} {step : Nat × Nat} (a b : Group)
    (h : g.child? step = some inner) : (g.setChild step a).setChild step b = g.setChild step b := by
  obtain ⟨pre, post, done, rest, comma, rfl, hg⟩ := exists_of_child? h
  rw [setChild_eq a hg, setChild_eq b hg]
  exact setChild_eq b rfl

theorem setChild_child? {g inner : Group} {step : Nat × Nat} (h : g.child? step = some inner) :
    g.setChild step inner = g := by
  obtain ⟨pre, post, done, rest, comma, rfl, hg⟩ := exists_of_child? h
  rw [setChild_eq inner hg, ← hg, eta]

end Group

/-! ## The traversal -/

mutual

/-- Runs `visit` on the outermost field constructor calls inside a group, from left to right. -/
def Group.visitCalls (d : Detector) (skip : List Text)
    (visit : CallPath → Text → Group → Group × Log) : Group → Group × Log
  | ⟨opening, elements, closing, kind, sortable⟩ =>
      let r := visitInElements d skip visit 0 elements
      (⟨opening, r.1, closing, kind, sortable⟩, r.2)

/-- Runs `visit` on the calls inside elements, the first of which has index `i`. -/
def visitInElements (d : Detector) (skip : List Text)
    (visit : CallPath → Text → Group → Group × Log) (i : Nat) :
    List Element → List Element × Log
  | [] => ([], {})
  | e :: es =>
      let r := if e.keyword?.any skip.contains then (e, {}) else e.visitCalls d visit i
      let rest := visitInElements d skip visit (i + 1) es
      (r.1 :: rest.1, r.2.append rest.2)

/-- Runs `visit` on the calls inside the element of index `i`. -/
def Element.visitCalls (d : Detector) (visit : CallPath → Text → Group → Group × Log) (i : Nat) :
    Element → Element × Log
  | ⟨items, comma⟩ =>
      let r := visitInItems d visit i 0 [] items
      (⟨r.1, comma⟩, r.2)

/-- Runs `visit` on the calls inside items, the first of which has index `j` in the element of index
`i` and follows the items `before`, which are in reverse order. -/
def visitInItems (d : Detector) (visit : CallPath → Text → Group → Group × Log) (i j : Nat)
    (before : List Item) : List Item → List Item × Log
  | [] => ([], {})
  | .token t :: rest =>
      let r := visitInItems d visit i (j + 1) (.token t :: before) rest
      (.token t :: r.1, r.2)
  | .group g :: rest =>
      let h := match d.constructorBefore? before g with
        | some constructor => visit [(i, j)] constructor g
        | none => g.visitCalls d [] fun path => visit ((i, j) :: path)
      let r := visitInItems d visit i (j + 1) (.group g :: before) rest
      (.group h.1 :: r.1, h.2.append r.2)

end

theorem visitAll_append (visit : CallPath → Text → Group → Group × Log)
    (a b : List (CallPath × Text)) (g : Group) (log : Log) :
    visitAll visit (a ++ b) g log =
      visitAll visit b (visitAll visit a g log).1 (visitAll visit a g log).2 := by
  induction a generalizing g log with
  | nil => rfl
  | cons call a ih =>
      obtain ⟨path, constructor⟩ := call
      simp only [List.cons_append, visitAll]
      split <;> exact ih _ _

theorem visitAll_below (visit : CallPath → Text → Group → Group × Log) {step : Nat × Nat}
    (calls : List (CallPath × Text)) {g inner : Group} (log : Log)
    (h : g.child? step = some inner) :
    visitAll visit (calls.map fun (path, constructor) => (step :: path, constructor)) g log =
      (g.setChild step (visitAll (fun path => visit (step :: path)) calls inner log).1,
        (visitAll (fun path => visit (step :: path)) calls inner log).2) := by
  induction calls generalizing g inner log with
  | nil => simp [visitAll, Group.setChild_child? h]
  | cons call calls ih =>
      obtain ⟨path, constructor⟩ := call
      have hat : g.at? (step :: path) = inner.at? path := by simp [Group.at?, h]
      simp only [List.map_cons, visitAll, hat]
      cases hpath : inner.at? path with
      | none => exact ih log h
      | some call =>
          have hset : g.setAt (step :: path) (visit (step :: path) constructor call).1 =
              g.setChild step (inner.setAt path (visit (step :: path) constructor call).1) := by
            simp [Group.setAt, h]
          simp only [hset]
          rw [ih _ (Group.child?_setChild _ h), Group.setChild_setChild _ _ h]

mutual

/-- Visiting the nested calls of a group one after another is a traversal of the group. -/
theorem visitAll_nestedCalls (d : Detector) (skip : List Text) :
    (g : Group) → ∀ (visit : CallPath → Text → Group → Group × Log) (log : Log),
      visitAll visit (g.nestedCalls d skip) g log =
        ((g.visitCalls d skip visit).1, log.append (g.visitCalls d skip visit).2)
  | ⟨opening, elements, closing, kind, sortable⟩ => by
      intro visit log
      rw [Group.nestedCalls, Group.visitCalls]
      exact visitAll_nestedInElements d skip elements visit [] ⟨opening, elements, closing, kind,
        sortable⟩ log rfl

theorem visitAll_nestedInElements (d : Detector) (skip : List Text) :
    (es : List Element) → ∀ (visit : CallPath → Text → Group → Group × Log) (pre : List Element)
      (g : Group) (log : Log), g.elements = pre ++ es →
      visitAll visit (nestedInElements d skip pre.length es) g log =
        ({ g with elements := pre ++ (visitInElements d skip visit pre.length es).1 },
          log.append (visitInElements d skip visit pre.length es).2)
  | [] => by
      intro visit pre g log hg
      rw [nestedInElements, visitInElements, visitAll]
      simp [← hg]
  | e :: es => by
      intro visit pre g log hg
      have hrest (e' : Element) (log' : Log) := visitAll_nestedInElements d skip es visit
        (pre ++ [e']) { g with elements := pre ++ e' :: es } log' (by simp)
      rw [nestedInElements, visitInElements, visitAll_append]
      split
      · have hg' : { g with elements := pre ++ e :: es } = g := by rw [← hg, Group.eta]
        have hrest := hrest e log
        rw [hg'] at hrest
        simpa [visitAll] using hrest
      · have he := visitAll_nestedInElement d e visit pre es g log hg
        rw [he]
        have hrest := hrest (e.visitCalls d visit pre.length).1
          (log.append (e.visitCalls d visit pre.length).2)
        simpa [Log.append_assoc] using hrest

theorem visitAll_nestedInElement (d : Detector) :
    (e : Element) → ∀ (visit : CallPath → Text → Group → Group × Log) (pre post : List Element)
      (g : Group) (log : Log), g.elements = pre ++ e :: post →
      visitAll visit (e.nestedCalls d pre.length) g log =
        ({ g with elements := pre ++ (e.visitCalls d visit pre.length).1 :: post },
          log.append (e.visitCalls d visit pre.length).2)
  | ⟨items, comma⟩ => by
      intro visit pre post g log hg
      rw [Element.nestedCalls, Element.visitCalls]
      exact visitAll_nestedInItems d items visit pre post [] [] comma g log hg

theorem visitAll_nestedInItems (d : Detector) :
    (items : List Item) → ∀ (visit : CallPath → Text → Group → Group × Log)
      (pre post : List Element) (done before : List Item) (comma : Option Token) (g : Group)
      (log : Log), g.elements = pre ++ ⟨done ++ items, comma⟩ :: post →
      visitAll visit (nestedInItems d pre.length done.length before items) g log =
        ({ g with elements :=
            pre ++ ⟨done ++ (visitInItems d visit pre.length done.length before items).1,
              comma⟩ :: post },
          log.append (visitInItems d visit pre.length done.length before items).2)
  | [] => by
      intro visit pre post done before comma g log hg
      rw [nestedInItems, visitInItems, visitAll]
      simp only [Log.append_empty, ← hg, Group.eta]
  | .token t :: rest => by
      intro visit pre post done before comma g log hg
      rw [nestedInItems, visitInItems]
      have hrest := visitAll_nestedInItems d rest visit pre post (done ++ [.token t])
        (.token t :: before) comma g log (by simpa using hg)
      simpa using hrest
  | .group inner :: rest => by
      intro visit pre post done before comma g log hg
      have hchild := Group.child?_eq hg
      have hset (new : Group) := Group.setChild_eq new hg
      have hrest (new : Group) (log' : Log) := visitAll_nestedInItems d rest visit pre post
        (done ++ [.group new]) (.group inner :: before) comma
        { g with elements := pre ++ ⟨done ++ .group new :: rest, comma⟩ :: post } log' (by simp)
      rw [nestedInItems, visitInItems, visitAll_append]
      cases hc : d.constructorBefore? before inner with
      | some constructor =>
          have hat : g.at? [(pre.length, done.length)] = some inner := by
            simp [Group.at?, hchild]
          have hsetAt (new : Group) : g.setAt [(pre.length, done.length)] new =
              { g with elements := pre ++ ⟨done ++ .group new :: rest, comma⟩ :: post } := by
            simp [Group.setAt, hchild, hset]
          have hrest := hrest (visit [(pre.length, done.length)] constructor inner).1
            (log.append (visit [(pre.length, done.length)] constructor inner).2)
          simp only [visitAll, hat, hsetAt]
          simpa [Log.append_assoc] using hrest
      | none =>
          have hinner := visitAll_nestedCalls d [] inner
            (fun path => visit ((pre.length, done.length) :: path)) log
          have hrest := hrest
            (inner.visitCalls d [] fun path => visit ((pre.length, done.length) :: path)).1
            (log.append
              (inner.visitCalls d [] fun path => visit ((pre.length, done.length) :: path)).2)
          simp only [visitAll_below visit _ log hchild, hset, hinner]
          simpa [Log.append_assoc] using hrest

end

end SchemaTidy
