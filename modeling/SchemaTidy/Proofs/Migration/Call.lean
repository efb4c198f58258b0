import Mathlib.Data.List.Forall2
import SchemaTidy.Migration.Basic

/-!
# Migration of one call

What keyword migration does to the arguments of one call: either nothing, because no keyword is
selected or the destination is foreign, or all selected keywords go and the destination is there.
-/

namespace SchemaTidy

theorem exists_of_forall₂_mem {α β : Type} {R : α → β → Prop} {xs : List α} {ys : List β} {y : β}
    (h : List.Forall₂ R xs ys) (hy : y ∈ ys) : ∃ x ∈ xs, R x y := by
  induction h with
  | nil => cases hy
  | cons hhead _ ih =>
      rcases List.mem_cons.mp hy with rfl | hy
      · exact ⟨_, by simp, hhead⟩
      · obtain ⟨x, hx, hxy⟩ := ih hy
        exact ⟨x, List.mem_cons_of_mem _ hx, hxy⟩

theorem exists_of_forall₂_middle {α β : Type} {R : α → β → Prop} {xs₁ xs₂ : List α} {x : α}
    {ys : List β} (h : List.Forall₂ R (xs₁ ++ x :: xs₂) ys) :
    ∃ ys₁ y ys₂, ys = ys₁ ++ y :: ys₂ ∧ List.Forall₂ R xs₁ ys₁ ∧ R x y ∧ List.Forall₂ R xs₂ ys₂ := by
  induction xs₁ generalizing ys with
  | nil =>
      obtain ⟨y, ys₂, hxy, hrest, rfl⟩ := List.forall₂_cons_left_iff.mp h
      exact ⟨[], y, ys₂, rfl, .nil, hxy, hrest⟩
  | cons x₁ xs₁ ih =>
      obtain ⟨y₁, ys', hhead, htail, rfl⟩ := List.forall₂_cons_left_iff.mp h
      obtain ⟨ys₁, y, ys₂, rfl, hys₁, hxy, hrest⟩ := ih htail
      exact ⟨y₁ :: ys₁, y, ys₂, rfl, .cons hhead hys₁, hxy, hrest⟩

namespace Element

/-- Two elements that differ at most in the trivia before their first token. -/
def Retouched (e e' : Element) : Prop := ∃ trivia, e' = e.mapFirst (·.withTrivia trivia)

theorem retouched_mapFirst (e : Element) (trivia : Text) :
    e.Retouched (e.mapFirst fun t => { t with trivia }) :=
  ⟨trivia, rfl⟩

theorem Retouched.keyword? {e e' : Element} (h : e.Retouched e') : e'.keyword? = e.keyword? := by
  obtain ⟨trivia, rfl⟩ := h
  obtain ⟨items, comma⟩ := e
  match items with
  | [] => rfl
  | [.token _] => rfl
  | [.token _, .token _] => rfl
  | .token _ :: .token _ :: _ :: _ => rfl
  | .token _ :: .group _ :: _ => rfl
  | .group _ :: _ => rfl

theorem Retouched.tail_items {e e' : Element} (h : e.Retouched e') :
    e'.items.tail = e.items.tail := by
  obtain ⟨trivia, rfl⟩ := h
  obtain ⟨items, comma⟩ := e
  cases items <;> rfl

theorem exists_of_keyword? {e : Element} {name : Text} (h : e.keyword? = some name) :
    ∃ key eq value values, e.items = .token key :: .token eq :: value :: values ∧
      key.isIdentifier = true ∧ eq.isOp "=" = true ∧ key.text = name := by
  unfold Element.keyword? at h
  split at h
  · rename_i key eq value values hitems
    split at h
    · rename_i hkey
      rw [Bool.and_eq_true] at hkey
      exact ⟨key, eq, value, values, hitems, hkey.1, hkey.2, by simpa using h⟩
    · cases h
  · cases h

theorem keyword?_congr {e e' : Element} (hlength : e'.items.length = e.items.length)
    (htake : e'.items.take 2 = e.items.take 2) : e'.keyword? = e.keyword? := by
  obtain ⟨items, comma⟩ := e
  obtain ⟨items', comma'⟩ := e'
  match items, items' with
  | [], [] => rfl
  | [a], [a'] => simp_all [Element.keyword?]
  | [a, b], [a', b'] => simp_all [Element.keyword?]
  | a :: b :: c :: rest, a' :: b' :: c' :: rest' =>
      obtain ⟨rfl, rfl⟩ : a' = a ∧ b' = b := by simpa using htake
      cases a' <;> cases b' <;> rfl

@[simp] theorem keyword?_withComma (e : Element) (comma : Option Token) :
    Element.keyword? { e with comma } = e.keyword? := rfl

end Element

theorem keyword?_ofKeyword {name : Text} (hname : isKeyword name = false) (i : Item) :
    (Element.ofKeyword name [i]).keyword? = some name := by
  have hkey : (Token.ofName name).isIdentifier = true := by
    simp [Token.isIdentifier, Token.ofName, Token.synthetic, hname]
  have heq : (Token.ofOp "=").isOp "=" = true := by decide
  simp only [Element.ofKeyword, Element.ofItems, Element.keyword?, hkey, heq, Bool.and_self,
    if_true]
  rfl

namespace Destination

theorem keyword?_setMapping (d : Destination) (e : Element) (mapping : Group) :
    (d.setMapping e mapping).keyword? = e.keyword? := by
  apply Element.keyword?_congr
  · simp [setMapping]
  · unfold setMapping
    rw [List.take_set]
    split <;> rw [List.set_eq_of_length_le] <;> rw [List.length_take] <;> omega

theorem mapping?_retouched (d : Destination) {e e' : Element} (h : e.Retouched e') :
    d.mapping? e' = d.mapping? e := by
  have htail := h.tail_items
  have hget (n : Nat) : e'.items[n + 1]? = e.items[n + 1]? := by
    rw [← List.getElem?_tail, htail, List.getElem?_tail]
  unfold mapping?
  split
  · rw [hget 2]
  · rw [hget 1]

theorem items_setMapping {d : Destination} {e : Element} {mapping : Group}
    (h : d.mapping? e = some mapping) :
    ∃ front back, e.items = front ++ .group mapping :: back ∧
      ∀ new, (d.setMapping e new).items = front ++ .group new :: back := by
  unfold mapping? at h
  unfold setMapping
  generalize (if d = .dictCall then 3 else 2) = k at h ⊢
  obtain ⟨item, hitem, hgroup⟩ := Option.bind_eq_some_iff.mp h
  obtain rfl : item = .group mapping := by
    cases item with
    | token t => cases hgroup
    | group g => simpa [Item.group?] using hgroup
  obtain ⟨hk, hget⟩ := List.getElem?_eq_some_iff.mp hitem
  refine ⟨e.items.take k, e.items.drop (k + 1), ?_, fun new => ?_⟩
  · rw [← hget, ← List.drop_eq_getElem_cons hk, List.take_append_drop]
  · exact List.set_eq_take_append_cons_drop.trans (if_pos hk)

end Destination

theorem classify_mapping {arguments : Group} {destination : Text} {d : Destination}
    (h : classify arguments destination = d) (hcreate : d ≠ .create) (hforeign : d ≠ .foreign) :
    ∃ pre e post mapping, arguments.elements = pre ++ e :: post ∧
      (∀ x ∈ pre, x.keyword? ≠ some destination) ∧ e.keyword? = some destination ∧
      d.mapping? e = some mapping := by
  unfold classify at h
  split at h
  · exact absurd h.symm hcreate
  · rename_i e hfind
    obtain ⟨he, pre, post, helements, hpre⟩ := List.find?_eq_some_iff_append.mp hfind
    have hkeyword : e.keyword? = some destination := by simpa using he
    have hpre' : ∀ x ∈ pre, x.keyword? ≠ some destination := by
      intro x hx
      simpa using hpre x hx
    obtain ⟨key, eq, value, values, hitems, -⟩ := Element.exists_of_keyword? hkeyword
    have hvalue : e.value = value :: values := by
      simp [Element.value, Element.valueStart, hkeyword, hitems]
    refine ⟨pre, e, post, ?_⟩
    rw [hvalue] at h
    split at h
    · rename_i g hg
      split at h
      · subst h
        exact ⟨g, helements, hpre', hkeyword, by simp_all [Destination.mapping?, Item.group?]⟩
      · exact absurd h.symm hforeign
    · rename_i callee g hg
      split at h
      · subst h
        exact ⟨g, helements, hpre', hkeyword, by simp_all [Destination.mapping?, Item.group?]⟩
      · exact absurd h.symm hforeign
    · exact absurd h.symm hforeign

theorem keyword?_ne_of_classify_create {arguments : Group} {destination : Text}
    (h : classify arguments destination = .create) :
    ∀ e ∈ arguments.elements, e.keyword? ≠ some destination := by
  unfold classify at h
  split at h
  · rename_i hfind
    intro e he
    simpa using List.find?_eq_none.mp hfind e he
  · split at h
    · split at h <;> cases h
    · split at h <;> cases h
    · cases h

/-- The arguments that stay are those that do not move, in their order, up to trivia. -/
theorem kept_partitionFrom (moves : Element → Bool) (closing : Text) (carry : Option Text)
    (taken : Bool) (es : List Element) :
    List.Forall₂ Element.Retouched (es.filter (!moves ·))
      (partitionFrom moves closing carry taken es).kept := by
  induction es generalizing carry taken with
  | nil => exact .nil
  | cons e es ih =>
      unfold partitionFrom
      by_cases he : moves e = true
      · simp only [he, if_true]
        rw [List.filter_cons_of_neg (by simp [he])]
        exact ih _ _
      · simp only [he]
        rw [List.filter_cons_of_pos (by simp [he])]
        exact .cons ⟨_, rfl⟩ (ih _ _)

theorem map_items_punctuate (trailing : Bool) (es : List Element) :
    (punctuate trailing es).map Element.items = es.map Element.items := by
  fun_induction punctuate trailing es with
  | case1 => rfl
  | case2 e => rfl
  | case3 e es hne ih => simp [ih]

theorem map_keyword?_of_map_items {es es' : List Element}
    (h : es'.map Element.items = es.map Element.items) :
    es'.map Element.keyword? = es.map Element.keyword? := by
  have hfactor : Element.keyword? = (fun items => Element.keyword? ⟨items, none⟩) ∘ Element.items :=
    rfl
  rw [hfactor, ← List.map_map, h, List.map_map]

namespace MigrationRule

theorem selects_destination (r : MigrationRule) (constructor : Text) :
    r.selects constructor r.destination = false := by
  simp [selects]

theorem movesElement_congr (r : MigrationRule) {site site' : Site} {e e' : Element}
    (hsite : site'.constructor = site.constructor) (he : e'.keyword? = e.keyword?) :
    r.movesElement site' e' = r.movesElement site e := by
  simp [movesElement, hsite, he]

/-- The arguments among which the migration looks for the destination: those that stay and, when it
is to be created, the new one. -/
def staying (r : MigrationRule) (d : Destination) (site : Site) (arguments : Group) :
    List Element :=
  let p := partitionFrom (r.movesElement site) arguments.closing.trivia none false
    arguments.elements
  if d = .create then
    let e := Element.ofKeyword r.destination [.group (.ofElements .brace [])]
    p.kept ++ [e.mapFirst fun t => { t with trivia := afterComment p.owed [] }]
  else p.kept

theorem mem_staying (r : MigrationRule) (hname : isKeyword r.destination = false)
    {d : Destination} {site : Site} {arguments : Group} {e : Element}
    (he : e ∈ r.staying d site arguments) :
    e.keyword? = some r.destination ∨
      ∃ e₀ ∈ arguments.elements, r.movesElement site e₀ = false ∧ e₀.Retouched e := by
  have hkept {x : Element} (hx : x ∈ (partitionFrom (r.movesElement site)
      arguments.closing.trivia none false arguments.elements).kept) :
      ∃ e₀ ∈ arguments.elements, r.movesElement site e₀ = false ∧ e₀.Retouched x := by
    obtain ⟨e₀, he₀, hretouched⟩ := exists_of_forall₂_mem (kept_partitionFrom _ _ _ _ _) hx
    obtain ⟨hmem, hmoves⟩ := List.mem_filter.mp he₀
    exact ⟨e₀, hmem, by simpa using hmoves, hretouched⟩
  unfold staying at he
  split at he
  · rcases List.mem_append.mp he with he | he
    · exact .inr (hkept he)
    · rw [List.mem_singleton] at he
      rw [he, (Element.retouched_mapFirst _ _).keyword?, keyword?_ofKeyword hname]
      exact .inl rfl
  · exact .inr (hkept he)

theorem movesElement_staying (r : MigrationRule) (hname : isKeyword r.destination = false)
    {d : Destination} {site : Site} {arguments : Group} {e : Element}
    (he : e ∈ r.staying d site arguments) : r.movesElement site e = false := by
  rcases r.mem_staying hname he with hkeyword | ⟨e₀, -, hmoves, hretouched⟩
  · simp [movesElement, hkeyword, selects_destination]
  · rw [r.movesElement_congr rfl hretouched.keyword?, hmoves]

/-- The first destination argument among those that stay, with its mapping. -/
theorem exists_destination_staying (r : MigrationRule) (hname : isKeyword r.destination = false)
    {d : Destination} (site : Site) {arguments : Group}
    (hclass : classify arguments r.destination = d) (hforeign : d ≠ .foreign) :
    ∃ pre e post mapping, r.staying d site arguments = pre ++ e :: post ∧
      (∀ x ∈ pre, x.keyword? ≠ some r.destination) ∧ e.keyword? = some r.destination ∧
      d.mapping? e = some mapping := by
  have hkept := kept_partitionFrom (r.movesElement site) arguments.closing.trivia none false
    arguments.elements
  unfold staying
  split
  · rename_i hcreate
    subst hcreate
    refine ⟨_, _, [], .ofElements .brace [], rfl, ?_, ?_, rfl⟩
    · intro x hx
      obtain ⟨x₀, hx₀, hretouched⟩ := exists_of_forall₂_mem hkept hx
      rw [hretouched.keyword?]
      exact keyword?_ne_of_classify_create hclass x₀ (List.mem_filter.mp hx₀).1
    · rw [(Element.retouched_mapFirst _ _).keyword?, keyword?_ofKeyword hname]
  · rename_i hcreate
    obtain ⟨pre, e, post, mapping, helements, hpre, hkeyword, hmapping⟩ :=
      classify_mapping hclass hcreate hforeign
    have hstays : r.movesElement site e = false := by
      simp [movesElement, hkeyword, selects_destination]
    rw [helements, List.filter_append, List.filter_cons_of_pos (by simp [hstays])] at hkept
    obtain ⟨pre', e', post', happend, hpre', he', -⟩ := exists_of_forall₂_middle hkept
    rw [← helements] at happend
    refine ⟨pre', e', post', mapping, happend, ?_, ?_, ?_⟩
    · intro x hx
      obtain ⟨x₀, hx₀, hretouched⟩ := exists_of_forall₂_mem hpre' hx
      rw [hretouched.keyword?]
      exact hpre x₀ (List.mem_filter.mp hx₀).1
    · rw [he'.keyword?, hkeyword]
    · rw [d.mapping?_retouched he', hmapping]

/-- The keywords that the migration takes out of a call. -/
def moving (r : MigrationRule) (site : Site) (arguments : Group) : List MovedKeyword :=
  (partitionFrom (r.movesElement site) arguments.closing.trivia none false arguments.elements).moved

/-- The trivia before the closing bracket of a call from which keywords have moved. -/
def closingTrivia (r : MigrationRule) (d : Destination) (site : Site) (arguments : Group) : Text :=
  let closing := arguments.closing.trivia
  let rest := (Trivia.splitSameLine closing).2
  if d = .create then rest
  else
    let p := partitionFrom (r.movesElement site) closing none false arguments.elements
    afterComment p.owed rest

/-- The call that a migration makes of one whose destination is not foreign: the keywords `moved` have
gone into the mapping of the argument `e`, which stands between `pre` and `post`. -/
def migratedCall (r : MigrationRule) (d : Destination) (site : Site) (arguments : Group)
    (pre : List Element) (e : Element) (post : List Element) (mapping : Group) : Group :=
  Group.punctuated { arguments with
      elements := pre ++ d.setMapping e
        (mergeInto d r.destination site (r.moving site arguments) mapping).1 :: post
      closing := { arguments.closing with trivia := r.closingTrivia d site arguments }
      sortable := true } arguments.hasTrailingComma

/-- The migration of a call whose destination is not foreign. -/
theorem move_eq (r : MigrationRule) (hname : isKeyword r.destination = false)
    {d : Destination} (site : Site) {arguments : Group}
    (hclass : classify arguments r.destination = d) (hforeign : d ≠ .foreign) :
    ∃ pre e post mapping outcome,
      r.staying d site arguments = pre ++ e :: post ∧
      (∀ x ∈ pre, x.keyword? ≠ some r.destination) ∧ e.keyword? = some r.destination ∧
      d.mapping? e = some mapping ∧
      r.move d site arguments =
        some (r.migratedCall d site arguments pre e post mapping, outcome) ∧
      outcome.changed = true ∧ outcome.migrated = (r.moving site arguments).map (·.name) := by
  obtain ⟨pre, e, post, mapping, hstaying, hpre, hkeyword, hmapping⟩ :=
    r.exists_destination_staying hname site hclass hforeign
  have hindex : (pre ++ e :: post).findIdx? (·.keyword? == some r.destination) =
      some pre.length := by
    rw [List.findIdx?_append, List.findIdx?_eq_none_iff.mpr (by simpa using hpre)]
    simp [List.findIdx?_cons, hkeyword]
  have hget : (pre ++ e :: post)[pre.length]? = some e := by simp
  have hmodify (f : Element → Element) :
      (pre ++ e :: post).modify pre.length f = pre ++ f e :: post := by
    rw [List.modify_eq_take_cons_drop (by simp)]
    simp
  have hfull := hstaying
  unfold move migratedCall closingTrivia
  by_cases hcreate : d = .create
  · simp only [staying, hcreate, if_true] at hstaying
    rw [hcreate] at hfull hmapping ⊢
    simp only [if_true, hstaying, Option.bind_eq_bind, hindex, Option.bind_some, hget, hmapping,
      hmodify]
    exact ⟨pre, e, post, mapping, _, hfull, hpre, hkeyword, hmapping, rfl, rfl, rfl⟩
  · simp only [staying, hcreate, if_false] at hstaying
    simp only [hcreate, if_false, hstaying, Option.bind_eq_bind, hindex, Option.bind_some, hget,
      hmapping, hmodify]
    exact ⟨pre, e, post, mapping, _, hfull, hpre, hkeyword, hmapping, rfl, rfl, rfl⟩

/-- The same without the trivia before the closing bracket: the selected keywords are gone, and the
destination holds the mapping into which they went. -/
theorem move_eq_some (r : MigrationRule) (hname : isKeyword r.destination = false)
    {d : Destination} (site : Site) {arguments : Group}
    (hclass : classify arguments r.destination = d) (hforeign : d ≠ .foreign) :
    ∃ pre e post mapping closing outcome,
      r.staying d site arguments = pre ++ e :: post ∧
      (∀ x ∈ pre, x.keyword? ≠ some r.destination) ∧ e.keyword? = some r.destination ∧
      d.mapping? e = some mapping ∧
      r.move d site arguments = some
        (Group.punctuated { arguments with
            elements := pre ++ d.setMapping e
              (mergeInto d r.destination site (r.moving site arguments) mapping).1 :: post
            closing := { arguments.closing with trivia := closing }
            sortable := true } arguments.hasTrailingComma, outcome) ∧
      outcome.changed = true ∧ outcome.migrated = (r.moving site arguments).map (·.name) := by
  obtain ⟨pre, e, post, mapping, outcome, hmove⟩ := r.move_eq hname site hclass hforeign
  exact ⟨pre, e, post, mapping, r.closingTrivia d site arguments, outcome, hmove⟩

/-- No argument of a call of `constructor` is selected. -/
def SelectsNone (r : MigrationRule) (constructor : Text) (arguments : Group) : Prop :=
  ∀ e ∈ arguments.elements, e.keyword?.any (r.selects constructor) = false

theorem selectsNone_of_map_keyword? (r : MigrationRule) {constructor : Text} {g g' : Group}
    (h : g'.elements.map Element.keyword? = g.elements.map Element.keyword?)
    (hg : r.SelectsNone constructor g) : r.SelectsNone constructor g' := by
  intro e' he'
  have hmem : e'.keyword? ∈ g.elements.map Element.keyword? := h ▸ List.mem_map_of_mem he'
  obtain ⟨e, he, hkeyword⟩ := List.mem_map.mp hmem
  rw [← hkeyword]
  exact hg e he

theorem migrate_unchanged (r : MigrationRule) {site : Site} {arguments : Group}
    (h : r.SelectsNone site.constructor arguments ∨
      classify arguments r.destination = .foreign) :
    ∃ outcome, r.migrate site arguments = some (arguments, outcome) ∧ outcome.changed = false ∧
      outcome.migrated = [] := by
  unfold migrate
  split
  · rename_i hany
    rcases h with hnone | hforeign
    · obtain ⟨e, he, hmoves⟩ := List.any_eq_true.mp hany
      exact absurd (hmoves.symm.trans (hnone e he)) (by simp)
    · rw [hforeign]
      exact ⟨_, rfl, rfl, rfl⟩
  · exact ⟨_, rfl, rfl, rfl⟩

theorem migrate_of_not_foreign (r : MigrationRule) {site : Site} {arguments : Group}
    (hany : arguments.elements.any (r.movesElement site) = true)
    (hforeign : classify arguments r.destination ≠ .foreign) :
    r.migrate site arguments = r.move (classify arguments r.destination) site arguments := by
  unfold migrate
  rw [if_pos hany]
  split
  · contradiction
  · rfl

/-- A call that is not left alone loses its selected keywords and keeps its brackets, and the
destination is there. -/
theorem migrate_cases (r : MigrationRule) (hname : isKeyword r.destination = false) (site : Site)
    (arguments : Group) :
    (r.SelectsNone site.constructor arguments ∨ classify arguments r.destination = .foreign) ∨
    (∃ d pre e post mapping closing outcome,
      r.migrate site arguments = some
        (Group.punctuated { arguments with
            elements := pre ++ Destination.setMapping d e mapping :: post
            closing
            sortable := true } arguments.hasTrailingComma, outcome) ∧
      outcome.changed = true ∧ r.staying d site arguments = pre ++ e :: post ∧
      e.keyword? = some r.destination) := by
  by_cases hany : arguments.elements.any (r.movesElement site) = true
  · by_cases hforeign : classify arguments r.destination = .foreign
    · exact .inl (.inr hforeign)
    · obtain ⟨pre, e, post, mapping, closing, outcome, hstaying, -, hkeyword, -, hmove, hchanged, -⟩ :=
        r.move_eq_some hname site rfl hforeign
      have hmigrate := (r.migrate_of_not_foreign hany hforeign).trans hmove
      exact .inr ⟨_, pre, e, post, _, _, outcome, hmigrate, hchanged, hstaying, hkeyword⟩
  · refine .inl (.inl ?_)
    intro e he
    simp only [List.any_eq_true, not_exists, not_and, Bool.not_eq_true] at hany
    exact hany e he

end MigrationRule

end SchemaTidy
