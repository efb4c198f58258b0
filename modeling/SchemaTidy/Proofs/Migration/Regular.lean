import SchemaTidy.Proofs.Migration.Call
import SchemaTidy.Proofs.Tree.Groups

/-!
# Migration keeps groups regular

Keyword migration takes elements out of a call, puts new ones into a mapping inside of it and derives
the commas of both anew. The result is regular whenever the call was.
-/

namespace SchemaTidy

/-! ## Trivia and commas -/

def ChangesTrivia (f : Token → Token) : Prop := ∀ t, ∃ trivia, f t = { t with trivia }

theorem Group.Regular.mapOpening {g : Group} (h : g.Regular) {f : Token → Token}
    (hf : ChangesTrivia f) : Group.Regular { g with opening := f g.opening } := by
  obtain ⟨trivia, htrivia⟩ := hf g.opening
  obtain ⟨hopening, hrest⟩ := Group.regular_iff.mp h
  rw [htrivia]
  exact Group.regular_iff.mpr ⟨hopening, hrest⟩

theorem Item.Regular.mapFirst {i : Item} (h : i.Regular) {f : Token → Token}
    (hf : ChangesTrivia f) : (i.mapFirst f).Regular := by
  cases i with
  | token t => exact Item.regular_token _
  | group g => exact Item.regular_group.mpr ((Item.regular_group.mp h).mapOpening hf)

theorem Element.Regular.mapFirst {e : Element} (h : e.Regular) {f : Token → Token}
    (hf : ChangesTrivia f) : (e.mapFirst f).Regular := by
  obtain ⟨items, comma⟩ := e
  cases items with
  | nil => exact absurd rfl h.items_ne_nil
  | cons i is =>
      have hitems := List.forall_mem_cons.mp h.items
      exact ⟨by simp [Element.mapFirst], h.comma,
        List.forall_mem_cons.mpr ⟨hitems.1.mapFirst hf, hitems.2⟩⟩

theorem Element.Regular.retouched {e e' : Element} (h : e.Regular) (he : e.Retouched e') :
    e'.Regular := by
  obtain ⟨trivia, rfl⟩ := he
  exact h.mapFirst fun t => ⟨trivia, rfl⟩

theorem Element.Regular.withComma {e : Element} (h : e.Regular) {comma : Option Token}
    (hcomma : ∀ t, comma = some t → t.isOp "," = true) : Element.Regular { e with comma } :=
  ⟨h.items_ne_nil, hcomma, h.items⟩

theorem Element.Regular.isOp_getD {e : Element} (h : e.Regular) :
    (e.comma.getD (.ofOp ",")).isOp "," = true := by
  cases hcomma : e.comma with
  | none => rfl
  | some t => exact h.comma t hcomma

theorem punctuate_ne_nil {trailing : Bool} {es : List Element} (h : es ≠ []) :
    punctuate trailing es ≠ [] := by
  fun_induction punctuate trailing es with
  | case1 => exact absurd rfl h
  | case2 e => simp
  | case3 e es hne ih => simp

/-- Commas derived anew stand behind every element but possibly the last. -/
theorem isSome_comma_punctuate (trailing : Bool) (es : List Element) :
    ∀ e ∈ (punctuate trailing es).dropLast, e.comma.isSome = true := by
  fun_induction punctuate trailing es with
  | case1 => simp
  | case2 e => simp
  | case3 e es hne ih =>
      rw [List.dropLast_cons_of_ne_nil (punctuate_ne_nil hne)]
      exact List.forall_mem_cons.mpr ⟨rfl, ih⟩

theorem regular_punctuate (trailing : Bool) {es : List Element} (h : ∀ e ∈ es, e.Regular) :
    ∀ e ∈ punctuate trailing es, e.Regular := by
  fun_induction punctuate trailing es with
  | case1 => exact h
  | case2 e =>
      have he := h e (List.mem_singleton.mpr rfl)
      refine List.forall_mem_singleton.mpr (he.withComma fun t ht => ?_)
      split at ht
      · obtain rfl := Option.some.inj ht
        exact he.isOp_getD
      · cases ht
  | case3 e es hne ih =>
      obtain ⟨he, hes⟩ := List.forall_mem_cons.mp h
      refine List.forall_mem_cons.mpr ⟨he.withComma fun t ht => ?_, ih hes⟩
      obtain rfl := Option.some.inj ht
      exact he.isOp_getD

theorem Group.regular_punctuated {g : Group} (hopening : g.opening.isOp g.kind.opening = true)
    (hclosing : g.closing.isOp g.kind.closing = true) (helements : ∀ e ∈ g.elements, e.Regular)
    (trailing : Bool) : (g.punctuated trailing).Regular :=
  Group.regular_iff.mpr ⟨hopening, hclosing, isSome_comma_punctuate trailing g.elements,
    regular_punctuate trailing helements⟩

/-! ## Moving keywords -/

theorem regular_kept (moves : Element → Bool) (closing : Text) (carry : Option Text) (taken : Bool)
    {es : List Element} (h : ∀ e ∈ es, e.Regular) :
    ∀ e ∈ (partitionFrom moves closing carry taken es).kept, e.Regular := by
  intro e' he'
  obtain ⟨e, he, hretouched⟩ :=
    exists_of_forall₂_mem (kept_partitionFrom moves closing carry taken es) he'
  exact (h e (List.mem_filter.mp he).1).retouched hretouched

theorem regular_moved (moves : Element → Bool) (closing : Text) (carry : Option Text) (taken : Bool)
    {es : List Element} (h : ∀ e ∈ es, e.Regular) :
    ∀ k ∈ (partitionFrom moves closing carry taken es).moved, ∀ i ∈ k.value, i.Regular := by
  induction es generalizing carry taken with
  | nil => simp [partitionFrom]
  | cons e es ih =>
      obtain ⟨he, hes⟩ := List.forall_mem_cons.mp h
      unfold partitionFrom
      simp only
      split
      · refine List.forall_mem_cons.mpr ⟨fun i hi => ?_, ih _ _ hes⟩
        exact he.items i (List.mem_of_mem_drop hi)
      · exact ih _ _ hes

theorem Destination.regular_entry (d : Destination) {keyword : MovedKeyword}
    (h : ∀ i ∈ keyword.value, i.Regular) (trivia : Text) : (d.entry keyword trivia).Regular := by
  unfold Destination.entry Element.ofItems
  refine ⟨?_, by simp, ?_⟩
  · simp only
    split <;> simp
  · simp only [List.forall_mem_append]
    constructor
    · split <;> simp
    · split
      · simp
      · rename_i i is hitems
        rw [hitems] at h
        obtain ⟨hi, his⟩ := List.forall_mem_cons.mp h
        refine List.forall_mem_cons.mpr ⟨hi.mapFirst fun t => ?_, his⟩
        split
        · exact ⟨t.trivia, rfl⟩
        · exact ⟨[' '], rfl⟩

theorem Merge.regular_push (d : Destination) (destination : Text) (site : Site) {m : Merge}
    (hm : ∀ e ∈ m.entries, e.Regular) {keyword : MovedKeyword}
    (hkeyword : ∀ i ∈ keyword.value, i.Regular) :
    ∀ e ∈ (m.push d destination site keyword).entries, e.Regular := by
  refine List.forall_mem_append.mpr ⟨fun e he => hm e (List.mem_filter.mp he).1, ?_⟩
  exact List.forall_mem_singleton.mpr (d.regular_entry hkeyword _)

theorem regular_mergeInto (d : Destination) (destination : Text) (site : Site)
    {moved : List MovedKeyword} (hmoved : ∀ k ∈ moved, ∀ i ∈ k.value, i.Regular) {mapping : Group}
    (hmapping : mapping.Regular) : (mergeInto d destination site moved mapping).1.Regular := by
  obtain ⟨hopening, hclosing, -, helements⟩ := Group.regular_iff.mp hmapping
  have hentries (m : Merge) (hm : ∀ e ∈ m.entries, e.Regular) :
      ∀ e ∈ (moved.foldl (Merge.push d destination site) m).entries, e.Regular := by
    induction moved generalizing m with
    | nil => exact hm
    | cons k moved ih =>
        obtain ⟨hk, hmoved⟩ := List.forall_mem_cons.mp hmoved
        exact ih hmoved _ (Merge.regular_push d destination site hm hk)
  refine Group.regular_punctuated ?_ ?_ ?_ _
  · exact hopening
  · exact hclosing
  · exact hentries ⟨mapping.elements, _, []⟩ helements

theorem Destination.regular_mapping {d : Destination} {e : Element} {mapping : Group}
    (he : e.Regular) (h : d.mapping? e = some mapping) : mapping.Regular := by
  obtain ⟨i, hi, hgroup⟩ := Option.bind_eq_some_iff.mp h
  cases i with
  | token t => cases hgroup
  | group g =>
      obtain rfl : g = mapping := Option.some.inj hgroup
      exact Item.regular_group.mp (he.items _ (List.mem_of_getElem? hi))

theorem forall_mem_set {α : Type} {P : α → Prop} {xs : List α} (h : ∀ x ∈ xs, P x) (n : Nat) {y : α}
    (hy : P y) : ∀ x ∈ xs.set n y, P x := by
  intro x hx
  rcases List.mem_or_eq_of_mem_set hx with hx | rfl
  · exact h x hx
  · exact hy

theorem Destination.regular_setMapping (d : Destination) {e : Element} {mapping : Group}
    (he : e.Regular) (h : mapping.Regular) : (d.setMapping e mapping).Regular :=
  ⟨by simpa [Destination.setMapping] using he.items_ne_nil, he.comma,
    forall_mem_set he.items _ (Item.regular_group.mpr h)⟩

theorem forall_mem_modify {α : Type} {P : α → Prop} {xs : List α} (h : ∀ x ∈ xs, P x) (n : Nat)
    {f : α → α} (hf : ∀ x, P x → P (f x)) : ∀ x ∈ xs.modify n f, P x := by
  induction xs generalizing n with
  | nil => simp
  | cons x xs ih =>
      obtain ⟨hx, hxs⟩ := List.forall_mem_cons.mp h
      cases n with
      | zero => exact List.forall_mem_cons.mpr ⟨hf x hx, hxs⟩
      | succ n => exact List.forall_mem_cons.mpr ⟨hx, ih hxs n⟩

namespace MigrationRule

variable (r : MigrationRule)

theorem regular_staying (d : Destination) (site : Site) {g : Group} (h : g.Regular) :
    ∀ e ∈ r.staying d site g, e.Regular := by
  have hkept := regular_kept (r.movesElement site) g.closing.trivia none false
    (Group.regular_iff.mp h).2.2.2
  unfold staying
  simp only
  split
  · refine List.forall_mem_append.mpr ⟨hkept, List.forall_mem_singleton.mpr ?_⟩
    have hempty : (Group.ofElements .brace []).Regular :=
      Group.regular_iff.mpr ⟨rfl, rfl, by simp [Group.ofElements], by simp [Group.ofElements]⟩
    have hnew : (Element.ofKeyword r.destination [.group (.ofElements .brace [])]).Regular :=
      ⟨by simp [Element.ofKeyword, Element.ofItems], by simp [Element.ofKeyword, Element.ofItems],
        by simpa [Element.ofKeyword, Element.ofItems] using hempty⟩
    exact hnew.mapFirst fun t => ⟨_, rfl⟩
  · exact hkept

theorem regular_move {d : Destination} {site : Site} {g g' : Group} {outcome : Outcome}
    (h : g.Regular) (hmove : r.move d site g = some (g', outcome)) : g'.Regular := by
  obtain ⟨hopening, hclosing, -, helements⟩ := Group.regular_iff.mp h
  have hstaying := r.regular_staying d site h
  have hresult (closing : Text) {i : Nat} {e : Element} {mapping : Group}
      (he : (r.staying d site g)[i]? = some e) (hmapping : d.mapping? e = some mapping) :
      (Group.punctuated { g with
        elements := (r.staying d site g).modify i fun e => d.setMapping e
          (mergeInto d r.destination site (partitionFrom (r.movesElement site) g.closing.trivia none
            false g.elements).moved mapping).1
        closing := { g.closing with trivia := closing }
        sortable := true } g.hasTrailingComma).Regular := by
    have hmerged := regular_mergeInto d r.destination site
      (regular_moved (r.movesElement site) g.closing.trivia none false helements)
      (Destination.regular_mapping (hstaying e (List.mem_of_getElem? he)) hmapping)
    refine Group.regular_punctuated ?_ ?_ ?_ _
    · exact hopening
    · exact hclosing
    · exact forall_mem_modify hstaying i fun e he => d.regular_setMapping he hmerged
  unfold move at hmove
  simp only [Option.bind_eq_bind, Option.bind_eq_some_iff] at hmove
  obtain ⟨i, -, mapping, ⟨e, he, hmapping⟩, hsome⟩ := hmove
  rw [Option.some.injEq, Prod.mk.injEq] at hsome
  obtain ⟨rfl, -⟩ := hsome
  by_cases hcreate : d = .create
  · subst hcreate
    simp only [if_true] at he ⊢
    exact hresult _ he hmapping
  · have hstay : r.staying d site g = (partitionFrom (r.movesElement site) g.closing.trivia none
        false g.elements).kept := by
      simp [staying, hcreate]
    simp only [hcreate, if_false, ← hstay] at he ⊢
    exact hresult _ he hmapping

theorem regular_migrate {site : Site} {g g' : Group} {outcome : Outcome} (h : g.Regular)
    (hmigrate : r.migrate site g = some (g', outcome)) : g'.Regular := by
  unfold migrate at hmigrate
  simp only at hmigrate
  split at hmigrate
  · split at hmigrate
    · cases hmigrate
      exact h
    · exact r.regular_move h hmigrate
  · cases hmigrate
    exact h

end MigrationRule

end SchemaTidy
