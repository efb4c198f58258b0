import SchemaTidy.Proofs.Edit.Calls

/-!
# Calls are settled by one pass

A call is settled when migration has nothing left to do in it. One pass settles every call it
reaches, and a pass over settled calls changes nothing and records no edit.
-/

namespace SchemaTidy

namespace MigrationRule

/-- Migration has nothing left to do in a call: no keyword is selected, or they cannot move. -/
def Settled (r : MigrationRule) (constructor : Text) (g : Group) : Prop :=
  r.SelectsNone constructor g ∨ classify g r.destination = .foreign

/-- All calls that are at most `n` field constructor calls deep are settled. -/
def SettledTo (r : MigrationRule) (d : Detector) (n : Nat) (constructor : Text) (g : Group) : Prop :=
  ∀ k ≤ n, (0 < k → d.visitNested = true) →
    ∀ x ∈ callsAt d r.destination k constructor g, r.Settled x.1 x.2

theorem SettledTo.top {r : MigrationRule} {d : Detector} {n : Nat} {constructor : Text} {g : Group}
    (h : r.SettledTo d n constructor g) : r.Settled constructor g :=
  h 0 (by omega) (by omega) (constructor, g) (by simp [callsAt])

theorem SettledTo.below {r : MigrationRule} {d : Detector} {n : Nat} {constructor : Text}
    {g : Group} (h : r.SettledTo d (n + 1) constructor g) (hvisit : d.visitNested = true)
    {x : Text × Group} (hx : x ∈ g.calls d [r.destination]) : r.SettledTo d n x.1 x.2 := by
  intro k hk _ y hy
  refine h (k + 1) (by omega) (fun _ => hvisit) y ?_
  rw [callsAt, List.mem_flatMap]
  exact ⟨x, hx, hy⟩

end MigrationRule

section Pass

variable (r : MigrationRule) (henabled : r.enabled = true) (hname : isKeyword r.destination = false)

/-- The arguments of a call that migration has changed: those that stay, with a new mapping in the
destination. -/
structure MigratedTo (constructor : Text) (g g' : Group) : Prop where
  kind : g'.kind = g.kind
  opening : g'.opening = g.opening
  selectsNone : r.SelectsNone constructor g'
  destination : (g'.keywordIndex? r.destination).isSome
  calls : ∀ d, ∀ x ∈ g'.calls d [r.destination], x ∈ g.calls d [r.destination]

include hname in
theorem migratedTo_of_staying {site : Site} {g : Group} {d : Destination} {pre post : List Element}
    {e : Element} (hstaying : r.staying d site g = pre ++ e :: post)
    (hkeyword : e.keyword? = some r.destination) (mapping : Group) (closing : Token)
    (trailing : Bool) :
    MigratedTo r site.constructor g (Group.punctuated { g with
      elements := pre ++ Destination.setMapping d e mapping :: post
      closing
      sortable := true } trailing) := by
  have hitems := map_items_punctuate trailing (pre ++ d.setMapping e mapping :: post)
  have hkeywords : (punctuate trailing (pre ++ d.setMapping e mapping :: post)).map
      Element.keyword? = (pre ++ e :: post).map Element.keyword? := by
    rw [map_keyword?_of_map_items hitems]
    simp [Destination.keyword?_setMapping]
  refine ⟨rfl, rfl, ?_, ?_, ?_⟩
  · intro x hx
    have hmem : x.keyword? ∈ (pre ++ e :: post).map Element.keyword? :=
      hkeywords ▸ List.mem_map_of_mem hx
    obtain ⟨x₀, hx₀, hx₀k⟩ := List.mem_map.mp hmem
    rw [← hx₀k]
    exact r.movesElement_staying hname (hstaying ▸ hx₀)
  · rw [Group.keywordIndex?, List.findIdx?_isSome, List.any_eq_true]
    have hmem : some r.destination ∈ (punctuate trailing
        (pre ++ d.setMapping e mapping :: post)).map Element.keyword? := by
      rw [hkeywords]
      simp [hkeyword]
    obtain ⟨x, hx, hxk⟩ := List.mem_map.mp hmem
    exact ⟨x, hx, by simp [hxk]⟩
  · intro det x hx
    rw [Group.calls_eq, mem_callsInElements] at hx ⊢
    obtain ⟨y, hy, hskip, hxy⟩ := hx
    have hmem : y.items ∈ (pre ++ d.setMapping e mapping :: post).map Element.items :=
      hitems ▸ List.mem_map_of_mem hy
    obtain ⟨z, hz, hzy⟩ := List.mem_map.mp hmem
    have hkey : z.keyword? = y.keyword? := Element.keyword?_congr (by rw [hzy]) (by rw [hzy])
    have hcalls : z.calls det = y.calls det := by rw [Element.calls_eq, Element.calls_eq, hzy]
    have hother : z.keyword? ≠ some r.destination := by
      intro hz
      rw [← hkey, hz] at hskip
      simp at hskip
    have hstays : z ∈ r.staying d site g := by
      rw [hstaying]
      rcases List.mem_append.mp hz with hz | hz
      · exact List.mem_append_left _ hz
      rcases List.mem_cons.mp hz with rfl | hz
      · exact absurd ((d.keyword?_setMapping e mapping).trans hkeyword) hother
      · exact List.mem_append_right _ (List.mem_cons_of_mem _ hz)
    rcases r.mem_staying hname hstays with hz | ⟨e₀, he₀, -, hretouched⟩
    · exact absurd hz hother
    · refine ⟨e₀, he₀, ?_, ?_⟩
      · rw [← hretouched.keyword?, hkey, hskip]
      · rw [← hretouched.calls det, hcalls]
        exact hxy

include henabled in
/-- A migration alone: its result is taken if it is acceptable. -/
theorem applyRules_of_migrate {site : Site} {g g' : Group} {outcome : Outcome}
    (h : r.migrate site g = some (g', outcome)) :
    applyRules site [r.toRule] g {} [] =
      if r.toRule.accepts g' then
        (g', Outcome.merge {} outcome,
          [⟨MigrationRule.ruleName, outcome.changed, false, outcome.warnings.length⟩])
      else (g, {}, [⟨MigrationRule.ruleName, false, true, 0⟩]) := by
  have happlies : r.toRule.applies site = true := henabled
  have happly : r.toRule.apply site g = some (g', outcome) := h
  cases haccepts : r.toRule.accepts g' with
  | true =>
      simp only [applyRules, happlies, happly, if_true, Option.filter_some, haccepts]
      rfl
  | false =>
      simp only [applyRules, happlies, happly, if_true, Option.filter_some, haccepts,
        Bool.false_eq_true, if_false]
      rfl

include henabled in
theorem editCall_of_settled (reformatBefore : Bool) {site : Site} {g : Group}
    (h : r.Settled site.constructor g) :
    (editCall [r.toRule] reformatBefore site g).1 = g ∧
      (editCall [r.toRule] reformatBefore site g).2.edits = [] := by
  obtain ⟨outcome, hmigrate, hchanged, -⟩ := r.migrate_unchanged h
  unfold editCall
  rw [applyRules_of_migrate r henabled hmigrate]
  by_cases haccepts : r.toRule.accepts g = true
  · simp [haccepts, Outcome.merge, hchanged]
  · simp [haccepts]

include henabled hname in
theorem applyRules_of_not_settled {site : Site} {g : Group} (h : ¬ r.Settled site.constructor g) :
    ∃ dest pre e post mapping closing outcome,
      r.staying dest site g = pre ++ e :: post ∧ e.keyword? = some r.destination ∧
        outcome.changed = true ∧
        applyRules site [r.toRule] g {} [] =
          (Group.punctuated { g with
            elements := pre ++ Destination.setMapping dest e mapping :: post
            closing
            sortable := true } g.hasTrailingComma, Outcome.merge {} outcome,
            [⟨MigrationRule.ruleName, outcome.changed, false, outcome.warnings.length⟩]) := by
  rcases r.migrate_cases hname site g with hsettled |
    ⟨dest, pre, e, post, mapping, closing, outcome, hmigrate, hchanged, hstaying, hkeyword⟩
  · exact absurd hsettled h
  · refine ⟨dest, pre, e, post, mapping, closing, outcome, hstaying, hkeyword, hchanged, ?_⟩
    have hto := migratedTo_of_staying r hname hstaying hkeyword mapping closing g.hasTrailingComma
    rw [applyRules_of_migrate r henabled hmigrate]
    exact if_pos hto.destination

include henabled hname in
/-- What one call becomes: it is settled and stays as it is, or its selected keywords are gone. -/
theorem editCall_cases (reformatBefore : Bool) (site : Site) (g : Group) :
    r.Settled site.constructor g ∨
      MigratedTo r site.constructor g (editCall [r.toRule] reformatBefore site g).1 := by
  by_cases hsettled : r.Settled site.constructor g
  · exact .inl hsettled
  · obtain ⟨dest, pre, e, post, mapping, closing, outcome, hstaying, hkeyword, -, hresult⟩ :=
      applyRules_of_not_settled r henabled hname hsettled
    unfold editCall
    rw [hresult]
    exact .inr (migratedTo_of_staying r hname hstaying hkeyword mapping closing g.hasTrailingComma)

theorem editNested_succ (d : Detector) (reformatBefore : Bool) (n : Nat) (site : Site) (g : Group) :
    editNested d [r.toRule] reformatBefore (n + 1) site g =
      let edited := editCall [r.toRule] reformatBefore site g
      if d.visitNested then
        let visited := edited.1.visitCalls d [r.destination] fun path constructor inner =>
          editNested d [r.toRule] reformatBefore n
            { site with
              constructor
              position := inner.opening.position
              callPath := site.callPath ++ path
              depth := site.depth + 1 } inner
        (visited.1, edited.2.append visited.2)
      else edited := by
  rw [editNested]
  simp only [visitAll_nestedCalls, List.filterMap_cons, List.filterMap_nil]
  rfl

include henabled hname in
theorem editNested_brackets (d : Detector) (reformatBefore : Bool) (n : Nat) (site : Site)
    (g : Group) :
    (editNested d [r.toRule] reformatBefore n site g).1.kind = g.kind ∧
      (editNested d [r.toRule] reformatBefore n site g).1.opening = g.opening := by
  have hcall : (editCall [r.toRule] reformatBefore site g).1.kind = g.kind ∧
      (editCall [r.toRule] reformatBefore site g).1.opening = g.opening := by
    rcases editCall_cases r henabled hname reformatBefore site g with hsettled | hto
    · rw [(editCall_of_settled r henabled _ hsettled).1]
      exact ⟨rfl, rfl⟩
    · exact ⟨hto.kind, hto.opening⟩
  cases n with
  | zero => exact hcall
  | succ n =>
      rw [editNested_succ]
      simp only
      split
      · simpa using hcall
      · exact hcall

/-- What happens to nested calls shows neither in the keywords of a call nor in its destination. -/
theorem editNested_top (d : Detector) (reformatBefore : Bool) (n : Nat) (site : Site) (g : Group) :
    (editNested d [r.toRule] reformatBefore n site g).1.elements.map Element.keyword? =
        (editCall [r.toRule] reformatBefore site g).1.elements.map Element.keyword? ∧
      classify (editNested d [r.toRule] reformatBefore n site g).1 r.destination =
        classify (editCall [r.toRule] reformatBefore site g).1 r.destination := by
  cases n with
  | zero => exact ⟨rfl, rfl⟩
  | succ n =>
      rw [editNested_succ]
      simp only
      split
      · exact ⟨Group.map_keyword?_visitCalls _ _ _ _, classify_visitCalls _ _ _ _⟩
      · exact ⟨rfl, rfl⟩

theorem Group.keywords_eq (g : Group) :
    g.keywords = (g.elements.map Element.keyword?).filterMap id := by
  simp [keywords, List.filterMap_map]

include henabled hname in
theorem editNested_settles_top (d : Detector) (reformatBefore : Bool) (n : Nat) (site : Site)
    (g : Group) :
    r.SelectsNone site.constructor (editNested d [r.toRule] reformatBefore n site g).1 ∨
      (classify (editNested d [r.toRule] reformatBefore n site g).1 r.destination = .foreign ∧
        g.opening = (editNested d [r.toRule] reformatBefore n site g).1.opening ∧
        g.keywords = (editNested d [r.toRule] reformatBefore n site g).1.keywords) := by
  obtain ⟨hkeywords, hclass⟩ := editNested_top r d reformatBefore n site g
  have hopening := (editNested_brackets r henabled hname d reformatBefore n site g).2
  rcases editCall_cases r henabled hname reformatBefore site g with hsettled | hto
  · rw [(editCall_of_settled r henabled _ hsettled).1] at hkeywords hclass
    rcases hsettled with hnone | hforeign
    · exact .inl (r.selectsNone_of_map_keyword? hkeywords hnone)
    · refine .inr ⟨hclass.trans hforeign, hopening.symm, ?_⟩
      rw [Group.keywords_eq, Group.keywords_eq, hkeywords]
  · exact .inl (r.selectsNone_of_map_keyword? hkeywords hto.selectsNone)

include henabled hname in
theorem calls_editCall (d : Detector) (reformatBefore : Bool) (site : Site) (g : Group) :
    ∀ x ∈ (editCall [r.toRule] reformatBefore site g).1.calls d [r.destination],
      x ∈ g.calls d [r.destination] := by
  rcases editCall_cases r henabled hname reformatBefore site g with hsettled | hto
  · rw [(editCall_of_settled r henabled _ hsettled).1]
    exact fun x hx => hx
  · exact hto.calls d

include henabled hname in
/-- Every call that a pass reaches is settled, and one that still has selected keywords stands in the
tree before with the same keywords. -/
theorem editNested_settles (d : Detector) (reformatBefore : Bool) (n : Nat) (site : Site)
    (g : Group) : ∀ k ≤ n, (0 < k → d.visitNested = true) →
      ∀ x ∈ callsAt d r.destination k site.constructor
        (editNested d [r.toRule] reformatBefore n site g).1,
      r.SelectsNone x.1 x.2 ∨
        (classify x.2 r.destination = .foreign ∧
          ∃ inner, (x.1, inner) ∈ callsAt d r.destination k site.constructor g ∧
            inner.opening = x.2.opening ∧ inner.keywords = x.2.keywords) := by
  induction n generalizing site g with
  | zero =>
      intro k hk _ x hx
      obtain rfl : k = 0 := by omega
      rw [callsAt, List.mem_singleton] at hx
      subst hx
      rcases editNested_settles_top r henabled hname d reformatBefore 0 site g with hnone | hrest
      · exact .inl hnone
      · exact .inr ⟨hrest.1, g, by simp [callsAt], hrest.2⟩
  | succ n ih =>
      intro k hk hnested x hx
      cases k with
      | zero =>
          rw [callsAt, List.mem_singleton] at hx
          subst hx
          rcases editNested_settles_top r henabled hname d reformatBefore (n + 1) site g with
            hnone | hrest
          · exact .inl hnone
          · exact .inr ⟨hrest.1, g, by simp [callsAt], hrest.2⟩
      | succ k =>
          have hvisit : d.visitNested = true := hnested (by omega)
          rw [callsAt, List.mem_flatMap] at hx
          obtain ⟨y, hy, hx⟩ := hx
          rw [editNested_succ] at hy
          simp only [hvisit, if_true] at hy
          obtain ⟨path, inner, hinner, hyeq⟩ := mem_calls_visitCalls d [r.destination] _ _
            (fun path constructor inner =>
              (editNested_brackets r henabled hname d reformatBefore n _ inner).1) y hy
          rw [hyeq] at hx
          let siteBelow : Site :=
            { site with
              constructor := y.1
              position := inner.opening.position
              callPath := site.callPath ++ path
              depth := site.depth + 1 }
          rcases ih siteBelow inner k (by omega) (fun _ => hvisit) x hx with
            hnone | ⟨hforeign, z, hz, hrest⟩
          · exact .inl hnone
          · refine .inr ⟨hforeign, z, ?_, hrest⟩
            rw [callsAt, List.mem_flatMap]
            exact ⟨_, calls_editCall r henabled hname d reformatBefore site g _ hinner, hz⟩

include henabled in
theorem editNested_of_settledTo (d : Detector) (reformatBefore : Bool) (n : Nat) (site : Site)
    (g : Group) (h : r.SettledTo d n site.constructor g) :
    (editNested d [r.toRule] reformatBefore n site g).1 = g ∧
      (editNested d [r.toRule] reformatBefore n site g).2.edits = [] := by
  induction n generalizing site g with
  | zero => exact editCall_of_settled r henabled reformatBefore h.top
  | succ n ih =>
      obtain ⟨hsame, hedits⟩ := editCall_of_settled r henabled reformatBefore h.top
      rw [editNested_succ]
      simp only [hsame]
      split
      · rename_i hvisit
        obtain ⟨hvisited, hnone⟩ := visitCalls_eq_self d [r.destination] g
          (fun path constructor inner => editNested d [r.toRule] reformatBefore n
            { site with
              constructor
              position := inner.opening.position
              callPath := site.callPath ++ path
              depth := site.depth + 1 } inner)
          (fun path x hx => ih _ x.2 (h.below hvisit hx))
        exact ⟨hvisited, by rw [Log.edits_append, hedits, hnone, List.nil_append]⟩
      · exact ⟨hsame, hedits⟩

end Pass

end SchemaTidy
