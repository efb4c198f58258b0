import SchemaTidy.Proofs.Edit.Undo
import SchemaTidy.Proofs.Edit.Visits
import SchemaTidy.Proofs.Migration.Readable

/-!
# Recorded edits can be read

A report holds every call that a pass has changed, as it was and as it became. Each of these calls was
there before the pass, so it can be read, and so can what the migration made of it: read as a source by
itself, it gives its own tokens again.
-/

namespace SchemaTidy

/-! ## Groups of the calls -/

section Calls

variable (d : Detector)

mutual

theorem groups_calls (skip : List Text) : ∀ {g : Group} {x : Text × Group}, x ∈ g.calls d skip →
    x.2.groups ⊆ g.groups
  | ⟨opening, elements, closing, kind, sortable⟩, x, hx => by
      have helements : x.2.groups ⊆ groupsOfElements elements := groups_callsInElements skip hx
      exact List.subset_cons_of_subset _ helements

theorem groups_callsInElements (skip : List Text) : ∀ {es : List Element} {x : Text × Group},
    x ∈ callsInElements d skip es → x.2.groups ⊆ groupsOfElements es
  | [], x, hx => by cases hx
  | ⟨items, comma⟩ :: es, x, hx => by
      rw [callsInElements] at hx
      rcases List.mem_append.mp hx with hx | hx
      · split at hx
        · cases hx
        · have hitems : x.2.groups ⊆ groupsOfItems items := groups_callsInItems hx
          exact List.subset_append_of_subset_left _ hitems
      · exact List.subset_append_of_subset_right _ (groups_callsInElements skip hx)

theorem groups_callsInItems : ∀ {items before : List Item} {x : Text × Group},
    x ∈ callsInItems d before items → x.2.groups ⊆ groupsOfItems items
  | [], before, x, hx => by cases hx
  | .token t :: rest, before, x, hx => by
      have hrest : x.2.groups ⊆ groupsOfItems rest := groups_callsInItems hx
      exact hrest
  | .group g :: rest, before, x, hx => by
      rw [callsInItems] at hx
      rcases List.mem_append.mp hx with hx | hx
      · refine List.subset_append_of_subset_left _ ?_
        split at hx
        · rw [List.mem_singleton] at hx
          subst hx
          exact List.Subset.refl _
        · exact groups_calls [] hx
      · exact List.subset_append_of_subset_right _ (groups_callsInItems hx)

end

variable (r : MigrationRule)

theorem groups_elementCalls {e : Element} {x : Text × Group} (hx : x ∈ e.calls d) :
    x.2.groups ⊆ groupsOfItems e.items := by
  rw [Element.calls_eq] at hx
  exact groups_callsInItems d hx

theorem Visit.groups_all {n : Nat} {v w : Visit} (hw : w ∈ Visit.all d r n v) :
    w.arguments.groups ⊆ v.arguments.groups := by
  induction n generalizing v with
  | zero =>
      rw [Visit.all, List.mem_singleton] at hw
      rw [hw]
      exact List.Subset.refl _
  | succ n ih =>
      rw [Visit.all] at hw
      rcases List.mem_cons.mp hw with rfl | hw
      · exact List.Subset.refl _
      · split at hw
        · obtain ⟨x, hx, hw⟩ := List.mem_flatMap.mp hw
          obtain ⟨e, he, hx⟩ := List.mem_flatMap.mp hx
          refine List.Subset.trans (ih hw) (List.Subset.trans (groups_elementCalls d hx) ?_)
          have hmem : e ∈ v.arguments.elements := (List.mem_filter.mp he).1
          obtain ⟨className, fieldName, constructor, position, arguments⟩ := v
          obtain ⟨opening, elements, closing, kind, sortable⟩ := arguments
          intro h hh
          exact List.mem_cons_of_mem _ (mem_groupsOfElements.mpr ⟨e, hmem, hh⟩)
        · cases hw

theorem Line.groups_visits {className : Text} {line : Line} {v : Visit}
    (hv : v ∈ line.visits d r className) : v.arguments.groups ⊆ groupsOfItems line.items := by
  unfold Line.visits at hv
  split at hv
  · rename_i call hfield
    obtain ⟨eq, callee, hitems, -⟩ :=
      fieldCall?_eq_some.mp (Detector.fieldOf?_eq_some.mp hfield).1
    refine List.Subset.trans (Visit.groups_all d r hv) fun h hh => ?_
    exact mem_groupsOfItems.mpr ⟨.group call.arguments, by simp [hitems], hh⟩
  · cases hv

theorem groups_statementAt? {body : List Statement} {path : StatementPath} {s : Statement}
    (h : statementAt? body path = some s) : s.groups ⊆ groupsOfBody body := by
  induction path generalizing body with
  | nil => cases h
  | cons i path ih =>
      by_cases hpath : path = []
      · subst hpath
        exact fun g hg => mem_groupsOfBody.mpr ⟨s, List.mem_of_getElem? h, hg⟩
      · obtain ⟨t, block, ht, hblock, hs⟩ := exists_of_statementAt?_cons hpath h
        intro g hg
        refine mem_groupsOfBody.mpr ⟨t, List.mem_of_getElem? ht, ?_⟩
        have hbody := ih hs hg
        cases t with
        | simple line => cases hblock
        | compound signature header newline block' =>
            obtain rfl := Option.some.inj hblock
            obtain ⟨indent, body', dedent⟩ := block'
            exact List.mem_append_right _ hbody

theorem Module.groups_visits {m : Module} {v : Visit} (hv : v ∈ m.visits d r) :
    v.arguments.groups ⊆ m.groups := by
  obtain ⟨c, -, hv⟩ := List.mem_flatMap.mp hv
  unfold SchemaClass.visits at hv
  split at hv
  · rename_i signature header newline block hs
    obtain ⟨s, hmem, hv⟩ := List.mem_flatMap.mp hv
    refine List.Subset.trans ?_ (groups_statementAt? hs)
    intro g hg
    obtain ⟨indent, body, dedent⟩ := block
    refine List.mem_append_right _ (mem_groupsOfBody.mpr ⟨s, hmem, ?_⟩)
    cases s with
    | simple line => exact Line.groups_visits d r hv hg
    | compound signature header newline block => cases hv
  · cases hv

end Calls

/-! ## Edits -/

def Edit.visit (e : Edit) : Visit := ⟨e.className, e.fieldName, e.constructor, e.position, e.before⟩

def Visit.site (v : Visit) : Site :=
  ⟨v.className, v.fieldName, v.constructor, v.position, [], [], 0⟩

/-- The calls that were changed, with their new arguments. -/
def LogPart.changes : LogPart (Visit × Group) :=
  ⟨fun log => log.edits.map fun e => (e.visit, e.after), rfl, fun _ _ => List.map_append,
    fun _ _ => rfl⟩

section Call

variable (r : MigrationRule)

theorem changes_editCall_site (reformatBefore : Bool) (site : Site) (g : Group) :
    LogPart.changes.of (editCall [r.toRule] reformatBefore site g).2 =
      LogPart.changes.of (editCall [r.toRule] false (Visit.ofSite site g).site g).2 := by
  have hsame : applyRules (Visit.ofSite site g).site [r.toRule] g {} [] =
      applyRules site [r.toRule] g {} [] := rfl
  simp only [editCall, hsame, LogPart.changes]
  split <;> rfl

theorem migrate_of_applyRules_changed {site : Site} {g : Group}
    (h : (applyRules site [r.toRule] g {} []).2.1.changed = true) :
    ∃ outcome, r.migrate site g = some ((applyRules site [r.toRule] g {} []).1, outcome) := by
  cases henabled : r.enabled with
  | false =>
      have happlies : r.toRule.applies site = false := henabled
      simp [applyRules, happlies] at h
  | true =>
      have happlies : r.toRule.applies site = true := henabled
      rw [applyRules, if_pos happlies] at h ⊢
      cases hresult : (r.toRule.apply site g).filter fun result => r.toRule.accepts result.1 with
      | none => simp [hresult, applyRules] at h
      | some result => exact ⟨result.2, (Option.filter_eq_some_iff.mp hresult).1⟩

theorem migrate_of_mem_changes {reformatBefore : Bool} {site : Site} {g : Group}
    {x : Visit × Group}
    (hx : x ∈ LogPart.changes.of (editCall [r.toRule] reformatBefore site g).2) :
    x.1 = .ofSite site g ∧ ∃ outcome, r.migrate site g = some (x.2, outcome) := by
  simp only [editCall, LogPart.changes] at hx
  split at hx
  · rename_i hchanged
    rw [List.map_singleton, List.mem_singleton] at hx
    subst hx
    exact ⟨rfl, migrate_of_applyRules_changed r (Bool.and_eq_true_iff.mp hchanged).1⟩
  · cases hx

end Call

theorem Config.cuts_destination {config : Config} (h : config.validate = .ok ()) :
    Lexeme.Cuts .name config.migration.destination [] := by
  have hname := config.isIdentifierName_destination h
  cases hdestination : config.migration.destination with
  | nil => simp [hdestination, isIdentifierName] at hname
  | cons c cs =>
      rw [hdestination, isIdentifierName] at hname
      simp only [Bool.and_eq_true, List.all_eq_true] at hname
      exact Lexeme.cuts_name hname.1.1 hname.1.2

/-- The edits of a pass, by the calls it comes to. -/
theorem migrate_of_mem_edits {config : Config} (hvalid : config.validate = .ok ()) {source : Text}
    {m : Module} (h : parse source = .ok m) :
    ∃ engine, Engine.ofConfig config = .ok engine ∧
      ∀ e ∈ (engine.run m (config.detector.detect m)).2.1.edits,
        e.visit ∈ m.visits config.detector config.migration ∧
          ∃ outcome, config.migration.migrate e.visit.site e.before = some (e.after, outcome) := by
  cases henabled : config.migration.enabled with
  | false =>
      refine ⟨_, Engine.ofConfig_disabled hvalid henabled, fun e he => ?_⟩
      simp [Engine.run, Engine.empty] at he
  | true =>
      obtain ⟨engine, hengine, hrules, hdetector⟩ := Engine.ofConfig_eq_ok hvalid henabled
      refine ⟨engine, hengine, fun e he => ?_⟩
      rw [(Engine.run_eq hrules m (config.detector.detect m)).2, hdetector] at he
      have hchanges := part_pass .changes config.detector config.migration henabled
        (config.isKeyword_destination hvalid)
        (fun v => LogPart.changes.of (editCall [config.migration.toRule] false v.site v.arguments).2)
        (changes_editCall_site config.migration) h
      have hmem : (e.visit, e.after) ∈ LogPart.changes.of
          (editClasses config.detector [config.migration.toRule] (config.detector.detect m) m {}).2 :=
        List.mem_map_of_mem he
      rw [hchanges] at hmem
      obtain ⟨v, hv, hmem⟩ := List.mem_flatMap.mp hmem
      obtain ⟨hvisit, hmigrate⟩ := migrate_of_mem_changes config.migration hmem
      have hsame : e.visit = v := hvisit
      subst hsame
      exact ⟨hv, hmigrate⟩

/-! ## Main statement -/

/-- Recorded edits can be read. For a parsed module and a valid configuration, reading the arguments
that an edit of the report records for a call, as a source by themselves, succeeds and gives the tokens
of these arguments in order, apart from indents and dedents and followed by a line end and the end of
the source. Two things are asked of the call as it was: that a comment which is carried to an argument
goes in front of a line break, since the argument would otherwise be part of the comment, and that its
opening bracket stands behind nothing that ends a line when it starts the source. -/
theorem edits_regenerate (config : Config) (hvalid : config.validate = .ok ()) {source : Text}
    {m : Module} (h : parse source = .ok m) :
    ∃ engine, Engine.ofConfig config = .ok engine ∧
      ∀ e ∈ (engine.run m (config.detector.detect m)).2.1.edits,
        CarriesToBreak (config.migration.carried e.visit.site e.before) →
        startsLine e.before.opening.trivia = true →
        ∃ ts, tokenize e.after.source = .ok ts ∧
          (ts.filter (!·.marksBlock)).map Token.shape =
            e.after.tokens.map Token.spelling ++ [(.newline, []), (.endMarker, [])] := by
  obtain ⟨engine, hengine, hedits⟩ := migrate_of_mem_edits hvalid h
  refine ⟨engine, hengine, fun e he hcarried hstarts => ?_⟩
  obtain ⟨hvisit, outcome, hmigrate⟩ := hedits e he
  have hgroups : ∀ g ∈ e.before.groups, g.Readable :=
    fun g hg => readable_of_parse h (Module.groups_visits _ _ hvisit hg)
  obtain ⟨after, outcome', hmigrate', hafter, hopening⟩ := config.migration.readable_migrate
    (config.isKeyword_destination hvalid) (config.cuts_destination hvalid) e.visit.site hgroups
    hcarried
  rw [hmigrate, Option.some.injEq, Prod.mk.injEq] at hmigrate'
  obtain ⟨rfl, -⟩ := hmigrate'
  exact tokenize_readable hafter (hopening ▸ hstarts)

/-- A field with comments behind a keyword that moves and behind the argument in front of it. -/
def commentedField : Text :=
  ("class A(Schema):\n    x = Str(\n        a=1,  # one\n        hint='x',  # two\n" ++
    "        b=2)\n").toList

theorem edits_regenerate_commentedField :
    let config := Config.migrating {} ["hint".toList] "m".toList
    ∃ m engine e ts, parse commentedField = .ok m ∧ Engine.ofConfig config = .ok engine ∧
      (engine.run m (Detector.detect {} m)).2.1.edits = [e] ∧
      tokenize e.after.source = .ok ts ∧
      (ts.filter (!·.marksBlock)).map Token.shape =
        e.after.tokens.map Token.spelling ++ [(.newline, []), (.endMarker, [])] := by
  intro config
  have hedits : ((parse commentedField).toOption.bind fun m =>
      (Engine.ofConfig config).toOption.map fun engine =>
        (engine.run m (Detector.detect {} m)).2.1.edits.map fun e =>
          (config.migration.carried e.visit.site e.before, startsLine e.before.opening.trivia)) =
      some [([("  # one".toList, "\n        ".toList)], true)] := by
    decide +kernel
  cases hm : parse commentedField with
  | error e => simp [hm, Except.toOption] at hedits
  | ok m =>
      obtain ⟨engine, hengine, hregenerate⟩ := edits_regenerate config (by decide +kernel) hm
      rw [hm, hengine] at hedits
      obtain ⟨e, hreport, he⟩ := List.map_eq_singleton_iff.mp (Option.some.inj hedits)
      obtain ⟨hcarried, hstarts⟩ := Prod.mk.inj he
      obtain ⟨ts, hts, htokens⟩ := hregenerate e (hreport ▸ List.mem_singleton_self e)
        (by rw [hcarried]; simp [CarriesToBreak, Text.isLineBreak]) hstarts
      exact ⟨m, engine, e, ts, rfl, hengine, hreport, hts, htokens⟩

end SchemaTidy
