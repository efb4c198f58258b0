import SchemaTidy.Proofs.Edit.Visits

/-!
# Unpacked mappings are flagged

A mapping after two asterisks may hold keywords that a migration would move, so a pass warns of each
one. A rule checks every result for a destination argument, also that of a call in which it had nothing
to do: such a call counts as a failure, and its warnings are lost.
-/

namespace SchemaTidy

namespace Visit

/-- One warning for each unpacked mapping among the arguments of a call. -/
def unpackedWarnings (v : Visit) : List Warning :=
  (v.arguments.elements.filter (·.argumentKind == .unpacked)).map fun e =>
    { kind := .unpackedKeywords
      className := v.className
      fieldName := v.fieldName
      position := v.position
      message := "`" ++
        String.ofList (Text.trim Text.isBlank (spell (tokensOfItems e.items))) ++
        "` may hold keywords that cannot be migrated" }

/-- Whether a call has neither a selected keyword nor a destination. -/
def isRejected (r : MigrationRule) (v : Visit) : Bool :=
  !v.arguments.elements.any (fun e => e.keyword?.any (r.selects v.constructor)) &&
    !v.arguments.elements.any (·.keyword? == some r.destination)

end Visit

/-! ## One call -/

theorem warnings_push (d : Destination) (destination : Text) (site : Site)
    (moved : List MovedKeyword) (m : Merge) (h : ∀ w ∈ m.warnings, w.kind = .duplicateKey) :
    ∀ w ∈ (moved.foldl (Merge.push d destination site) m).warnings, w.kind = .duplicateKey := by
  induction moved generalizing m with
  | nil => exact h
  | cons keyword moved ih =>
      apply ih
      intro w hw
      rcases List.mem_append.mp hw with hw | hw
      · exact h w hw
      · split at hw
        · cases hw
        · rw [List.mem_singleton.mp hw]
          rfl

namespace MigrationRule

variable {r : MigrationRule} {site : Site} {g g' : Group} {outcome : Outcome}

theorem filter_unpackedWarnings (site : Site) (g : Group) :
    (unpackedWarnings site g).filter (·.kind == .unpackedKeywords) = unpackedWarnings site g := by
  rw [List.filter_eq_self]
  intro w hw
  obtain ⟨e, -, rfl⟩ := List.mem_map.mp hw
  rfl

theorem filter_append_unpackedWarnings {ws : List Warning}
    (h : ∀ w ∈ ws, w.kind ≠ .unpackedKeywords) (site : Site) (g : Group) :
    (unpackedWarnings site g ++ ws).filter (·.kind == .unpackedKeywords) =
      unpackedWarnings site g := by
  have hnone : ws.filter (·.kind == .unpackedKeywords) = [] := by
    rw [List.filter_eq_nil_iff]
    simpa using h
  rw [List.filter_append, filter_unpackedWarnings, hnone, List.append_nil]

theorem warnings_move {d : Destination} (h : r.move d site g = some (g', outcome)) :
    ∃ duplicates, outcome.warnings = unpackedWarnings site g ++ duplicates ∧
      ∀ w ∈ duplicates, w.kind = .duplicateKey := by
  simp only [move, Option.bind_eq_bind, Option.bind_eq_some_iff] at h
  obtain ⟨i, -, mapping, -, h⟩ := h
  cases h
  exact ⟨_, rfl, warnings_push d r.destination site _ _ (by simp)⟩

theorem isSome_keywordIndex? (g : Group) (destination : Text) :
    (g.keywordIndex? destination).isSome =
      g.elements.any (·.keyword? == some destination) :=
  List.findIdx?_isSome

theorem any_destination_of_foreign (h : classify g r.destination = .foreign) :
    g.elements.any (·.keyword? == some r.destination) = true := by
  cases hfind : g.elements.find? (·.keyword? == some r.destination) with
  | none => simp [classify, hfind] at h
  | some e =>
      rw [List.any_eq_true]
      have he := (List.find?_eq_some_iff_append.mp hfind).1
      exact ⟨e, List.mem_of_find?_eq_some hfind, he⟩

/-- A migration always has a result. It warns of every unpacked mapping, and it is acceptable unless the
call has neither a selected keyword nor a destination. -/
theorem exists_migrate (hname : isKeyword r.destination = false) (site : Site) (g : Group) :
    ∃ g' outcome, r.migrate site g = some (g', outcome) ∧
      r.toRule.accepts g' = !(Visit.ofSite site g).isRejected r ∧
      outcome.warnings.filter (·.kind == .unpackedKeywords) =
        (Visit.ofSite site g).unpackedWarnings := by
  by_cases hany : g.elements.any (r.movesElement site) = true
  · have hkept : (Visit.ofSite site g).isRejected r = false := by
      simp only [Visit.isRejected, Bool.and_eq_false_iff, Bool.not_eq_false']
      exact .inl hany
    rw [hkept]
    by_cases hforeign : classify g r.destination = .foreign
    · refine ⟨g, _, by rw [migrate, if_pos hany, hforeign], ?_, ?_⟩
      · show (g.keywordIndex? r.destination).isSome = true
        rw [isSome_keywordIndex?, any_destination_of_foreign hforeign]
      · exact filter_append_unpackedWarnings (by simp [Site.warn]) site g
    · obtain ⟨pre, e, post, mapping, closing, outcome, hstaying, -, hkeyword, -, hmove, -⟩ :=
        r.move_eq_some hname site rfl hforeign
      refine ⟨_, outcome, (r.migrate_of_not_foreign hany hforeign).trans hmove, ?_, ?_⟩
      · exact (migratedTo_of_staying r hname hstaying hkeyword _ _ g.hasTrailingComma).destination
      · obtain ⟨duplicates, hwarnings, hkinds⟩ := warnings_move hmove
        rw [hwarnings]
        refine filter_append_unpackedWarnings (fun w hw => ?_) site g
        simp [hkinds w hw]
  · refine ⟨g, _, by rw [migrate, if_neg hany], ?_, filter_unpackedWarnings site g⟩
    have hnone : g.elements.any (fun e => e.keyword?.any (r.selects site.constructor)) = false := by
      rw [← Bool.not_eq_true]
      exact hany
    show (g.keywordIndex? r.destination).isSome = _
    simp [isSome_keywordIndex?, Visit.isRejected, Visit.ofSite, hnone]

end MigrationRule

section Call

variable (r : MigrationRule) (henabled : r.enabled = true) (hname : isKeyword r.destination = false)

include henabled hname in
/-- What the log of one call holds: one application, which fails exactly at a rejected call, and the
warnings about unpacked mappings if it does not. -/
theorem log_editCall (reformatBefore : Bool) (site : Site) (g : Group) :
    ((editCall [r.toRule] reformatBefore site g).2.applications.map fun a => (a.rule, a.failed)) =
        [(MigrationRule.ruleName, (Visit.ofSite site g).isRejected r)] ∧
      (editCall [r.toRule] reformatBefore site g).2.warnings.filter (·.kind == .unpackedKeywords) =
        if (Visit.ofSite site g).isRejected r then []
        else (Visit.ofSite site g).unpackedWarnings := by
  obtain ⟨g', outcome, hmigrate, haccepts, hwarnings⟩ := r.exists_migrate hname site g
  unfold editCall
  rw [applyRules_of_migrate r henabled hmigrate, haccepts]
  cases (Visit.ofSite site g).isRejected r with
  | true => exact ⟨rfl, rfl⟩
  | false => exact ⟨rfl, hwarnings⟩

end Call

/-! ## A pass -/

/-- The rules applied during a pass, and whether they failed. -/
def LogPart.failures : LogPart (String × Bool) :=
  ⟨fun log => log.applications.map fun a => (a.rule, a.failed), rfl, fun _ _ => List.map_append,
    fun _ _ => rfl⟩

theorem count_foldl (applications : List Application) (t : Tally) :
    (applications.foldl Tally.count t).rule = t.rule ∧
      (applications.foldl Tally.count t).applications =
        t.applications + applications.countP (t.rule == ·.rule) ∧
      (applications.foldl Tally.count t).errors =
        t.errors + applications.countP fun a => t.rule == a.rule && a.failed := by
  induction applications generalizing t with
  | nil => exact ⟨rfl, rfl, rfl⟩
  | cons a applications ih =>
      obtain ⟨hrule, happlications, herrors⟩ := ih (t.count a)
      have hsame : (t.count a).rule = t.rule := by
        unfold Tally.count
        split <;> rfl
      rw [List.foldl_cons, hrule, happlications, herrors, hsame, List.countP_cons, List.countP_cons]
      refine ⟨rfl, ?_, ?_⟩
      · by_cases ha : (t.rule == a.rule) = true <;> simp [Tally.count, ha]
        omega
      · by_cases ha : (t.rule == a.rule) = true <;> simp [Tally.count, ha]
        split <;> omega

section Pass

variable (r : MigrationRule) (henabled : r.enabled = true) (hname : isKeyword r.destination = false)
  (d : Detector) {source : Text} {m : Module} (h : parse source = .ok m)

include henabled hname h in
theorem warnings_pass :
    (editClasses d [r.toRule] (d.detect m) m {}).2.warnings.filter (·.kind == .unpackedKeywords) =
      ((m.visits d r).filter (!·.isRejected r)).flatMap Visit.unpackedWarnings := by
  refine (part_pass (.warnings .unpackedKeywords) d r henabled hname
    (fun v => if v.isRejected r then [] else v.unpackedWarnings) ?_ h).trans ?_
  · exact fun reformatBefore site g => (log_editCall r henabled hname reformatBefore site g).2
  induction m.visits d r with
  | nil => rfl
  | cons v visits ih => by_cases hv : v.isRejected r = true <;> simp [hv, ih]

include henabled hname h in
theorem failures_pass :
    (editClasses d [r.toRule] (d.detect m) m {}).2.applications.map (fun a => (a.rule, a.failed)) =
      (m.visits d r).map fun v => (MigrationRule.ruleName, v.isRejected r) := by
  refine (part_pass .failures d r henabled hname
    (fun v => [(MigrationRule.ruleName, v.isRejected r)]) ?_ h).trans ?_
  · exact fun reformatBefore site g => (log_editCall r henabled hname reformatBefore site g).1
  · exact List.map_eq_flatMap.symm

end Pass

theorem Engine.tallies_ofConfig {config : Config} (hvalid : config.validate = .ok ())
    (henabled : config.migration.enabled = true) {engine : Engine}
    (h : Engine.ofConfig config = .ok engine) :
    engine.tallies = [{ rule := MigrationRule.ruleName }] := by
  simp only [Engine.ofConfig, hvalid, henabled, if_true] at h
  cases h
  rfl

/-- Unpacked mappings are flagged. For a valid configuration with migration enabled, a pass over a
parsed module warns once of each unpacked mapping of each call it comes to, in order, and no call counts
as a failure: except for the calls with neither a selected keyword nor a destination, each of which
counts as a failure and is not warned of. -/
theorem unpacked_mappings_flagged (config : Config) (hvalid : config.validate = .ok ())
    (henabled : config.migration.enabled = true) {source : Text} {m : Module}
    (h : parse source = .ok m) :
    ∃ engine, Engine.ofConfig config = .ok engine ∧
      let visits := m.visits config.detector config.migration
      let pass := engine.run m (config.detector.detect m)
      pass.2.1.warnings.filter (·.kind == .unpackedKeywords) =
          (visits.filter (!·.isRejected config.migration)).flatMap Visit.unpackedWarnings ∧
        pass.2.2.tallies.map (fun t => (t.rule, t.applications, t.errors)) =
          [(MigrationRule.ruleName, visits.length,
            visits.countP (·.isRejected config.migration))] := by
  obtain ⟨engine, hengine, hrules, hdetector⟩ := Engine.ofConfig_eq_ok hvalid henabled
  refine ⟨engine, hengine, ?_⟩
  intro visits pass
  have hname : isKeyword config.migration.destination = false := config.isKeyword_destination hvalid
  have hwarnings := warnings_pass config.migration henabled hname config.detector h
  have hfailures := failures_pass config.migration henabled hname config.detector h
  generalize hlog : (editClasses config.detector [config.migration.toRule]
    (config.detector.detect m) m {}).2 = log at hwarnings hfailures
  have hreport : pass.2.1.warnings = log.warnings := by
    simp [pass, Engine.run, hrules, hdetector, hlog]
  have htallies : pass.2.2.tallies =
      [log.applications.foldl Tally.count { rule := MigrationRule.ruleName }] := by
    simp [pass, Engine.run, hrules, hdetector, hlog, Engine.tallies_ofConfig hvalid henabled hengine]
  constructor
  · rw [hreport]
    exact hwarnings
  · obtain ⟨hrule, happlications, herrors⟩ :=
      count_foldl log.applications { rule := MigrationRule.ruleName }
    -- What is counted of an application is its rule and whether it failed.
    have hcount (p : String × Bool → Bool) : log.applications.countP (fun a => p (a.rule, a.failed)) =
        visits.countP fun v => p (MigrationRule.ruleName, v.isRejected config.migration) := by
      have hmap := congrArg (List.countP p) hfailures
      rwa [List.countP_map, List.countP_map] at hmap
    have hall := hcount fun x => MigrationRule.ruleName == x.1
    have hfailed := hcount fun x => MigrationRule.ruleName == x.1 && x.2
    rw [htallies, List.map_singleton, hrule, happlications, herrors]
    simp_all

/-- A field with a selected keyword, one inside of it without, and one that has a destination. -/
def openFields : Text :=
  ("class A(Schema):\n    x = fields.List(fields.Str(**a), hint=1, **b)\n" ++
    "    y = Str(metadata={}, **c, **d)\n").toList

theorem unpacked_mappings_flagged_openFields :
    ∃ m engine, parse openFields = .ok m ∧
      Engine.ofConfig (Config.migrating {} ["hint".toList] "metadata".toList) = .ok engine ∧
      let pass := engine.run m (Detector.detect {} m)
      (pass.2.1.warnings.filter (·.kind == .unpackedKeywords)).length = 3 ∧
      pass.2.2.tallies.map (fun t => (t.rule, t.applications, t.errors)) =
        [(MigrationRule.ruleName, 3, 1)] := by
  let config := Config.migrating {} ["hint".toList] "metadata".toList
  have hvisits : ((parse openFields).toOption.map fun m =>
      let visits := m.visits {} config.migration
      (((visits.filter (!·.isRejected config.migration)).flatMap Visit.unpackedWarnings).length,
        visits.length, visits.countP (·.isRejected config.migration))) = some (3, 3, 1) := by
    decide +kernel
  cases hm : parse openFields with
  | error e => simp [hm, Except.toOption] at hvisits
  | ok m =>
      obtain ⟨engine, hengine, hwarnings, htallies⟩ :=
        unpacked_mappings_flagged config (by decide +kernel) rfl hm
      simp only [hm, Except.toOption, Option.map_some, Option.some.injEq, Prod.mk.injEq] at hvisits
      obtain ⟨hflagged, hcount, hrejected⟩ := hvisits
      refine ⟨m, engine, rfl, hengine, ?_, ?_⟩
      · exact (congrArg List.length hwarnings).trans hflagged
      · refine htallies.trans ?_
        exact congrArg (fun x => [(MigrationRule.ruleName, x)]) (Prod.ext hcount hrejected)

end SchemaTidy
