import SchemaTidy.Edit.Mark
import SchemaTidy.Proofs.Edit.Fixpoint
import SchemaTidy.Proofs.Migration.Regular

/-!
# Sessions

A session parses a file and then rewrites, marks and undoes in any order. Main statement: every group
of every tree that it comes to hold is regular.
-/

namespace SchemaTidy

/-- The trees that a session can hold, with the reports of its rewrites so far. Which classes a step
is given does not matter, nor whether undoing goes through to the end. -/
inductive Session : Module → List Report → Prop where
  | parsed {source : Text} {m : Module} (h : parse source = .ok m) : Session m []
  | rewritten {m : Module} {reports : List Report} (hs : Session m reports) {config : Config}
      {engine : Engine} (h : Engine.ofConfig config = .ok engine) (tallies : List Tally)
      (classes : List SchemaClass) :
      Session (Engine.run { engine with tallies } m classes).1
        (reports ++ [(Engine.run { engine with tallies } m classes).2.1])
  | marked {m : Module} {reports : List Report} (hs : Session m reports) (d : Detector)
      (destination : Text) (reformat : Bool) (classes : List SchemaClass) :
      Session (markFields d destination reformat m classes) reports
  | undone {m : Module} {reports : List Report} (hs : Session m reports) {r : Report}
      (hr : r ∈ reports) : Session (r.undo m).1 reports

/-! ## Groups inside of groups -/

namespace Group

variable {g : Group}

theorem Regular.modify (h : g.Regular) (n : Nat) {f : Element → Element}
    (hf : ∀ e, e.Regular → (f e).Regular) (hcomma : ∀ e, (f e).comma = e.comma) :
    Group.Regular { g with elements := g.elements.modify n f } := by
  obtain ⟨hopening, hclosing, hseparated, helements⟩ := Group.regular_iff.mp h
  have hcommas : (g.elements.modify n f).map Element.comma = g.elements.map Element.comma := by
    refine List.ext_getElem? fun k => ?_
    rw [List.getElem?_map, List.getElem?_map, List.getElem?_modify]
    cases g.elements[k]? with
    | none => rfl
    | some e => by_cases hk : n = k <;> simp [hk, hcomma]
  refine Group.regular_iff.mpr ⟨hopening, hclosing, fun e he => ?_, forall_mem_modify helements n hf⟩
  have hmem : e.comma ∈ (g.elements.dropLast).map Element.comma := by
    rw [List.map_dropLast, ← hcommas, ← List.map_dropLast]
    exact List.mem_map_of_mem he
  obtain ⟨e', he', heq⟩ := List.mem_map.mp hmem
  rw [← heq]
  exact hseparated e' he'

theorem Regular.withSortable (h : g.Regular) (sortable : Bool) :
    Group.Regular { g with sortable } := by
  obtain ⟨hopening, hclosing, hseparated, helements⟩ := Group.regular_iff.mp h
  exact Group.regular_iff.mpr ⟨hopening, hclosing, hseparated, helements⟩

theorem Regular.child? (h : g.Regular) {step : Nat × Nat} {inner : Group}
    (hinner : g.child? step = some inner) : inner.Regular := by
  obtain ⟨e, he, hitem⟩ := Option.bind_eq_some_iff.mp hinner
  obtain ⟨i, hi, hgroup⟩ := Option.bind_eq_some_iff.mp hitem
  have hregular := ((Group.regular_iff.mp h).2.2.2 e (List.mem_of_getElem? he)).items i
    (List.mem_of_getElem? hi)
  cases i with
  | token t => cases hgroup
  | group g' =>
      obtain rfl : g' = inner := Option.some.inj hgroup
      exact Item.regular_group.mp hregular

theorem Regular.setChild (h : g.Regular) (step : Nat × Nat) {inner : Group}
    (hinner : inner.Regular) : (g.setChild step inner).Regular := by
  refine h.modify step.1 (fun e he => ?_) fun e => rfl
  exact ⟨by simpa using he.items_ne_nil, he.comma,
    forall_mem_set he.items _ (Item.regular_group.mpr hinner)⟩

theorem Regular.at? (h : g.Regular) {path : CallPath} {inner : Group}
    (hinner : g.at? path = some inner) : inner.Regular := by
  induction path generalizing g with
  | nil =>
      obtain rfl : g = inner := Option.some.inj hinner
      exact h
  | cons step path ih =>
      obtain ⟨child, hchild, hinner⟩ := Option.bind_eq_some_iff.mp hinner
      exact ih (h.child? hchild) hinner

theorem Regular.setAt (h : g.Regular) (path : CallPath) {new : Group} (hnew : new.Regular) :
    (g.setAt path new).Regular := by
  induction path generalizing g with
  | nil => exact hnew
  | cons step path ih =>
      rw [Group.setAt]
      split
      · rename_i child hchild
        exact h.setChild step (ih (h.child? hchild))
      · exact h

end Group

/-! ## Rules -/

/-- A rule gives regular arguments for regular arguments. -/
def Rule.KeepsRegular (rule : Rule) : Prop :=
  ∀ site g result, rule.apply site g = some result → g.Regular → result.1.Regular

theorem MigrationRule.keepsRegular_toRule (r : MigrationRule) : r.toRule.KeepsRegular :=
  fun _ _ _ hmigrate h => r.regular_migrate h hmigrate

theorem Engine.keepsRegular_ofConfig {config : Config} {engine : Engine}
    (h : Engine.ofConfig config = .ok engine) : ∀ rule ∈ engine.rules, rule.KeepsRegular := by
  have hvalid : config.validate = .ok () := by
    unfold Engine.ofConfig at h
    split at h
    · cases h
    · assumption
  cases henabled : config.migration.enabled with
  | true =>
      obtain ⟨engine', hengine, hrules, -⟩ := Engine.ofConfig_eq_ok hvalid henabled
      obtain rfl : engine' = engine := Except.ok.inj (hengine.symm.trans h)
      rw [hrules]
      exact List.forall_mem_singleton.mpr config.migration.keepsRegular_toRule
  | false =>
      simp only [Engine.ofConfig, hvalid, henabled] at h
      cases h
      simp [Engine.empty]

def Log.Regular (log : Log) : Prop := ∀ e ∈ log.edits, e.before.Regular

theorem Log.Regular.append {a b : Log} (ha : a.Regular) (hb : b.Regular) : (a.append b).Regular :=
  List.forall_mem_append.mpr ⟨ha, hb⟩

section Pass

variable {rules : List Rule} (hrules : ∀ rule ∈ rules, rule.KeepsRegular)

include hrules in
theorem regular_applyRules {site : Site} {g : Group} (h : g.Regular) (outcome : Outcome)
    (applications : List Application) :
    (applyRules site rules g outcome applications).1.Regular := by
  induction rules generalizing g outcome applications with
  | nil => exact h
  | cons rule rules ih =>
      obtain ⟨hrule, hrest⟩ := List.forall_mem_cons.mp hrules
      rw [applyRules]
      split
      · split
        · rename_i g' result hresult
          have happly := (Option.filter_eq_some_iff.mp hresult).1
          exact ih hrest (hrule site g _ happly h) _ _
        · exact ih hrest h _ _
      · exact ih hrest h _ _

include hrules in
theorem regular_editCall (reformatBefore : Bool) (site : Site) {g : Group} (h : g.Regular) :
    (editCall rules reformatBefore site g).1.Regular ∧
      (editCall rules reformatBefore site g).2.Regular := by
  refine ⟨regular_applyRules hrules h {} [], fun e he => ?_⟩
  simp only [editCall] at he
  split at he
  · rw [List.mem_singleton.mp he]
    exact h
  · cases he

theorem regular_visitAll {visit : CallPath → Text → Group → Group × Log}
    (hvisit : ∀ path constructor inner, inner.Regular →
      (visit path constructor inner).1.Regular ∧ (visit path constructor inner).2.Regular)
    (calls : List (CallPath × Text)) {g : Group} (h : g.Regular) {log : Log} (hlog : log.Regular) :
    (visitAll visit calls g log).1.Regular ∧ (visitAll visit calls g log).2.Regular := by
  induction calls generalizing g log with
  | nil => exact ⟨h, hlog⟩
  | cons call calls ih =>
      obtain ⟨path, constructor⟩ := call
      rw [visitAll]
      split
      · rename_i inner hinner
        obtain ⟨hnew, hlog'⟩ := hvisit path constructor inner (h.at? hinner)
        exact ih (h.setAt path hnew) (hlog.append hlog')
      · exact ih h hlog

include hrules in
theorem regular_editNested (d : Detector) (reformatBefore : Bool) (n : Nat) (site : Site) {g : Group}
    (h : g.Regular) :
    (editNested d rules reformatBefore n site g).1.Regular ∧
      (editNested d rules reformatBefore n site g).2.Regular := by
  induction n generalizing site g with
  | zero => exact regular_editCall hrules reformatBefore site h
  | succ n ih =>
      obtain ⟨hcall, hlog⟩ := regular_editCall hrules reformatBefore site h
      rw [editNested]
      simp only
      split
      · exact regular_visitAll (fun path constructor inner hinner => ih _ hinner) _ hcall hlog
      · exact ⟨hcall, hlog⟩

/-! ## Statements -/

theorem regular_arguments {items : List Item} {call : FieldCall} (h : ∀ i ∈ items, i.Regular)
    (hcall : fieldCall? items = some call) : call.arguments.Regular := by
  obtain ⟨eq, callee, rfl, -⟩ := fieldCall?_eq_some.mp hcall
  exact Item.regular_group.mp (h _ (by simp))

theorem regular_setArguments {items : List Item} (h : ∀ i ∈ items, i.Regular) {g : Group}
    (hg : g.Regular) : ∀ i ∈ setArguments items g, i.Regular :=
  List.forall_mem_append.mpr ⟨fun i hi => h i ((List.dropLast_sublist items).subset hi),
    List.forall_mem_singleton.mpr (Item.regular_group.mpr hg)⟩

include hrules in
theorem regular_editStatement (d : Detector) (className : Text) (path : StatementPath)
    {s : Statement} (h : s.Regular) :
    (editStatement d rules className path s).1.Regular ∧
      (editStatement d rules className path s).2.Regular := by
  have hnone : Log.Regular {} := by simp [Log.Regular]
  cases s with
  | compound signature header newline block => exact ⟨h, hnone⟩
  | simple line =>
      rw [editStatement]
      split
      · rename_i call hcall
        have hitems := Statement.regular_simple.mp h
        have hcall := (Detector.fieldOf?_eq_some.mp hcall).1
        obtain ⟨harguments, hlog⟩ := regular_editNested hrules d line.reformat maxDepth
          ⟨className, call.target.text, call.constructor, call.target.position, path, [], 0⟩
          (regular_arguments hitems hcall)
        exact ⟨Statement.regular_simple.mpr (regular_setArguments hitems harguments), hlog⟩
      · exact ⟨h, hnone⟩

include hrules in
theorem regular_editBody (d : Detector) (className : Text) (path : StatementPath) (i : Nat)
    {ss : List Statement} (h : ∀ s ∈ ss, s.Regular) :
    (∀ s ∈ (editBody d rules className path i ss).1, s.Regular) ∧
      (editBody d rules className path i ss).2.Regular := by
  induction ss generalizing i with
  | nil => exact ⟨h, by simp [editBody, Log.Regular]⟩
  | cons s ss ih =>
      obtain ⟨hs, hss⟩ := List.forall_mem_cons.mp h
      obtain ⟨hs', hlog⟩ := regular_editStatement hrules d className (path ++ [i]) hs
      obtain ⟨hss', hlog'⟩ := ih (i + 1) hss
      rw [editBody]
      exact ⟨List.forall_mem_cons.mpr ⟨hs', hss'⟩, hlog.append hlog'⟩

/-! ## Modules -/

theorem regular_statementAt? {body : List Statement} (h : ∀ s ∈ body, s.Regular)
    {path : StatementPath} {s : Statement} (hs : statementAt? body path = some s) : s.Regular := by
  fun_induction statementAt? body path with
  | case1 body => cases hs
  | case2 body i => exact h s (List.mem_of_getElem? hs)
  | case3 body i j rest t ht block hblock ih =>
      refine ih ?_ hs
      cases t with
      | simple line => cases hblock
      | compound signature header newline block' =>
          obtain rfl : block' = block := Option.some.inj hblock
          exact (Statement.regular_compound.mp (h _ (List.mem_of_getElem? ht))).2
  | case4 body i j rest t ht hblock => cases hs
  | case5 body i j rest ht => cases hs

theorem regular_setStatement {m : Module} (h : ∀ s ∈ m.body, s.Regular) (path : StatementPath)
    {s : Statement} (hs : s.Regular) : ∀ t ∈ (m.setStatement path s).body, t.Regular := by
  have hbody (body : List Statement) (h : ∀ s ∈ body, s.Regular) :
      ∀ t ∈ editBodyAt (fun body i => body.set i s) body path, t.Regular := by
    fun_induction editBodyAt (fun body i => body.set i s) body path with
    | case1 body => exact h
    | case2 body i => exact forall_mem_set h i hs
    | case3 body i j rest t ht block hblock ih =>
        refine forall_mem_set h i ?_
        cases t with
        | simple line => cases hblock
        | compound signature header newline block' =>
            obtain rfl : block' = block := Option.some.inj hblock
            have hcompound := Statement.regular_compound.mp (h _ (List.mem_of_getElem? ht))
            exact Statement.regular_compound.mpr ⟨hcompound.1, ih hcompound.2⟩
    | case4 body i j rest t ht hblock => exact h
    | case5 body i j rest ht => exact h
  exact hbody m.body h

include hrules in
theorem regular_editClass (d : Detector) {m : Module} (h : ∀ s ∈ m.body, s.Regular)
    (c : SchemaClass) :
    (∀ s ∈ (editClass d rules m c).1.body, s.Regular) ∧ (editClass d rules m c).2.Regular := by
  rw [editClass]
  split
  · rename_i signature header newline block hs
    obtain ⟨hheader, hbody⟩ := Statement.regular_compound.mp (regular_statementAt? h hs)
    obtain ⟨hbody', hlog⟩ := regular_editBody hrules d c.signature.name c.path 0 hbody
    exact ⟨regular_setStatement h c.path (Statement.regular_compound.mpr ⟨hheader, hbody'⟩), hlog⟩
  · exact ⟨h, by simp [Log.Regular]⟩

include hrules in
theorem regular_editClasses (d : Detector) (classes : List SchemaClass) {m : Module}
    (h : ∀ s ∈ m.body, s.Regular) {log : Log} (hlog : log.Regular) :
    (∀ s ∈ (editClasses d rules classes m log).1.body, s.Regular) ∧
      (editClasses d rules classes m log).2.Regular := by
  induction classes generalizing m log with
  | nil => exact ⟨h, hlog⟩
  | cons c classes ih =>
      obtain ⟨hm', hlog'⟩ := regular_editClass hrules d h c
      exact ih hm' (hlog.append hlog')

end Pass

theorem Engine.regular_run (engine : Engine) (hrules : ∀ rule ∈ engine.rules, rule.KeepsRegular)
    {m : Module} (h : ∀ s ∈ m.body, s.Regular) (classes : List SchemaClass) :
    (∀ s ∈ (engine.run m classes).1.body, s.Regular) ∧
      ∀ e ∈ (engine.run m classes).2.1.edits, e.before.Regular := by
  have hnone : Log.Regular {} := by simp [Log.Regular]
  rw [Engine.run]
  simp only
  split
  · exact ⟨h, hnone⟩
  · exact regular_editClasses hrules engine.detector classes h hnone

/-! ## Marking -/

theorem regular_markItem {i : Item} (h : i.Regular) : (markItem i).Regular := by
  cases i with
  | token t => exact h
  | group g =>
      rw [markItem, Item.regular_group]
      split
      · exact (Item.regular_group.mp h).withSortable true
      · exact Item.regular_group.mp h

theorem regular_markArguments (destination : Text) {g : Group} (h : g.Regular) :
    (markArguments destination g).Regular := by
  unfold markArguments
  simp only
  split
  · rename_i i _
    have helements := h.modify i (f := fun e => { e with items := e.items.modify 2 markItem })
      (fun e he => ⟨by simpa using he.items_ne_nil, he.comma,
        forall_mem_modify he.items 2 fun _ => regular_markItem⟩) fun e => rfl
    exact helements.withSortable true
  · exact h.withSortable true

theorem regular_markStatement (d : Detector) (destination : Text) (reformat : Bool) {s : Statement}
    (h : s.Regular) : (markStatement d destination reformat s).Regular := by
  cases s with
  | compound signature header newline block => exact h
  | simple line =>
      rw [markStatement]
      split
      · rename_i call hcall
        have hitems := Statement.regular_simple.mp h
        have hcall := (Detector.fieldOf?_eq_some.mp hcall).1
        exact Statement.regular_simple.mpr (regular_setArguments hitems
          (regular_markArguments destination (regular_arguments hitems hcall)))
      · exact h

theorem regular_markClass (d : Detector) (destination : Text) (reformat : Bool) {m : Module}
    (h : ∀ s ∈ m.body, s.Regular) (c : SchemaClass) :
    ∀ s ∈ (markClass d destination reformat m c).body, s.Regular := by
  rw [markClass]
  split
  · rename_i signature header newline block hs
    obtain ⟨hheader, hbody⟩ := Statement.regular_compound.mp (regular_statementAt? h hs)
    refine regular_setStatement h c.path (Statement.regular_compound.mpr ⟨hheader, ?_⟩)
    exact List.forall_mem_map.mpr fun s hs => regular_markStatement d destination reformat (hbody s hs)
  · exact h

theorem regular_markFields (d : Detector) (destination : Text) (reformat : Bool) {m : Module}
    (h : ∀ s ∈ m.body, s.Regular) (classes : List SchemaClass) :
    ∀ s ∈ (markFields d destination reformat m classes).body, s.Regular := by
  induction classes generalizing m with
  | nil => exact h
  | cons c classes ih => exact ih (regular_markClass d destination reformat h c)

/-! ## Undoing -/

theorem Edit.regular_undo {e : Edit} (he : e.before.Regular) {m m' : Module}
    (h : ∀ s ∈ m.body, s.Regular) (hundo : e.undo m = .ok m') : ∀ s ∈ m'.body, s.Regular := by
  unfold Edit.undo at hundo
  split at hundo
  · cases hundo
  · rename_i line hline
    split at hundo
    · cases hundo
    · rename_i call hcall
      split at hundo
      · cases hundo
      · split at hundo
        · cases hundo
          obtain ⟨s, hs, hsimple⟩ := Option.bind_eq_some_iff.mp hline
          cases s with
          | compound signature header newline block => cases hsimple
          | simple line' =>
              obtain rfl : line' = line := Option.some.inj hsimple
              have hitems := Statement.regular_simple.mp (regular_statementAt? h hs)
              have harguments := regular_arguments hitems hcall
              exact regular_setStatement h e.path (Statement.regular_simple.mpr
                (regular_setArguments hitems (harguments.setAt e.callPath he)))
        · cases hundo

theorem regular_undoAll {es : List Edit} (hes : ∀ e ∈ es, e.before.Regular) {m : Module}
    (h : ∀ s ∈ m.body, s.Regular) : ∀ s ∈ (undoAll es m).1.body, s.Regular := by
  induction es generalizing m with
  | nil => exact h
  | cons e es ih =>
      obtain ⟨he, hes⟩ := List.forall_mem_cons.mp hes
      rw [undoAll]
      split
      · rename_i m' hm'
        exact ih hes (e.regular_undo he h hm')
      · exact h

/-! ## Sessions -/

/-- A session holds regular groups only, and its reports keep regular groups only. -/
theorem Session.regular {m : Module} {reports : List Report} (h : Session m reports) :
    (∀ s ∈ m.body, s.Regular) ∧ ∀ r ∈ reports, ∀ e ∈ r.edits, e.before.Regular := by
  induction h with
  | parsed h => exact ⟨parse_regular h, by simp⟩
  | @rewritten m reports _ config engine hengine tallies classes ih =>
      have hrules := Engine.keepsRegular_ofConfig hengine
      obtain ⟨hrun, hedits⟩ := Engine.regular_run { engine with tallies } hrules ih.1 classes
      exact ⟨hrun, List.forall_mem_append.mpr ⟨ih.2, List.forall_mem_singleton.mpr hedits⟩⟩
  | marked _ d destination reformat classes ih =>
      exact ⟨regular_markFields d destination reformat ih.1 classes, ih.2⟩
  | undone _ hr ih =>
      refine ⟨regular_undoAll (fun e he => ?_) ih.1, ih.2⟩
      exact ih.2 _ hr e (List.mem_reverse.mp he)

/-- Whatever a session does, each group at every depth has the brackets of its kind, elements that are
not empty, a comma behind each element but possibly the last, and commas that are commas. -/
theorem session_groups_regular {m : Module} {reports : List Report} (h : Session m reports) :
    ∀ g ∈ m.groups, g.IsRegular :=
  forall_groupsOfBody.mpr h.regular.1

/-- A field with a keyword that moves from each of two calls, commas that divide no elements, and a
comma at the end. -/
def commaField : Text :=
  "class A(Schema):\n x = List(Str(h=1, v=(lambda a, b: a)), [i for i in (1, 2)], h=2,)\n".toList

theorem session_groups_regular_commaField :
    ∃ m engine, parse commaField = .ok m ∧
      Engine.ofConfig (Config.migrating {} ["h".toList] "m".toList) = .ok engine ∧
      let pass := engine.run m (Detector.detect {} m)
      let marked := markFields {} "m".toList true pass.1 (Detector.detect {} m)
      (m.groups.length, pass.1.groups.length, marked.groups.length,
        (pass.2.1.undo pass.1).1.groups.length) = (6, 8, 8, 6) ∧
      (∀ g ∈ marked.groups, g.IsRegular) ∧ ∀ g ∈ (pass.2.1.undo pass.1).1.groups, g.IsRegular := by
  let config := Config.migrating {} ["h".toList] "m".toList
  have hcount : ((parse commaField).toOption.bind fun m => (Engine.ofConfig config).toOption.map
      fun engine =>
        let pass := engine.run m (Detector.detect {} m)
        let marked := markFields {} "m".toList true pass.1 (Detector.detect {} m)
        (m.groups.length, pass.1.groups.length, marked.groups.length,
          (pass.2.1.undo pass.1).1.groups.length)) = some (6, 8, 8, 6) := by
    decide +kernel
  cases hm : parse commaField with
  | error e => simp [hm, Except.toOption] at hcount
  | ok m =>
      cases hengine : Engine.ofConfig config with
      | error e => simp [hm, hengine, Except.toOption] at hcount
      | ok engine =>
          rw [hm, hengine] at hcount
          have hpass : Session (engine.run m (Detector.detect {} m)).1
              [(engine.run m (Detector.detect {} m)).2.1] :=
            .rewritten (.parsed hm) hengine engine.tallies _
          exact ⟨m, engine, rfl, rfl, Option.some.inj hcount,
            session_groups_regular (hpass.marked {} "m".toList true _),
            session_groups_regular (hpass.undone (List.mem_singleton.mpr rfl))⟩

end SchemaTidy
