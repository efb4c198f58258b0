import SchemaTidy.Proofs.Edit.Record
import SchemaTidy.Proofs.Print.Preserve

/-!
# Undoing a pass

Edits are recorded from the outside in, so that undoing them from the last to the first meets each
call as its edit has left it. A pass can be undone as a whole, and nothing but layout hints tells the
tree from the one before.
-/

namespace SchemaTidy

namespace Group

theorem at?_append (g : Group) (a b : CallPath) : g.at? (a ++ b) = (g.at? a).bind (·.at? b) := by
  induction a generalizing g with
  | nil => rfl
  | cons step a ih =>
      rw [List.cons_append, at?, at?]
      cases g.child? step with
      | none => rfl
      | some inner => exact ih inner

theorem setAt_append {g x : Group} {a : CallPath} (h : g.at? a = some x) (b : CallPath)
    (new : Group) : g.setAt (a ++ b) new = g.setAt a (x.setAt b new) := by
  induction a generalizing g with
  | nil =>
      rw [at?, Option.some.injEq] at h
      rw [h, List.nil_append, setAt]
  | cons step a ih =>
      rw [at?] at h
      obtain ⟨inner, hchild, hinner⟩ := Option.bind_eq_some_iff.mp h
      rw [List.cons_append, setAt, setAt]
      simp only [hchild, ih hinner]

theorem at?_setAt {g x : Group} {path : CallPath} (h : g.at? path = some x) (new : Group) :
    (g.setAt path new).at? path = some new := by
  induction path generalizing g with
  | nil => rfl
  | cons step path ih =>
      rw [at?] at h
      obtain ⟨inner, hchild, hinner⟩ := Option.bind_eq_some_iff.mp h
      rw [setAt]
      simp only [hchild]
      rw [at?, child?_setChild _ hchild, Option.bind_some]
      exact ih hinner

theorem setAt_setAt {g x : Group} {path : CallPath} (h : g.at? path = some x) (a b : Group) :
    (g.setAt path a).setAt path b = g.setAt path b := by
  induction path generalizing g with
  | nil => rfl
  | cons step path ih =>
      rw [at?] at h
      obtain ⟨inner, hchild, hinner⟩ := Option.bind_eq_some_iff.mp h
      have hset : g.setAt (step :: path) a = g.setChild step (inner.setAt path a) := by
        simp only [setAt, hchild]
      rw [hset, setAt, setAt]
      simp only [child?_setChild _ hchild, hchild, setChild_setChild _ _ hchild, ih hinner]

theorem setAt_at? {g x : Group} {path : CallPath} (h : g.at? path = some x) :
    g.setAt path x = g := by
  induction path generalizing g with
  | nil =>
      rw [at?, Option.some.injEq] at h
      rw [setAt, h]
  | cons step path ih =>
      rw [at?] at h
      obtain ⟨inner, hchild, hinner⟩ := Option.bind_eq_some_iff.mp h
      rw [setAt]
      simp only [hchild, ih hinner]
      exact setChild_child? hchild

theorem kind_setAt (g : Group) (step : Nat × Nat) (path : CallPath) (new : Group) :
    (g.setAt (step :: path) new).kind = g.kind := by
  rw [setAt]
  split <;> rfl

end Group

/-! ## In the arguments of a field -/

def Edit.undoIn (e : Edit) (root : Group) : Option Group :=
  (root.at? e.callPath).bind fun g =>
    if g = e.after then some (root.setAt e.callPath e.before) else none

/-- Undoes edits in the arguments of their field, one after another. -/
def undoAllIn : List Edit → Group → Option Group
  | [], root => some root
  | e :: es, root => (e.undoIn root).bind (undoAllIn es)

theorem undoAllIn_append (es es' : List Edit) (root : Group) :
    undoAllIn (es ++ es') root = (undoAllIn es root).bind (undoAllIn es') := by
  induction es generalizing root with
  | nil => rfl
  | cons e es ih =>
      rw [List.cons_append, undoAllIn, undoAllIn]
      cases e.undoIn root with
      | none => rfl
      | some root' => exact ih root'

theorem undoIn_of_at? {e : Edit} {root : Group} (h : root.at? e.callPath = some e.after) :
    e.undoIn root = some (root.setAt e.callPath e.before) := by
  rw [Edit.undoIn, h, Option.bind_some, if_pos rfl]

theorem undoAllIn_visitAll {base : CallPath} {visit : CallPath → Text → Group → Group × Log}
    (hvisit : ∀ path constructor inner root,
      root.at? (base ++ path) = some (visit path constructor inner).1 →
      undoAllIn (visit path constructor inner).2.edits.reverse root =
        some (root.setAt (base ++ path) inner))
    (calls : List (CallPath × Text)) (g : Group) (log : Log) (root : Group)
    (hroot : root.at? base = some (visitAll visit calls g log).1) :
    ∃ es, (visitAll visit calls g log).2.edits = log.edits ++ es ∧
      undoAllIn es.reverse root = some (root.setAt base g) := by
  induction calls generalizing g log with
  | nil =>
      refine ⟨[], by simp [visitAll], ?_⟩
      rw [visitAll] at hroot
      rw [Group.setAt_at? hroot]
      rfl
  | cons call calls ih =>
      obtain ⟨path, constructor⟩ := call
      rw [visitAll] at hroot ⊢
      cases hinner : g.at? path with
      | none =>
          simp only [hinner] at hroot ⊢
          exact ih g log hroot
      | some inner =>
          simp only [hinner] at hroot ⊢
          obtain ⟨es, hedits, hundo⟩ := ih _ _ hroot
          let visited := visit path constructor inner
          let before := root.setAt base (g.setAt path visited.1)
          have hbase : before.at? base = some (g.setAt path visited.1) := Group.at?_setAt hroot _
          have hat : before.at? (base ++ path) = some visited.1 := by
            rw [Group.at?_append, hbase, Option.bind_some, Group.at?_setAt hinner]
          have hback : before.setAt (base ++ path) inner = root.setAt base g := by
            rw [Group.setAt_append hbase, Group.setAt_setAt hinner, Group.setAt_at? hinner,
              Group.setAt_setAt hroot]
          refine ⟨visited.2.edits ++ es, ?_, ?_⟩
          · rw [hedits, Log.edits_append, List.append_assoc]
          · rw [List.reverse_append, undoAllIn_append, hundo, Option.bind_some,
              hvisit path constructor inner before hat, hback]

section Migration

variable (r : MigrationRule) (henabled : r.enabled = true) (hname : isKeyword r.destination = false)
  (d : Detector)

include henabled hname in
theorem undoAllIn_editCall (reformatBefore : Bool) (site : Site) (g root : Group)
    (hroot : root.at? site.callPath = some (editCall [r.toRule] reformatBefore site g).1) :
    undoAllIn (editCall [r.toRule] reformatBefore site g).2.edits.reverse root =
      some (root.setAt site.callPath g) := by
  rcases editCall_records r henabled hname reformatBefore site g with ⟨hnone, hsame⟩ |
    ⟨e, hedits, hrecords⟩
  · rw [hsame] at hroot
    rw [hnone, Group.setAt_at? hroot]
    rfl
  · have hat : root.at? e.callPath = some e.after := by
      rw [hrecords.callPath, hrecords.after, hroot]
    rw [hedits, List.reverse_singleton, undoAllIn, undoIn_of_at? hat, hrecords.callPath,
      hrecords.before]
    rfl

include henabled hname in
/-- The edits of a call and of the calls inside it are undone from the last to the first, wherever
the call stands. -/
theorem undoAllIn_editNested (reformatBefore : Bool) (n : Nat) (site : Site) (g root : Group)
    (hroot : root.at? site.callPath = some (editNested d [r.toRule] reformatBefore n site g).1) :
    undoAllIn (editNested d [r.toRule] reformatBefore n site g).2.edits.reverse root =
      some (root.setAt site.callPath g) := by
  induction n generalizing site g root with
  | zero => exact undoAllIn_editCall r henabled hname reformatBefore site g root hroot
  | succ n ih =>
      have hcall := undoAllIn_editCall r henabled hname reformatBefore site g
      rw [editNested] at hroot ⊢
      simp only at hroot ⊢
      split at hroot
      · rename_i hvisit
        rw [if_pos hvisit]
        -- The call itself was edited first, so its edit is undone behind those of the inner calls.
        obtain ⟨es, hedits, hundo⟩ := undoAllIn_visitAll
          (fun path constructor inner root hat => ih _ inner root hat) _ _ _ root hroot
        have hat := Group.at?_setAt hroot (editCall [r.toRule] reformatBefore site g).1
        rw [hedits, List.reverse_append, undoAllIn_append, hundo, Option.bind_some, hcall _ hat,
          Group.setAt_setAt hroot]
      · rename_i hvisit
        rw [if_neg hvisit]
        exact hcall root hroot

include henabled hname in
theorem editNested_edits_kind (reformatBefore : Bool) (n : Nat) (site : Site) (g : Group) :
    ∀ e ∈ (editNested d [r.toRule] reformatBefore n site g).2.edits,
      e.after.kind = e.before.kind := by
  have hcall (site : Site) (g : Group) : ∀ e ∈ (editCall [r.toRule] reformatBefore site g).2.edits,
      e.after.kind = e.before.kind := by
    intro e he
    rcases editCall_records r henabled hname reformatBefore site g with ⟨hnone, -⟩ |
      ⟨e', hedits, hrecords⟩
    · rw [hnone] at he
      cases he
    · rw [hedits, List.mem_singleton] at he
      rw [he, hrecords.after, hrecords.before]
      exact (editNested_brackets r henabled hname d reformatBefore 0 site g).1
  induction n generalizing site g with
  | zero => exact hcall site g
  | succ n ih =>
      rw [editNested]
      simp only
      split
      · apply visitAll_edits
        · intro path constructor inner e he
          exact ih _ inner e he
        · exact hcall site g
      · exact hcall site g

end Migration

/-! ## In a line -/

def Edit.undoLine (e : Edit) (line : Line) : Except UndoError Line :=
  match fieldCall? line.items with
  | none => .error (.noFieldCall e.fieldName)
  | some call =>
      match call.arguments.at? e.callPath with
      | none => .error (.noCall e.fieldName)
      | some arguments =>
          if arguments == e.after then
            .ok { line with
              items := setArguments line.items (call.arguments.setAt e.callPath e.before)
              reformat := if e.callPath.isEmpty then e.reformatBefore else line.reformat }
          else .error (.changed e.className e.fieldName)

/-- Undoes edits in their line, one after another. -/
def undoLines : List Edit → Line → Except UndoError Line
  | [], line => .ok line
  | e :: es, line => (e.undoLine line).bind (undoLines es)

theorem setArguments_setArguments (items : List Item) (a b : Group) :
    setArguments (setArguments items a) b = setArguments items b := by
  rw [setArguments, setArguments, setArguments, List.dropLast_concat]

theorem kind_undoIn {e : Edit} (hkind : e.after.kind = e.before.kind) {root root' : Group}
    (h : e.undoIn root = some root') : root'.kind = root.kind := by
  rw [Edit.undoIn] at h
  obtain ⟨g, hg, hroot'⟩ := Option.bind_eq_some_iff.mp h
  split at hroot'
  · rename_i hafter
    cases hroot'
    cases hpath : e.callPath with
    | nil =>
        rw [hpath, Group.at?, Option.some.injEq] at hg
        rw [Group.setAt, hg, hafter, hkind]
    | cons step path => exact Group.kind_setAt root step path e.before
  · cases hroot'

theorem undoLine_of_undoIn {e : Edit} {line : Line} {call : FieldCall} {g : Group}
    (hcall : fieldCall? line.items = some call) (h : e.undoIn call.arguments = some g) :
    e.undoLine line = .ok { line with
      items := setArguments line.items g
      reformat := if e.callPath.isEmpty then e.reformatBefore else line.reformat } := by
  rw [Edit.undoIn] at h
  obtain ⟨arguments, harguments, hg⟩ := Option.bind_eq_some_iff.mp h
  split at hg
  · rename_i hafter
    cases hg
    simp only [Edit.undoLine, hcall, harguments, beq_iff_eq, hafter, if_true]
  · cases hg

/-- Undoing edits in a line undoes them in the arguments of its field. The layout hint becomes that of
the edits if the call of the field itself is among them, and stays otherwise. -/
theorem undoLines_of_undoAllIn (es : List Edit) (line : Line) (hint : Bool) {call : FieldCall}
    {g : Group} (hkind : ∀ e ∈ es, e.after.kind = e.before.kind)
    (hhint : ∀ e ∈ es, e.reformatBefore = hint) (hcall : fieldCall? line.items = some call)
    (h : undoAllIn es call.arguments = some g) :
    undoLines es line = .ok { line with
      items := setArguments line.items g
      reformat := if es.any (·.callPath.isEmpty) then hint else line.reformat } := by
  induction es generalizing line call with
  | nil =>
      rw [undoAllIn, Option.some.injEq] at h
      rw [← h, setArguments_arguments hcall]
      rfl
  | cons e es ih =>
      rw [undoAllIn] at h
      obtain ⟨g', hg', hrest⟩ := Option.bind_eq_some_iff.mp h
      have hstep := undoLine_of_undoIn hcall hg'
      have hcall' := fieldCall?_setArguments hcall (kind_undoIn (hkind e (by simp)) hg')
      have hlines := ih
        { line with
          items := setArguments line.items g'
          reformat := if e.callPath.isEmpty then e.reformatBefore else line.reformat }
        (fun e' he' => hkind e' (by simp [he'])) (fun e' he' => hhint e' (by simp [he'])) hcall' hrest
      rw [undoLines, hstep]
      simp only [Except.bind, hlines, setArguments_setArguments, List.any_cons]
      rw [hhint e (by simp)]
      by_cases hrest : es.any (·.callPath.isEmpty) = true
      · simp [hrest]
      · simp [hrest]

/-- Whether a line keeps a mark when its edits are undone: none of them is an edit of the call of the
field itself. -/
def leavesMark (es : List Edit) : Bool := !es.isEmpty && es.all (!·.callPath.isEmpty)

theorem leavesMark_eq_false {es : List Edit} :
    leavesMark es = false ↔ es = [] ∨ ∃ e ∈ es, e.callPath = [] := by
  cases es with
  | nil => simp [leavesMark]
  | cons e es => simp [leavesMark, ← or_iff_not_imp_left]

section Migration

variable (r : MigrationRule) (henabled : r.enabled = true) (hname : isKeyword r.destination = false)
  (d : Detector)

include henabled hname in
/-- One visit of a line can be undone, up to the layout hint. -/
theorem undoLines_edited (className : Text) (path : StatementPath) (line : Line) :
    undoLines (line.editLog d [r.toRule] className path).edits.reverse
        (line.edited d [r.toRule] className path) =
      .ok { line with
        reformat := line.reformat ||
          leavesMark (line.editLog d [r.toRule] className path).edits } := by
  have hhint := line.editLog_edits d [r.toRule] className path
  unfold Line.editLog at hhint ⊢
  unfold Line.edited
  cases hfield : d.fieldOf? line with
  | none => simp [undoLines, leavesMark]
  | some call =>
      simp only [hfield] at hhint ⊢
      let pass := editNested d [r.toRule] line.reformat maxDepth (call.site className path)
        call.arguments
      have hcall := (Detector.fieldOf?_eq_some.mp hfield).1
      have hbrackets := (editNested_brackets r henabled hname d line.reformat maxDepth
        (call.site className path) call.arguments).1
      have hedited := fieldCall?_setArguments hcall hbrackets
      have hundo := undoAllIn_editNested r henabled hname d line.reformat maxDepth
        (call.site className path) call.arguments pass.1 rfl
      have hkind := editNested_edits_kind r henabled hname d line.reformat maxDepth
        (call.site className path) call.arguments
      have hlines := undoLines_of_undoAllIn pass.2.edits.reverse
        { line with
          items := setArguments line.items pass.1
          reformat := line.reformat || !pass.2.edits.isEmpty } line.reformat
        (fun e he => hkind e (List.mem_reverse.mp he))
        (fun e he => (hhint e (List.mem_reverse.mp he)).2) hedited hundo
      rw [hlines]
      have hitems : setArguments (setArguments line.items pass.1) call.arguments = line.items := by
        rw [setArguments_setArguments, setArguments_arguments hcall]
      have hmark : (if pass.2.edits.reverse.any (·.callPath.isEmpty) then line.reformat
          else line.reformat || !pass.2.edits.isEmpty) =
          (line.reformat || leavesMark pass.2.edits) := by
        rw [leavesMark, List.any_reverse, List.all_eq_not_any_not]
        simp only [Bool.not_not]
        cases pass.2.edits.any (·.callPath.isEmpty) <;> simp
      exact congrArg Except.ok (congrArg₂ (fun items reformat => Line.mk items line.newline reformat)
        hitems hmark)

end Migration

/-! ## In a module -/

theorem Edit.undo_eq (e : Edit) (m : Module) :
    e.undo m = match m.line? e.path with
      | none => .error (.noStatement e.path)
      | some line => (e.undoLine line).map fun line' => m.setStatement e.path (.simple line') := by
  unfold Edit.undo Edit.undoLine Module.line?
  cases (m.statement? e.path).bind Statement.line? with
  | none => rfl
  | some line =>
      simp only
      cases fieldCall? line.items with
      | none => rfl
      | some call =>
          simp only
          cases call.arguments.at? e.callPath with
          | none => rfl
          | some arguments =>
              simp only
              split <;> rfl

theorem Module.setLine_mapLines {m : Module} {path : StatementPath} {line : Line}
    {f : StatementPath → Line → Line} (hline : m.line? path = some line) (line' : Line) :
    (m.mapLines f).setStatement path (.simple line') =
      m.mapLines fun p l => if p = path then line' else f p l := by
  have hs : (m.mapLines f).statement? path = some (.simple (f path line)) := by
    rw [Module.statement?_mapLines, Module.line?_eq_some.mp hline, Option.map_some,
      Statement.mapLines]
  have hset := Module.setStatement_mapLines (f := fun p l => if p = path then line' else l)
    (by
      intro p l hp
      refine if_neg fun hpath => hp ?_
      exact hpath ▸ List.prefix_refl path) hs
  rw [Statement.mapLines, if_pos rfl] at hset
  rw [hset, Module.mapLines_mapLines]

theorem undoAll_mapLines {m : Module} {es : List Edit} {f g : StatementPath → Line → Line}
    (hpaths : ∀ e ∈ es, (m.line? e.path).isSome)
    (hlines : ∀ path line, m.line? path = some line →
      undoLines (editsAt es path) (f path line) = .ok (g path line)) :
    undoAll es (m.mapLines f) = (m.mapLines g, none) := by
  induction es generalizing f with
  | nil =>
      rw [undoAll]
      congr 1
      apply Module.mapLines_congr
      intro path line hline
      have hsame := hlines path line hline
      rw [editsAt_nil, undoLines, Except.ok.injEq] at hsame
      exact hsame
  | cons e es ih =>
      obtain ⟨line, hline⟩ := Option.isSome_iff_exists.mp (hpaths e (by simp))
      have hfirst := hlines e.path line hline
      rw [editsAt_cons_self, undoLines] at hfirst
      cases hstep : e.undoLine (f e.path line) with
      | error error =>
          rw [hstep] at hfirst
          cases hfirst
      | ok line' =>
          rw [hstep] at hfirst
          rw [undoAll, Edit.undo_eq, Module.line?_mapLines, hline, Option.map_some]
          simp only [hstep, Except.map, Module.setLine_mapLines hline]
          apply ih
          · intro e' he'
            exact hpaths e' (by simp [he'])
          · intro path other hother
            by_cases hpath : path = e.path
            · subst hpath
              obtain rfl : line = other := by simpa [hline] using hother
              rw [if_pos rfl]
              exact hfirst
            · have hrest := hlines path other hother
              rw [editsAt_cons_ne (Ne.symm hpath)] at hrest
              rw [if_neg hpath]
              exact hrest

section Migration

variable (r : MigrationRule) (henabled : r.enabled = true) (hname : isKeyword r.destination = false)
  (d : Detector)

include henabled hname in
/-- Undoing a pass gives back every line, up to the layout hints of lines in which only inner calls
were edited. -/
theorem undoAll_editClasses (classes : List SchemaClass) {m : Module}
    (hclasses : ∀ c ∈ classes, ∃ signature header newline block,
      m.statement? c.path = some (.compound (some signature) header newline block)) :
    let pass := editClasses d [r.toRule] classes m {}
    undoAll pass.2.edits.reverse pass.1 =
      (m.mapLines fun path line =>
        { line with reformat := line.reformat || leavesMark (editsAt pass.2.edits path) }, none) := by
  intro pass
  have hat (path : StatementPath) : editsAt pass.2.edits path =
      (m.line? path).elim [] (editsOf d [r.toRule] path classes) :=
    editsAt_editClasses d [r.toRule] hclasses {} path
  have hpass : pass.1 = m.mapLines (editLine d [r.toRule] classes) :=
    editClasses_eq d [r.toRule] hclasses {}
  rw [hpass]
  apply undoAll_mapLines
  · intro e he
    have hmem : e ∈ editsAt pass.2.edits e.path := by
      simpa [editsAt] using he
    rw [hat] at hmem
    cases hline : m.line? e.path with
    | none =>
        rw [hline] at hmem
        cases hmem
    | some line => rfl
  · intro path line hline
    have hedits : editsAt pass.2.edits path = editsOf d [r.toRule] path classes line := by
      rw [hat, hline, Option.elim_some]
    rw [editsAt_reverse, hedits]
    rcases editLine_cases r henabled hname d classes path line with ⟨hsame, hnone⟩ |
      ⟨c, -, -, hline, hedits⟩
    · rw [hsame, hnone]
      simp [undoLines, leavesMark]
    · rw [hline, hedits]
      exact undoLines_edited r henabled hname d c.signature.name path line

end Migration

theorem Engine.ofConfig_disabled {config : Config} (hvalid : config.validate = .ok ())
    (hdisabled : config.migration.enabled = false) :
    Engine.ofConfig config = .ok (.empty config.detector) := by
  simp [Engine.ofConfig, hvalid, hdisabled]

/-- The pass of an engine can be undone, up to layout hints. -/
theorem Engine.undo_run {config : Config} (hvalid : config.validate = .ok ()) (m : Module) :
    ∃ engine, Engine.ofConfig config = .ok engine ∧
      let pass := engine.run m (config.detector.detect m)
      pass.2.1.undo pass.1 =
        (m.mapLines fun path line =>
          { line with reformat := line.reformat || leavesMark (editsAt pass.2.1.edits path) },
          none) := by
  cases henabled : config.migration.enabled with
  | false =>
      refine ⟨_, Engine.ofConfig_disabled hvalid henabled, ?_⟩
      have hsame := m.mapLines_eq_self (f := fun _ line => { line with
        reformat := line.reformat || leavesMark [] }) (by simp [leavesMark])
      simpa [Engine.run, Engine.empty, Report.undo, undoAll] using hsame.symm
  | true =>
      obtain ⟨engine, hengine, hrules, hdetector⟩ := Engine.ofConfig_eq_ok hvalid henabled
      refine ⟨engine, hengine, ?_⟩
      obtain ⟨hmodule, hedits⟩ := Engine.run_eq hrules m (config.detector.detect m)
      have hundo := undoAll_editClasses config.migration henabled
        (config.isKeyword_destination hvalid) config.detector (config.detector.detect m)
        fun c hc => Module.statement?_of_mem_detect hc
      simp only [Report.undo, hmodule, hedits, hdetector]
      exact hundo

/-! ## Main statements -/

/-- Undoing restores the code. For a valid configuration, undoing the report of a pass succeeds, gives
every statement the items it had, and differs from the tree before in layout hints only, so that the
tree spells the same source. -/
theorem undo_restores_code (config : Config) (hvalid : config.validate = .ok ()) (m : Module) :
    ∃ engine, Engine.ofConfig config = .ok engine ∧
      let pass := engine.run m (config.detector.detect m)
      ∃ m', pass.2.1.undo pass.1 = (m', none) ∧
        (∀ path, (m'.statement? path).map Statement.items =
          (m.statement? path).map Statement.items) ∧
        (∃ hints : StatementPath → Line → Bool,
          m' = m.mapLines fun path line => { line with reformat := hints path line }) ∧
        m'.source = m.source ∧ ∀ source, parse source = .ok m → m'.source = source := by
  obtain ⟨engine, hengine, hundo⟩ := Engine.undo_run hvalid m
  refine ⟨engine, hengine, ?_⟩
  intro pass
  have hsource (f : StatementPath → Line → Bool) :
      (m.mapLines fun path line => { line with reformat := f path line }).source = m.source := by
    rw [Module.source, Module.source, Module.tokens_mapLines]
    intro path line
    rfl
  refine ⟨_, hundo, ?_, ⟨_, rfl⟩, hsource _, ?_⟩
  · intro path
    rw [Module.statement?_mapLines, Option.map_map]
    congr 1
    funext s
    cases s <;> rfl
  · intro source hparse
    rw [hsource, source_parse hparse]

/-- Calls that are edited at three levels and at two siblings of one field, and only inside of
another. -/
def editedFields : Text :=
  "class A(Schema):\n x = Tuple((Str(h=1), List(Int(h=2), h=3)), h=4)\n y = List(Str( h=5))\n".toList

theorem undo_restores_code_editedFields :
    ∃ m engine m', parse editedFields = .ok m ∧
      Engine.ofConfig (Config.migrating {} ["h".toList] "m".toList) = .ok engine ∧
      let pass := engine.run m (Detector.detect {} m)
      pass.2.1.edits.length = 5 ∧ pass.1.source ≠ editedFields ∧
      pass.2.1.undo pass.1 = (m', none) ∧ m'.source = editedFields := by
  let config := Config.migrating {} ["h".toList] "m".toList
  have hcount : ((parse editedFields).toOption.bind fun m => (Engine.ofConfig config).toOption.map
      fun engine =>
        let pass := engine.run m (Detector.detect {} m)
        (pass.2.1.edits.length, decide (pass.1.source = editedFields))) = some (5, false) := by
    decide +kernel
  cases hm : parse editedFields with
  | error e => simp [hm, Except.toOption] at hcount
  | ok m =>
      obtain ⟨engine, hengine, m', hundo, -, -, -, hsource⟩ :=
        undo_restores_code config (by decide +kernel) m
      rw [hm, hengine] at hcount
      have hpair := Option.some.inj hcount
      rw [Prod.mk.injEq, decide_eq_false_iff_not] at hpair
      exact ⟨m, engine, m', rfl, hengine, hpair.1, hpair.2, hundo, hsource editedFields hm⟩

theorem reformat_of_bodyIsPlain {body : List Statement} {path : StatementPath} {line : Line}
    (hbody : BodyIsPlain body) (hs : statementAt? body path = some (.simple line)) :
    line.reformat = false := by
  have hplain : ∀ ss : List Statement, BodyIsPlain ss → ∀ s ∈ ss, s.IsPlain := by
    intro ss hss s hs
    induction ss with
    | nil => cases hs
    | cons t ss ih =>
        rw [BodyIsPlain] at hss
        rcases List.mem_cons.mp hs with rfl | hs
        · exact hss.1
        · exact ih hss.2 hs
  fun_induction statementAt? body path with
  | case1 ss => cases hs
  | case2 ss i =>
      have hline := hplain ss hbody _ (List.mem_of_getElem? hs)
      rwa [Statement.IsPlain] at hline
  | case3 ss i j rest s hs' block hblock ih =>
      have hstatement := hplain ss hbody _ (List.mem_of_getElem? hs')
      cases s with
      | simple line' => cases hblock
      | compound signature header newline b =>
          cases hblock
          obtain ⟨indent, inner, dedent⟩ := block
          rw [Statement.IsPlain, Block.IsPlain] at hstatement
          exact ih hstatement hs
  | case4 ss i j rest s hs' hblock => cases hs
  | case5 ss i j rest hs' => cases hs

/-- Which layout hints undoing restores. A line has its old hint again exactly if it was not edited or
an edit of the call of the field itself was undone in it. If all edited lines are of this kind, the
tree is the one before and prints as its source in every style that preserves. -/
theorem undo_restores_hints {source : Text} {m : Module} (hparse : parse source = .ok m)
    (config : Config) (hvalid : config.validate = .ok ()) :
    ∃ engine, Engine.ofConfig config = .ok engine ∧
      let pass := engine.run m (config.detector.detect m)
      ∃ m', pass.2.1.undo pass.1 = (m', none) ∧
        (∀ path line, m.line? path = some line → ∃ line', m'.line? path = some line' ∧
          (line'.reformat = line.reformat ↔
            editsAt pass.2.1.edits path = [] ∨
              ∃ e ∈ editsAt pass.2.1.edits path, e.callPath = [])) ∧
        ((∀ path, editsAt pass.2.1.edits path = [] ∨
            ∃ e ∈ editsAt pass.2.1.edits path, e.callPath = []) →
          m' = m ∧ ∀ style : Style, style.mode = .preserve → m'.print style = source) := by
  obtain ⟨engine, hengine, hundo⟩ := Engine.undo_run hvalid m
  refine ⟨engine, hengine, ?_⟩
  intro pass
  refine ⟨_, hundo, ?_, ?_⟩
  · intro path line hline
    have hplain := reformat_of_bodyIsPlain (bodyIsPlain_parse hparse) (Module.line?_eq_some.mp hline)
    refine ⟨_, by rw [Module.line?_mapLines, hline, Option.map_some], ?_⟩
    rw [← leavesMark_eq_false, hplain, Bool.false_or]
  · intro hall
    have hsame : (m.mapLines fun path line =>
        { line with reformat := line.reformat || leavesMark (editsAt pass.2.1.edits path) }) = m := by
      apply m.mapLines_eq_self
      intro path line
      rw [leavesMark_eq_false.mpr (hall path), Bool.or_false]
    refine ⟨hsame, ?_⟩
    intro style hmode
    rw [hsame, print_preserve hmode (bodyIsPlain_parse hparse), source_parse hparse]

/-- The first field of `editedFields` is as it was, and the second one keeps its mark. -/
theorem undo_restores_hints_editedFields :
    ∃ m engine m', parse editedFields = .ok m ∧
      Engine.ofConfig (Config.migrating {} ["h".toList] "m".toList) = .ok engine ∧
      let pass := engine.run m (Detector.detect {} m)
      pass.2.1.undo pass.1 = (m', none) ∧
      (∃ line line', m.line? [0, 0] = some line ∧ m'.line? [0, 0] = some line' ∧
        line'.reformat = line.reformat) ∧
      ∃ line line', m.line? [0, 1] = some line ∧ m'.line? [0, 1] = some line' ∧
        line'.reformat ≠ line.reformat := by
  let config := Config.migrating {} ["h".toList] "m".toList
  have hcount : ((parse editedFields).toOption.bind fun m => (Engine.ofConfig config).toOption.map
      fun engine =>
        let edits := (engine.run m (Detector.detect {} m)).2.1.edits
        ((m.line? [0, 0]).isSome, (m.line? [0, 1]).isSome, leavesMark (editsAt edits [0, 0]),
          leavesMark (editsAt edits [0, 1]))) = some (true, true, false, true) := by
    decide +kernel
  cases hm : parse editedFields with
  | error e => simp [hm, Except.toOption] at hcount
  | ok m =>
      obtain ⟨engine, hengine, m', hundo, hlines, -⟩ :=
        undo_restores_hints hm config (by decide +kernel)
      rw [hm, hengine] at hcount
      have hvalues := Option.some.inj hcount
      simp only [Prod.mk.injEq] at hvalues
      obtain ⟨hfirst, hsecond, hclear, hleft⟩ := hvalues
      obtain ⟨line, hline⟩ := Option.isSome_iff_exists.mp hfirst
      obtain ⟨other, hother⟩ := Option.isSome_iff_exists.mp hsecond
      obtain ⟨line', hline', hiff⟩ := hlines [0, 0] line hline
      obtain ⟨other', hother', hiff'⟩ := hlines [0, 1] other hother
      refine ⟨m, engine, m', rfl, hengine, hundo,
        ⟨line, line', hline, hline', hiff.mpr (leavesMark_eq_false.mp hclear)⟩,
        ⟨other, other', hother, hother', fun hsame => ?_⟩⟩
      have hclear' := leavesMark_eq_false.mpr (hiff'.mp hsame)
      exact absurd (hleft.symm.trans hclear') (by simp)

end SchemaTidy
