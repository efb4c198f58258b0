import SchemaTidy.Proofs.Edit.Settle
import SchemaTidy.Proofs.Tree.Lines
import SchemaTidy.Tree.Parser

/-!
# A second pass finds nothing to do

A pass over a module is a change of lines. It settles the fields of every class it is given, the
classes are found again where they were, and a pass over settled fields is no change at all.
-/

namespace SchemaTidy

theorem fieldCall?_eq_some {items : List Item} {call : FieldCall} :
    fieldCall? items = some call ↔
      ∃ eq callee, items = .token call.target :: .token eq :: (callee ++ [.group call.arguments]) ∧
        call.target.isIdentifier = true ∧ eq.isOp "=" = true ∧ call.arguments.kind = .call ∧
        dottedNames? callee = some call.callee := by
  constructor
  · intro h
    unfold fieldCall? at h
    split at h
    · rename_i target eq rest
      split at h
      · rename_i arguments hlast
        split at h
        · rename_i hparts
          obtain ⟨callee, hcallee, rfl⟩ := Option.map_eq_some_iff.mp h
          simp only [Bool.and_eq_true, beq_iff_eq] at hparts
          obtain ⟨⟨htarget, heq⟩, hkind⟩ := hparts
          have hrest : rest = rest.dropLast ++ [.group arguments] :=
            (List.dropLast_append_getLast? _ hlast).symm
          exact ⟨eq, rest.dropLast, by rw [← hrest], htarget, heq, hkind, hcallee⟩
        · cases h
      · cases h
    · cases h
  · rintro ⟨eq, callee, rfl, htarget, heq, hkind, hcallee⟩
    simp [fieldCall?, htarget, heq, hkind, hcallee]

theorem setArguments_append (target eq : Token) (callee : List Item) (g g' : Group) :
    setArguments (.token target :: .token eq :: (callee ++ [.group g])) g' =
      .token target :: .token eq :: (callee ++ [.group g']) := by
  have hsplit : Item.token target :: .token eq :: (callee ++ [.group g]) =
      (.token target :: .token eq :: callee) ++ [.group g] := rfl
  rw [hsplit, setArguments, List.dropLast_concat]
  rfl

theorem setArguments_arguments {items : List Item} {call : FieldCall}
    (h : fieldCall? items = some call) : setArguments items call.arguments = items := by
  obtain ⟨eq, callee, hitems, -⟩ := fieldCall?_eq_some.mp h
  rw [hitems, setArguments_append]

theorem fieldCall?_setArguments {items : List Item} {call : FieldCall}
    (h : fieldCall? items = some call) {g : Group} (hkind : g.kind = call.arguments.kind) :
    fieldCall? (setArguments items g) = some { call with arguments := g } := by
  obtain ⟨eq, callee, hitems, htarget, heq, hcall, hcallee⟩ := fieldCall?_eq_some.mp h
  refine fieldCall?_eq_some.mpr ⟨eq, callee, ?_, htarget, heq, hkind.trans hcall, hcallee⟩
  rw [hitems, setArguments_append]

theorem Detector.fieldOf?_eq_some {d : Detector} {line : Line} {call : FieldCall} :
    d.fieldOf? line = some call ↔
      fieldCall? line.items = some call ∧ d.isFieldConstructor call.constructor = true := by
  simp [Detector.fieldOf?, Option.filter_eq_some_iff]

def FieldCall.site (call : FieldCall) (className : Text) (path : StatementPath) : Site :=
  ⟨className, call.target.text, call.constructor, call.target.position, path, [], 0⟩

/-- The line that a pass makes of a line in the body of a class. -/
def Line.edited (d : Detector) (rules : List Rule) (className : Text) (path : StatementPath)
    (line : Line) : Line :=
  match d.fieldOf? line with
  | some call =>
      let pass := editNested d rules line.reformat maxDepth (call.site className path) call.arguments
      { line with
        items := setArguments line.items pass.1
        reformat := line.reformat || !pass.2.edits.isEmpty }
  | none => line

theorem editStatement_simple (d : Detector) (rules : List Rule) (className : Text)
    (path : StatementPath) (line : Line) :
    (editStatement d rules className path (.simple line)).1 =
      .simple (line.edited d rules className path) := by
  unfold Line.edited
  cases hfield : d.fieldOf? line with
  | none => simp only [editStatement, hfield]
  | some call => simp only [editStatement, hfield, FieldCall.site]

/-- A change of the lines directly in the body of a class. -/
def SchemaClass.edit (d : Detector) (rules : List Rule) (c : SchemaClass) (path : StatementPath)
    (line : Line) : Line :=
  if path.dropLast = c.path then line.edited d rules c.signature.name path else line

theorem SchemaClass.edit_outside (d : Detector) (rules : List Rule) (c : SchemaClass)
    (path : StatementPath) (line : Line) (h : path.dropLast ≠ c.path) :
    c.edit d rules path line = line :=
  if_neg h

theorem editBody_eq (d : Detector) (rules : List Rule) (c : SchemaClass) (i : Nat)
    (ss : List Statement) :
    (editBody d rules c.signature.name c.path i ss).1 = mapLinesFrom (c.edit d rules) c.path i ss := by
  induction ss generalizing i with
  | nil => simp [editBody, mapLinesFrom]
  | cons s ss ih =>
      have hs : (editStatement d rules c.signature.name (c.path ++ [i]) s).1 =
          s.mapLines (c.edit d rules) (c.path ++ [i]) := by
        cases s with
        | simple line =>
            rw [editStatement_simple, Statement.mapLines, SchemaClass.edit]
            simp
        | compound signature header newline block =>
            exact (Statement.mapLines_compound_eq_self (c.edit_outside d rules) i _ _ _ _).symm
      rw [editBody, mapLinesFrom]
      simp only [hs, ih]

theorem editClass_eq (d : Detector) (rules : List Rule) {m : Module} {c : SchemaClass}
    {signature : ClassSignature} {header : List Item} {newline : Token} {block : Block}
    (hs : m.statement? c.path = some (.compound (some signature) header newline block)) :
    (editClass d rules m c).1 = m.mapLines (c.edit d rules) := by
  rw [← Module.setBody_mapLines (c.edit_outside d rules) hs, ← editBody_eq]
  simp only [editClass, hs]

/-- The lines that a pass over classes, one after another, makes of a line. -/
def editLine (d : Detector) (rules : List Rule) (classes : List SchemaClass) (path : StatementPath)
    (line : Line) : Line :=
  classes.foldl (fun line c => c.edit d rules path line) line

theorem editClasses_eq (d : Detector) (rules : List Rule) {classes : List SchemaClass} {m : Module}
    (hclasses : ∀ c ∈ classes, ∃ signature header newline block,
      m.statement? c.path = some (.compound (some signature) header newline block)) (log : Log) :
    (editClasses d rules classes m log).1 = m.mapLines (editLine d rules classes) := by
  induction classes generalizing m log with
  | nil => exact (m.mapLines_eq_self fun _ _ => rfl).symm
  | cons c cs ih =>
      obtain ⟨signature, header, newline, block, hs⟩ := hclasses c (by simp)
      rw [editClasses]
      simp only [editClass_eq d rules hs]
      rw [ih, Module.mapLines_mapLines]
      · rfl
      · intro c' hc'
        obtain ⟨signature', header', newline', block', hs'⟩ := hclasses c' (by simp [hc'])
        refine ⟨signature', header', newline', block'.mapLines (c.edit d rules) c'.path, ?_⟩
        rw [Module.statement?_mapLines, hs', Option.map_some, Statement.mapLines]

section Settled

variable (r : MigrationRule) (henabled : r.enabled = true) (hname : isKeyword r.destination = false)
  (d : Detector)

/-- A line that is no field, or a field whose calls are settled as deep as a pass goes. -/
def Line.Settled (line : Line) : Prop :=
  ∀ call, d.fieldOf? line = some call →
    r.SettledTo d maxDepth call.constructor call.arguments

include henabled in
theorem editStatement_of_settled (className : Text) (path : StatementPath) {line : Line}
    (h : line.Settled r d) :
    (editStatement d [r.toRule] className path (.simple line)).1 = .simple line ∧
      (editStatement d [r.toRule] className path (.simple line)).2.edits = [] := by
  cases hfield : d.fieldOf? line with
  | none => simp only [editStatement, hfield, and_self]
  | some call =>
      obtain ⟨hsame, hedits⟩ := editNested_of_settledTo r henabled d line.reformat maxDepth
        (call.site className path) call.arguments (h call hfield)
      have hitems := setArguments_arguments (Detector.fieldOf?_eq_some.mp hfield).1
      rw [FieldCall.site] at hsame hedits
      simp only [editStatement, hfield, hsame, hedits, hitems, List.isEmpty_nil, Bool.not_true, Bool.or_false, and_self]

include henabled in
theorem edited_of_settled (className : Text) (path : StatementPath) {line : Line}
    (h : line.Settled r d) : line.edited d [r.toRule] className path = line := by
  have hsame := (editStatement_of_settled r henabled d className path h).1
  rw [editStatement_simple, Statement.simple.injEq] at hsame
  exact hsame

include henabled hname in
/-- The field that a line holds after a pass, and the field it held before. -/
theorem fieldOf?_edited {className : Text} {path : StatementPath} {line : Line} {call' : FieldCall}
    (h : d.fieldOf? (line.edited d [r.toRule] className path) = some call') :
    ∃ call, d.fieldOf? line = some call ∧
      call' = { call with
        arguments := (editNested d [r.toRule] line.reformat maxDepth (call.site className path)
          call.arguments).1 } := by
  unfold Line.edited at h
  cases hfield : d.fieldOf? line with
  | none =>
      simp only [hfield] at h
      exact absurd h (by simp)
  | some call =>
      refine ⟨call, rfl, ?_⟩
      simp only [hfield] at h
      have hkind := (editNested_brackets r henabled hname d line.reformat maxDepth
        (call.site className path) call.arguments).1
      have hcall := fieldCall?_setArguments (Detector.fieldOf?_eq_some.mp hfield).1 hkind
      have hcall' := (Detector.fieldOf?_eq_some.mp h).1
      simpa using hcall'.symm.trans hcall

include henabled hname in
/-- One pass settles a line. -/
theorem settled_edited (className : Text) (path : StatementPath) (line : Line) :
    (line.edited d [r.toRule] className path).Settled r d := by
  intro call' hfield
  obtain ⟨call, -, rfl⟩ := fieldOf?_edited r henabled hname d hfield
  intro k hk hnested x hx
  rcases editNested_settles r henabled hname d line.reformat maxDepth (call.site className path)
    call.arguments k hk hnested x hx with hnone | ⟨hforeign, -⟩
  · exact .inl hnone
  · exact .inr hforeign

include henabled in
theorem editLine_of_settled (classes : List SchemaClass) (path : StatementPath) {line : Line}
    (h : line.Settled r d) : editLine d [r.toRule] classes path line = line := by
  induction classes with
  | nil => rfl
  | cons c cs ih =>
      have hsame : c.edit d [r.toRule] path line = line := by
        unfold SchemaClass.edit
        split
        · exact edited_of_settled r henabled d _ path h
        · rfl
      rw [editLine, List.foldl_cons, hsame]
      exact ih

include henabled hname in
/-- A line in the body of some class is edited once: a further edit finds it settled. -/
theorem editLine_eq_edited {classes : List SchemaClass} {path : StatementPath}
    (h : ∃ c ∈ classes, path.dropLast = c.path) (line : Line) :
    ∃ className, editLine d [r.toRule] classes path line =
      line.edited d [r.toRule] className path := by
  induction classes with
  | nil => simp at h
  | cons c cs ih =>
      by_cases hc : path.dropLast = c.path
      · refine ⟨c.signature.name, ?_⟩
        rw [editLine, List.foldl_cons, SchemaClass.edit, if_pos hc]
        exact editLine_of_settled r henabled d cs path (settled_edited r henabled hname d _ path line)
      · obtain ⟨c', hc', hpath⟩ := h
        have hmem : c' ∈ cs := by
          rcases List.mem_cons.mp hc' with rfl | hmem
          · exact absurd hpath hc
          · exact hmem
        rw [editLine, List.foldl_cons, SchemaClass.edit, if_neg hc]
        exact ih ⟨c', hmem, hpath⟩

include henabled in
theorem editBody_of_settled (className : Text) (path : StatementPath) (i : Nat)
    {ss : List Statement} (h : ∀ line, .simple line ∈ ss → line.Settled r d) :
    (editBody d [r.toRule] className path i ss).1 = ss ∧
      (editBody d [r.toRule] className path i ss).2.edits = [] := by
  induction ss generalizing i with
  | nil => exact ⟨rfl, rfl⟩
  | cons s ss ih =>
      have hs : (editStatement d [r.toRule] className (path ++ [i]) s).1 = s ∧
          (editStatement d [r.toRule] className (path ++ [i]) s).2.edits = [] := by
        cases s with
        | simple line => exact editStatement_of_settled r henabled d _ _ (h line (by simp))
        | compound signature header newline block => exact ⟨rfl, rfl⟩
      have hss := ih (i + 1) fun line hline => h line (by simp [hline])
      rw [editBody]
      simp only [Log.edits_append, hs, hss, List.append_nil, and_self]

def Module.Settled (m : Module) (classes : List SchemaClass) : Prop :=
  ∀ c ∈ classes, ∀ i line, m.statement? (c.path ++ [i]) = some (.simple line) → line.Settled r d

include henabled in
theorem editClass_of_settled {m : Module} {c : SchemaClass}
    (h : ∀ i line, m.statement? (c.path ++ [i]) = some (.simple line) → line.Settled r d) :
    (editClass d [r.toRule] m c).1 = m ∧ (editClass d [r.toRule] m c).2.edits = [] := by
  unfold editClass
  split
  · rename_i signature header newline block hs
    have hlines : ∀ line, .simple line ∈ block.body → line.Settled r d := by
      intro line hline
      obtain ⟨i, hi⟩ := List.getElem?_of_mem hline
      refine h i line ?_
      rw [Module.statement?, statementAt?_append m.body c.path i hs rfl, hi]
    obtain ⟨hbody, hedits⟩ := editBody_of_settled r henabled d c.signature.name c.path 0 hlines
    refine ⟨?_, hedits⟩
    simp only [hbody, Block.eta]
    exact m.setStatement_self hs
  · exact ⟨rfl, rfl⟩

include henabled hname in
theorem settled_editClasses {classes : List SchemaClass} {m : Module}
    (hclasses : ∀ c ∈ classes, ∃ signature header newline block,
      m.statement? c.path = some (.compound (some signature) header newline block)) (log : Log) :
    (editClasses d [r.toRule] classes m log).1.Settled r d classes := by
  intro c hc i line' hline'
  rw [editClasses_eq d _ hclasses, Module.statement?_mapLines] at hline'
  obtain ⟨s, -, hs⟩ := Option.map_eq_some_iff.mp hline'
  cases s with
  | simple line =>
      obtain ⟨className, hedited⟩ :=
        editLine_eq_edited r henabled hname d ⟨c, hc, List.dropLast_concat⟩ line
      rw [Statement.mapLines, Statement.simple.injEq, hedited] at hs
      rw [← hs]
      exact settled_edited r henabled hname d className _ line
  | compound signature header newline block => simp [Statement.mapLines] at hs

include henabled in
/-- A pass over settled fields changes nothing and records no edit. -/
theorem editClasses_of_settled {classes : List SchemaClass} {m : Module}
    (h : m.Settled r d classes) (log : Log) :
    (editClasses d [r.toRule] classes m log).1 = m ∧
      (editClasses d [r.toRule] classes m log).2.edits = log.edits := by
  induction classes generalizing log with
  | nil => exact ⟨rfl, rfl⟩
  | cons c cs ih =>
      obtain ⟨hsame, hnone⟩ := editClass_of_settled r henabled d (h c (by simp))
      obtain ⟨hmodule, hedits⟩ := ih (fun c' hc' => h c' (by simp [hc']))
        (log.append (editClass d [r.toRule] m c).2)
      rw [editClasses]
      simp only [hsame]
      exact ⟨hmodule, by rw [hedits, Log.edits_append, hnone, List.append_nil]⟩

end Settled

theorem Config.isIdentifierName_destination {config : Config} (h : config.validate = .ok ()) :
    isIdentifierName config.migration.destination = true := by
  unfold Config.validate at h
  split at h
  · cases h
  split at h
  · cases h
  split at h
  · cases h
  · rename_i hname
    simpa using hname

theorem Config.isKeyword_destination {config : Config} (h : config.validate = .ok ()) :
    isKeyword config.migration.destination = false := by
  have hname := config.isIdentifierName_destination h
  cases hdestination : config.migration.destination with
  | nil => rfl
  | cons c cs =>
      rw [hdestination, isIdentifierName] at hname
      simp only [Bool.and_eq_true, Bool.not_eq_true'] at hname
      exact hname.2

theorem Engine.ofConfig_eq_ok {config : Config} (hvalid : config.validate = .ok ())
    (henabled : config.migration.enabled = true) :
    ∃ engine, Engine.ofConfig config = .ok engine ∧
      engine.rules = [config.migration.toRule] ∧ engine.detector = config.detector := by
  simp only [Engine.ofConfig, hvalid, henabled, if_true]
  exact ⟨_, rfl, rfl, rfl⟩

theorem Engine.run_eq {engine : Engine} {rule : Rule} (hrules : engine.rules = [rule]) (m : Module)
    (classes : List SchemaClass) :
    (engine.run m classes).1 = (editClasses engine.detector [rule] classes m {}).1 ∧
      (engine.run m classes).2.1.edits =
        (editClasses engine.detector [rule] classes m {}).2.edits := by
  simp [Engine.run, hrules]

def Detector.fieldCallAt? (d : Detector) (m : Module) (path : StatementPath) : Option FieldCall :=
  ((m.statement? path).bind Statement.line?).bind d.fieldOf?

theorem Detector.fieldCallAt?_eq_some {d : Detector} {m : Module} {path : StatementPath}
    {call : FieldCall} :
    d.fieldCallAt? m path = some call ↔
      ∃ line, m.statement? path = some (.simple line) ∧ d.fieldOf? line = some call := by
  constructor
  · intro h
    obtain ⟨line, hline, hcall⟩ := Option.bind_eq_some_iff.mp h
    obtain ⟨s, hs, hsline⟩ := Option.bind_eq_some_iff.mp hline
    cases s with
    | simple line' =>
        obtain rfl : line' = line := by simpa [Statement.line?] using hsline
        exact ⟨line', hs, hcall⟩
    | compound signature header newline block => simp [Statement.line?] at hsline
  · rintro ⟨line, hs, hcall⟩
    simp [Detector.fieldCallAt?, hs, Statement.line?, hcall]

theorem Module.statement?_of_mem_detect {d : Detector} {m : Module} {c : SchemaClass}
    (hc : c ∈ d.detect m) : ∃ signature header newline block,
      m.statement? c.path = some (.compound (some signature) header newline block) := by
  obtain ⟨header, newline, block, hs⟩ :=
    Module.statement?_of_mem_classes (List.mem_of_mem_filter hc)
  exact ⟨c.signature, header, newline, block, hs⟩

/-- Migration is complete, and a second pass is none. For a valid configuration with migration
enabled, the fields of schema classes and the field constructor calls nested in them, down to the
depth of a pass and outside of destinations, have no selected keyword left, or a foreign destination
and the keywords of the same call before. A second pass over the classes it finds records no edit and
leaves the module as it is. -/
theorem migration_complete_idempotent (config : Config) (hvalid : config.validate = .ok ())
    (henabled : config.migration.enabled = true) (m : Module) :
    ∃ engine, Engine.ofConfig config = .ok engine ∧
      let d := config.detector
      let r := config.migration
      let pass := engine.run m (d.detect m)
      (∀ c ∈ d.detect pass.1, ∀ i call', d.fieldCallAt? pass.1 (c.path ++ [i]) = some call' →
        ∃ call, d.fieldCallAt? m (c.path ++ [i]) = some call ∧
          call.target = call'.target ∧ call.callee = call'.callee ∧
          ∀ k ≤ maxDepth, (0 < k → d.visitNested = true) →
            ∀ x ∈ callsAt d r.destination k call'.constructor call'.arguments,
              r.SelectsNone x.1 x.2 ∨
                (classify x.2 r.destination = .foreign ∧
                  ∃ inner, (x.1, inner) ∈ callsAt d r.destination k call.constructor call.arguments ∧
                    inner.opening = x.2.opening ∧ inner.keywords = x.2.keywords)) ∧
      (pass.2.2.run pass.1 (d.detect pass.1)).2.1.edits = [] ∧
      (pass.2.2.run pass.1 (d.detect pass.1)).1 = pass.1 := by
  obtain ⟨engine, hengine, hrules, hdetector⟩ := Engine.ofConfig_eq_ok hvalid henabled
  refine ⟨engine, hengine, ?_⟩
  intro d r pass
  have hname : isKeyword r.destination = false := config.isKeyword_destination hvalid
  have hclasses : ∀ c ∈ d.detect m, ∃ signature header newline block,
      m.statement? c.path = some (.compound (some signature) header newline block) :=
    fun c hc => Module.statement?_of_mem_detect hc
  have hpass : pass.1 = (editClasses d [r.toRule] (d.detect m) m {}).1 := by
    rw [(Engine.run_eq hrules m (d.detect m)).1, hdetector]
  have hmap := hpass.trans (editClasses_eq d [r.toRule] hclasses {})
  have hdetect : d.detect pass.1 = d.detect m := by rw [hmap, detect_mapLines]
  refine ⟨?_, ?_⟩
  · intro c hc i call' hcall'
    obtain ⟨line', hline', hfield'⟩ := Detector.fieldCallAt?_eq_some.mp hcall'
    rw [hmap, Module.statement?_mapLines] at hline'
    obtain ⟨s, hs, hmapped⟩ := Option.map_eq_some_iff.mp hline'
    cases s with
    | compound signature header newline block => simp [Statement.mapLines] at hmapped
    | simple line =>
        obtain ⟨className, hedited⟩ := editLine_eq_edited r henabled hname d
          ⟨c, hdetect ▸ hc, List.dropLast_concat⟩ line
        rw [Statement.mapLines, Statement.simple.injEq, hedited] at hmapped
        rw [← hmapped] at hfield'
        obtain ⟨call, hfield, rfl⟩ := fieldOf?_edited r henabled hname d hfield'
        refine ⟨call, Detector.fieldCallAt?_eq_some.mpr ⟨line, hs, hfield⟩, rfl, rfl, ?_⟩
        exact editNested_settles r henabled hname d line.reformat maxDepth
          (call.site className (c.path ++ [i])) call.arguments
  · have hsettled : pass.1.Settled r d (d.detect pass.1) := by
      rw [hdetect, hpass]
      exact settled_editClasses r henabled hname d hclasses {}
    obtain ⟨hsame, hedits⟩ := editClasses_of_settled r henabled d hsettled {}
    have hrules' : pass.2.2.rules = [r.toRule] := hrules
    have hdetector' : pass.2.2.detector = d := hdetector
    obtain ⟨hmodule, hreport⟩ := Engine.run_eq hrules' pass.1 (d.detect pass.1)
    rw [hdetector'] at hmodule hreport
    exact ⟨hreport.trans hedits, hmodule.trans hsame⟩

/-- A field inside another one, and a destination that is a variable. -/
def nestedFields : Text :=
  ("class A(Schema):\n    x = fields.List(fields.Str(hint=1), hint=2)\n" ++
    "    y = Str(metadata=m, hint=3)\n").toList

theorem migration_complete_idempotent_nestedFields :
    ∃ m engine, parse nestedFields = .ok m ∧
      Engine.ofConfig (Config.migrating {} ["hint".toList] "metadata".toList) = .ok engine ∧
      let pass := engine.run m (Detector.detect {} m)
      pass.2.1.edits.length = 2 ∧
      (pass.2.2.run pass.1 (Detector.detect {} pass.1)).2.1.edits = [] ∧
      (pass.2.2.run pass.1 (Detector.detect {} pass.1)).1 = pass.1 := by
  let config := Config.migrating {} ["hint".toList] "metadata".toList
  have hcount : ((parse nestedFields).toOption.bind fun m => (Engine.ofConfig config).toOption.map
      fun engine => (engine.run m (Detector.detect {} m)).2.1.edits.length) = some 2 := by
    decide +kernel
  cases hm : parse nestedFields with
  | error e => simp [hm, Except.toOption] at hcount
  | ok m =>
      obtain ⟨engine, hengine, -, hsecond⟩ :=
        migration_complete_idempotent config (by decide +kernel) rfl m
      rw [hm, hengine] at hcount
      exact ⟨m, engine, rfl, hengine, Option.some.inj hcount, hsecond⟩

end SchemaTidy
