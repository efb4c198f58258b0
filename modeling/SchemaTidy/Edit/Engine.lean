import SchemaTidy.Edit.Rule
import SchemaTidy.Schema.Detect
import SchemaTidy.Text.Ratio
import SchemaTidy.Tree.Equality

/-!
# Applying rules

An engine applies its rules to the field calls of schema classes. Every call that changes is recorded
with its arguments before and after, so that a report can be undone.
-/

namespace SchemaTidy

/-- One changed call. -/
structure Edit where
  className : Text
  fieldName : Text
  constructor : Text
  position : Position
  migrated : List Text
  destination : Option Text
  createdDestination : Bool
  /-- The statement that holds the field assignment. -/
  path : StatementPath
  /-- Steps from the call of the field to the changed call. -/
  callPath : CallPath
  before : Group
  after : Group
  /-- The layout hint of the statement before the pass. -/
  reformatBefore : Bool

/-- Everything that one pass over a module did. -/
structure Report where
  schemas : Nat := 0
  fieldsVisited : Nat := 0
  edits : List Edit := []
  warnings : List Warning := []

namespace Report

def isEmpty (r : Report) : Bool := r.edits.isEmpty && r.warnings.isEmpty

def changed (r : Report) : Bool := !r.edits.isEmpty

def migratedCount (r : Report) : Nat := r.edits.foldr (·.migrated.length + ·) 0

end Report

/-- How often a rule was applied and with what result. -/
structure Tally where
  rule : String
  applications : Nat := 0
  transformations : Nat := 0
  errors : Nat := 0
  warnings : Nat := 0
deriving DecidableEq, Repr

/-- The share of applications that changed something. -/
def Tally.successRate (t : Tally) : String := Ratio.text t.transformations t.applications

structure Application where
  rule : String
  changed : Bool
  failed : Bool
  warnings : Nat

/-- What happened during a pass, in order. -/
structure Log where
  edits : List Edit := []
  warnings : List Warning := []
  applications : List Application := []
  fieldsVisited : Nat := 0

/-- What happened in one part of a pass and then in another. -/
def Log.append (a b : Log) : Log :=
  ⟨a.edits ++ b.edits, a.warnings ++ b.warnings, a.applications ++ b.applications,
    a.fieldsVisited + b.fieldsVisited⟩

/-- Rules in the order of their application, with their tallies. -/
structure Engine where
  rules : List Rule
  tallies : List Tally
  detector : Detector

/-- The deepest nesting of calls below a field at which calls are still visited. -/
def maxDepth : Nat := 32

/-- Applies rules to one call, each to the result of the one before. A rule that fails or whose
result is not acceptable leaves the arguments as they were. -/
def applyRules (site : Site) :
    List Rule → Group → Outcome → List Application → Group × Outcome × List Application
  | [], arguments, outcome, applications => (arguments, outcome, applications)
  | rule :: rules, arguments, outcome, applications =>
      if rule.applies site then
        match (rule.apply site arguments).filter fun result => rule.accepts result.1 with
        | some (arguments', result) =>
            applyRules site rules arguments' (outcome.merge result)
              (applications ++ [⟨rule.name, result.changed, false, result.warnings.length⟩])
        | none =>
            applyRules site rules arguments outcome (applications ++ [⟨rule.name, false, true, 0⟩])
      else applyRules site rules arguments outcome applications

/-- Applies rules to one call and records an edit when its arguments are no longer the same. -/
def editCall (rules : List Rule) (reformatBefore : Bool) (site : Site) (arguments : Group) :
    Group × Log :=
  let (after, outcome, applications) := applyRules site rules arguments {} []
  let edits :=
    if outcome.changed && after != arguments then
      [{ className := site.className, fieldName := site.fieldName,
         constructor := site.constructor, position := site.position,
         migrated := outcome.migrated, destination := outcome.destination,
         createdDestination := outcome.createdDestination, path := site.path,
         callPath := site.callPath, before := arguments, after, reformatBefore : Edit }]
    else []
  (after, { edits, warnings := outcome.warnings, applications })

/-- Runs `visit` on the groups at some paths, one after another. -/
def visitAll (visit : CallPath → Text → Group → Group × Log) :
    List (CallPath × Text) → Group → Log → Group × Log
  | [], arguments, log => (arguments, log)
  | (path, constructor) :: rest, arguments, log =>
      match arguments.at? path with
      | some inner =>
          let (inner', log') := visit path constructor inner
          visitAll visit rest (arguments.setAt path inner') (log.append log')
      | none => visitAll visit rest arguments log

/-- Applies rules to a call and then to the field constructor calls inside its arguments, through
`levels` further levels of nesting. -/
def editNested (d : Detector) (rules : List Rule) (reformatBefore : Bool) :
    Nat → Site → Group → Group × Log
  | 0, site, arguments => editCall rules reformatBefore site arguments
  | levels + 1, site, arguments =>
      let (arguments, log) := editCall rules reformatBefore site arguments
      if d.visitNested then
        let calls := arguments.nestedCalls d (rules.filterMap (·.destination))
        visitAll
          (fun path constructor inner =>
            editNested d rules reformatBefore levels
              { site with
                constructor
                position := inner.opening.position
                callPath := site.callPath ++ path
                depth := site.depth + 1 }
              inner)
          calls arguments log
      else (arguments, log)

/-- Applies rules to a statement if it is a field of the class `className`. -/
def editStatement (d : Detector) (rules : List Rule) (className : Text) (path : StatementPath) :
    Statement → Statement × Log
  | .simple line =>
      match d.fieldOf? line with
      | some call =>
          let site : Site :=
            ⟨className, call.target.text, call.constructor, call.target.position, path, [], 0⟩
          let (arguments, log) := editNested d rules line.reformat maxDepth site call.arguments
          (.simple { line with
              items := setArguments line.items arguments
              reformat := line.reformat || !log.edits.isEmpty },
            { log with fieldsVisited := 1 })
      | none => (.simple line, {})
  | statement => (statement, {})

/-- Applies rules to the fields in the body of a class, the first statement of which has index `i`
in the body at `path`. -/
def editBody (d : Detector) (rules : List Rule) (className : Text) (path : StatementPath) (i : Nat) :
    List Statement → List Statement × Log
  | [] => ([], {})
  | s :: ss =>
      let (s', log) := editStatement d rules className (path ++ [i]) s
      let (ss', log') := editBody d rules className path (i + 1) ss
      (s' :: ss', log.append log')

/-- Applies rules to the fields of a schema class. -/
def editClass (d : Detector) (rules : List Rule) (m : Module) (c : SchemaClass) : Module × Log :=
  match m.statement? c.path with
  | some (.compound (some signature) header newline block) =>
      let (body, log) := editBody d rules c.signature.name c.path 0 block.body
      (m.setStatement c.path (.compound (some signature) header newline { block with body }), log)
  | _ => (m, {})

/-- Applies rules to the fields of schema classes, one class after another. -/
def editClasses (d : Detector) (rules : List Rule) :
    List SchemaClass → Module → Log → Module × Log
  | [], m, log => (m, log)
  | c :: cs, m, log =>
      let (m', log') := editClass d rules m c
      editClasses d rules cs m' (log.append log')

/-- Counts an application of the rule that a tally is about. -/
def Tally.count (t : Tally) (a : Application) : Tally :=
  if t.rule == a.rule then
    { t with
      applications := t.applications + 1
      transformations := t.transformations + if a.changed then 1 else 0
      errors := t.errors + if a.failed then 1 else 0
      warnings := t.warnings + a.warnings }
  else t

namespace Engine

def empty (detector : Detector) : Engine := ⟨[], [], detector⟩

/-- Puts a rule behind those of at least its priority. -/
def insertRule (rule : Rule) : List Rule → List Rule
  | [] => [rule]
  | r :: rs => if r.priority < rule.priority then rule :: r :: rs else r :: insertRule rule rs

/-- Installs a rule with a fresh tally. Fails with the wording of the conflict when one of the
installed rules and the new one exclude each other. -/
def addRule (e : Engine) (rule : Rule) : Except String Engine :=
  match e.rules.find? fun r => r.excludes rule.name || rule.excludes r.name with
  | some r => .error ("rule `" ++ rule.name ++ "` conflicts with `" ++ r.name ++ "`")
  | none =>
      .ok { e with
        rules := insertRule rule e.rules
        tallies := e.tallies.filter (·.rule != rule.name) ++ [{ rule := rule.name }] }

/-- Applies the rules to every field call of the given classes. -/
def run (e : Engine) (m : Module) (classes : List SchemaClass) : Module × Report × Engine :=
  let (m', log) :=
    if e.rules.isEmpty then (m, {}) else editClasses e.detector e.rules classes m {}
  (m', ⟨classes.length, log.fieldsVisited, log.edits, log.warnings⟩,
    { e with tallies := e.tallies.map fun t => log.applications.foldl Tally.count t })

end Engine

inductive UndoError where
  | noStatement (path : StatementPath)
  | noFieldCall (fieldName : Text)
  | noCall (fieldName : Text)
  | changed (className fieldName : Text)
deriving DecidableEq, Repr

def UndoError.message (e : UndoError) : String :=
  "Rewrite error: " ++
    match e with
    | noStatement path => "no statement at [" ++ ", ".intercalate (path.map toString) ++ "]"
    | noFieldCall f => String.ofList f ++ " is no longer a field call"
    | noCall f => "call path of " ++ String.ofList f ++ " no longer resolves"
    | changed c f => String.ofList c ++ "." ++ String.ofList f ++ " changed since it was rewritten"

/-- Undoes one edit, provided that the tree still holds the arguments it left. -/
def Edit.undo (e : Edit) (m : Module) : Except UndoError Module :=
  match (m.statement? e.path).bind Statement.line? with
  | none => .error (.noStatement e.path)
  | some line =>
      match fieldCall? line.items with
      | none => .error (.noFieldCall e.fieldName)
      | some call =>
          match call.arguments.at? e.callPath with
          | none => .error (.noCall e.fieldName)
          | some arguments =>
              if arguments == e.after then
                .ok (m.setStatement e.path (.simple { line with
                  items := setArguments line.items (call.arguments.setAt e.callPath e.before)
                  reformat := if e.callPath.isEmpty then e.reformatBefore else line.reformat }))
              else .error (.changed e.className e.fieldName)

/-- Undoes edits in order until one of them fails. Returns the last tree in any case. -/
def undoAll : List Edit → Module → Module × Option UndoError
  | [], m => (m, none)
  | e :: es, m =>
      match e.undo m with
      | .ok m' => undoAll es m'
      | .error error => (m, some error)

def Report.undo (r : Report) (m : Module) : Module × Option UndoError :=
  undoAll r.edits.reverse m

end SchemaTidy
