import SchemaTidy.Proofs.Edit.Fixpoint

/-!
# What a pass records

A pass leaves a call as it is, or it records the call with its arguments before and after. Every edit
carries the path of its line, so the edits of a report can be sorted by lines, and those of one line
are what a single visit of the line records.
-/

namespace SchemaTidy

/-- An edit that tells what became of the arguments `g` of a call. -/
structure Edit.Records (e : Edit) (reformatBefore : Bool) (site : Site) (g g' : Group) : Prop where
  path : e.path = site.path
  callPath : e.callPath = site.callPath
  before : e.before = g
  after : e.after = g'
  reformat : e.reformatBefore = reformatBefore

/-! ## One call -/

section Call

variable (r : MigrationRule) (henabled : r.enabled = true) (hname : isKeyword r.destination = false)

include henabled hname in
theorem editCall_records (reformatBefore : Bool) (site : Site) (g : Group) :
    ((editCall [r.toRule] reformatBefore site g).2.edits = [] ∧
      (editCall [r.toRule] reformatBefore site g).1 = g) ∨
    ∃ e, (editCall [r.toRule] reformatBefore site g).2.edits = [e] ∧
      e.Records reformatBefore site g (editCall [r.toRule] reformatBefore site g).1 := by
  by_cases hsettled : r.Settled site.constructor g
  · have hsame := editCall_of_settled r henabled reformatBefore hsettled
    exact .inl ⟨hsame.2, hsame.1⟩
  · obtain ⟨dest, pre, e, post, mapping, closing, outcome, -, -, houtcome, hresult⟩ :=
      applyRules_of_not_settled r henabled hname hsettled
    have hchanged : (applyRules site [r.toRule] g {} []).2.1.changed = true := by
      rw [hresult]
      exact houtcome
    unfold editCall
    simp only [hchanged, Bool.true_and]
    by_cases hafter : (applyRules site [r.toRule] g {} []).1 = g
    · left
      simp [hafter]
    · right
      rw [if_pos (by simpa using hafter)]
      exact ⟨_, rfl, ⟨rfl, rfl, rfl, rfl, rfl⟩⟩

end Call

/-! ## The calls of one line -/

theorem editCall_edits (rules : List Rule) (reformatBefore : Bool) (site : Site) (g : Group) :
    ∀ e ∈ (editCall rules reformatBefore site g).2.edits,
      e.path = site.path ∧ e.reformatBefore = reformatBefore := by
  intro e he
  unfold editCall at he
  simp only at he
  split at he
  · rw [List.mem_singleton] at he
    subst he
    exact ⟨rfl, rfl⟩
  · cases he

theorem visitAll_edits {P : Edit → Prop} {visit : CallPath → Text → Group → Group × Log}
    (hvisit : ∀ path constructor inner, ∀ e ∈ (visit path constructor inner).2.edits, P e)
    (calls : List (CallPath × Text)) (g : Group) (log : Log) (hlog : ∀ e ∈ log.edits, P e) :
    ∀ e ∈ (visitAll visit calls g log).2.edits, P e := by
  induction calls generalizing g log with
  | nil => exact hlog
  | cons call calls ih =>
      obtain ⟨path, constructor⟩ := call
      rw [visitAll]
      split
      · rename_i inner _
        apply ih
        intro e he
        rw [Log.edits_append, List.mem_append] at he
        rcases he with he | he
        · exact hlog e he
        · exact hvisit path constructor inner e he
      · exact ih g log hlog

theorem editNested_edits (d : Detector) (rules : List Rule) (reformatBefore : Bool) (n : Nat)
    (site : Site) (g : Group) :
    ∀ e ∈ (editNested d rules reformatBefore n site g).2.edits,
      e.path = site.path ∧ e.reformatBefore = reformatBefore := by
  induction n generalizing site g with
  | zero => exact editCall_edits rules reformatBefore site g
  | succ n ih =>
      rw [editNested]
      simp only
      split
      · apply visitAll_edits
        · intro path constructor inner e he
          have hbelow := ih _ inner e he
          exact hbelow
        · exact editCall_edits rules reformatBefore site g
      · exact editCall_edits rules reformatBefore site g

/-- What a visit of a line in the body of a class records. -/
def Line.editLog (d : Detector) (rules : List Rule) (className : Text) (path : StatementPath)
    (line : Line) : Log :=
  match d.fieldOf? line with
  | some call =>
      (editNested d rules line.reformat maxDepth (call.site className path) call.arguments).2
  | none => {}

theorem Line.editLog_edits (d : Detector) (rules : List Rule) (className : Text)
    (path : StatementPath) (line : Line) :
    ∀ e ∈ (line.editLog d rules className path).edits,
      e.path = path ∧ e.reformatBefore = line.reformat := by
  intro e he
  unfold Line.editLog at he
  split at he
  · rename_i call _
    exact editNested_edits d rules line.reformat maxDepth (call.site className path) _ e he
  · cases he

theorem edits_editStatement (d : Detector) (rules : List Rule) (className : Text)
    (path : StatementPath) (s : Statement) :
    (editStatement d rules className path s).2.edits =
      s.line?.elim [] fun line => (line.editLog d rules className path).edits := by
  cases s with
  | simple line =>
      rw [Statement.line?, Option.elim_some, Line.editLog]
      cases hfield : d.fieldOf? line with
      | none => simp only [editStatement, hfield]
      | some call => simp only [editStatement, hfield, FieldCall.site]
  | compound signature header newline block => rfl

/-! ## The edits of a report, line by line -/

/-- The edits of the line at a path, in their order. -/
def editsAt (es : List Edit) (path : StatementPath) : List Edit := es.filter (·.path = path)

@[simp] theorem editsAt_nil (path : StatementPath) : editsAt [] path = [] := rfl

@[simp] theorem editsAt_append (es es' : List Edit) (path : StatementPath) :
    editsAt (es ++ es') path = editsAt es path ++ editsAt es' path :=
  List.filter_append ..

theorem editsAt_cons_self (e : Edit) (es : List Edit) :
    editsAt (e :: es) e.path = e :: editsAt es e.path :=
  List.filter_cons_of_pos (by simp)

theorem editsAt_cons_ne {e : Edit} {path : StatementPath} (h : e.path ≠ path) (es : List Edit) :
    editsAt (e :: es) path = editsAt es path :=
  List.filter_cons_of_neg (by simpa using h)

theorem editsAt_reverse (es : List Edit) (path : StatementPath) :
    editsAt es.reverse path = (editsAt es path).reverse :=
  List.filter_reverse ..

theorem editsAt_eq_self {es : List Edit} {path : StatementPath} (h : ∀ e ∈ es, e.path = path) :
    editsAt es path = es := by
  apply List.filter_eq_self.mpr
  intro e he
  simpa using h e he

theorem editsAt_eq_nil {es : List Edit} {path : StatementPath} (h : ∀ e ∈ es, e.path ≠ path) :
    editsAt es path = [] := by
  apply List.filter_eq_nil_iff.mpr
  intro e he
  simpa using h e he

theorem path_editStatement (d : Detector) (rules : List Rule) (className : Text)
    (path : StatementPath) (s : Statement) :
    ∀ e ∈ (editStatement d rules className path s).2.edits, e.path = path := by
  intro e he
  rw [edits_editStatement] at he
  cases hline : s.line? with
  | none =>
      rw [hline] at he
      cases he
  | some line =>
      rw [hline] at he
      exact (line.editLog_edits d rules className path e he).1

theorem path_editBody (d : Detector) (rules : List Rule) (className : Text) (path : StatementPath)
    (i : Nat) (ss : List Statement) :
    ∀ e ∈ (editBody d rules className path i ss).2.edits, ∃ k, i ≤ k ∧ e.path = path ++ [k] := by
  induction ss generalizing i with
  | nil =>
      intro e he
      cases he
  | cons s ss ih =>
      intro e he
      rw [editBody, Log.edits_append, List.mem_append] at he
      rcases he with he | he
      · exact ⟨i, Nat.le_refl i, path_editStatement d rules className (path ++ [i]) s e he⟩
      · obtain ⟨k, hk, hpath⟩ := ih (i + 1) e he
        exact ⟨k, by omega, hpath⟩

theorem editsAt_editBody (d : Detector) (rules : List Rule) (className : Text)
    (path : StatementPath) (i k : Nat) (ss : List Statement) :
    editsAt (editBody d rules className path i ss).2.edits (path ++ [i + k]) =
      (ss[k]?.bind Statement.line?).elim [] fun line =>
        (line.editLog d rules className (path ++ [i + k])).edits := by
  induction ss generalizing i k with
  | nil => rfl
  | cons s ss ih =>
      rw [editBody]
      simp only [Log.edits_append, editsAt_append]
      cases k with
      | zero =>
          have hrest : editsAt (editBody d rules className path (i + 1) ss).2.edits
              (path ++ [i + 0]) = [] := by
            apply editsAt_eq_nil
            intro e he hpath
            obtain ⟨k, hk, hat⟩ := path_editBody d rules className path (i + 1) ss e he
            have hindex : k = i := by simpa using hat.symm.trans hpath
            omega
          have hfirst := editsAt_eq_self (path_editStatement d rules className (path ++ [i]) s)
          rw [hrest, List.append_nil, Nat.add_zero, hfirst, edits_editStatement]
          rfl
      | succ k =>
          have hfirst : editsAt (editStatement d rules className (path ++ [i]) s).2.edits
              (path ++ [i + (k + 1)]) = [] := by
            apply editsAt_eq_nil
            intro e he hpath
            have hat := path_editStatement d rules className (path ++ [i]) s e he
            have hindex : i = i + (k + 1) := by simpa using hat.symm.trans hpath
            omega
          have hrest := ih (i + 1) k
          rw [show i + 1 + k = i + (k + 1) by omega] at hrest
          rw [hfirst, List.nil_append, hrest, List.getElem?_cons_succ]

/-- A pass over one class records what the visits of the lines in its body record. -/
theorem editsAt_editClass (d : Detector) (rules : List Rule) {m : Module} {c : SchemaClass}
    {signature : ClassSignature} {header : List Item} {newline : Token} {block : Block}
    (hs : m.statement? c.path = some (.compound (some signature) header newline block))
    (path : StatementPath) :
    editsAt (editClass d rules m c).2.edits path =
      if path.dropLast = c.path then
        (m.line? path).elim [] fun line => (line.editLog d rules c.signature.name path).edits
      else [] := by
  have hlog : (editClass d rules m c).2 =
      (editBody d rules c.signature.name c.path 0 block.body).2 := by
    simp only [editClass, hs]
  rw [hlog]
  split
  · rename_i hparent
    rcases List.eq_nil_or_concat path with rfl | ⟨init, k, rfl⟩
    · -- A class stands at a path that is not empty.
      rw [List.dropLast_nil] at hparent
      rw [← hparent] at hs
      cases hs
    · rw [List.concat_eq_append, List.dropLast_concat] at hparent
      subst hparent
      have hline : m.line? (c.path ++ [k]) = block.body[k]?.bind Statement.line? := by
        rw [Module.line?, Module.statement?, statementAt?_append m.body c.path k hs rfl]
      have hbody := editsAt_editBody d rules c.signature.name c.path 0 k block.body
      rw [Nat.zero_add] at hbody
      rw [List.concat_eq_append, hbody, hline]
  · rename_i hparent
    apply editsAt_eq_nil
    intro e he hpath
    obtain ⟨k, -, hat⟩ := path_editBody d rules c.signature.name c.path 0 block.body e he
    apply hparent
    rw [← hpath, hat, List.dropLast_concat]

/-- What the visits of a line record, one class after another. -/
def editsOf (d : Detector) (rules : List Rule) (path : StatementPath) :
    List SchemaClass → Line → List Edit
  | [], _ => []
  | c :: cs, line =>
      (if path.dropLast = c.path then (line.editLog d rules c.signature.name path).edits else []) ++
        editsOf d rules path cs (c.edit d rules path line)

/-- A pass records what the visits of lines record. -/
theorem editsAt_editClasses (d : Detector) (rules : List Rule) {classes : List SchemaClass}
    {m : Module} (hclasses : ∀ c ∈ classes, ∃ signature header newline block,
      m.statement? c.path = some (.compound (some signature) header newline block)) (log : Log)
    (path : StatementPath) :
    editsAt (editClasses d rules classes m log).2.edits path =
      editsAt log.edits path ++ (m.line? path).elim [] (editsOf d rules path classes) := by
  induction classes generalizing m log with
  | nil =>
      rw [editClasses]
      cases m.line? path <;> simp [editsOf]
  | cons c cs ih =>
      obtain ⟨signature, header, newline, block, hs⟩ := hclasses c (by simp)
      have hmodule := editClass_eq d rules hs
      have hrest := ih (m := (editClass d rules m c).1) (by
        intro c' hc'
        obtain ⟨signature', header', newline', block', hs'⟩ := hclasses c' (by simp [hc'])
        refine ⟨signature', header', newline', block'.mapLines (c.edit d rules) c'.path, ?_⟩
        rw [hmodule, Module.statement?_mapLines, hs', Option.map_some, Statement.mapLines])
        (log.append (editClass d rules m c).2)
      rw [editClasses, hrest, Log.edits_append, editsAt_append, editsAt_editClass d rules hs,
        hmodule, Module.line?_mapLines, List.append_assoc]
      cases m.line? path with
      | none => simp
      | some line =>
          rw [Option.map_some, Option.elim_some, Option.elim_some, Option.elim_some, editsOf]

section Migration

variable (r : MigrationRule) (henabled : r.enabled = true) (hname : isKeyword r.destination = false)
  (d : Detector)

include henabled in
theorem editLog_of_settled (className : Text) (path : StatementPath) {line : Line}
    (h : line.Settled r d) : (line.editLog d [r.toRule] className path).edits = [] := by
  have hnone := (editStatement_of_settled r henabled d className path h).2
  rwa [edits_editStatement] at hnone

include henabled in
theorem editsOf_of_settled (classes : List SchemaClass) (path : StatementPath) {line : Line}
    (h : line.Settled r d) : editsOf d [r.toRule] path classes line = [] := by
  induction classes with
  | nil => rfl
  | cons c cs ih =>
      have hsame : c.edit d [r.toRule] path line = line := by
        unfold SchemaClass.edit
        split
        · exact edited_of_settled r henabled d _ path h
        · rfl
      rw [editsOf, hsame, ih, editLog_of_settled r henabled d _ path h]
      split <;> rfl

include henabled hname in
/-- What a pass does to a line and what it records about it are one visit, or nothing at all for a
line that stands in no class of the pass. -/
theorem editLine_cases (classes : List SchemaClass) (path : StatementPath) (line : Line) :
    (editLine d [r.toRule] classes path line = line ∧
      editsOf d [r.toRule] path classes line = []) ∨
    ∃ c ∈ classes, path.dropLast = c.path ∧
      editLine d [r.toRule] classes path line =
        line.edited d [r.toRule] c.signature.name path ∧
      editsOf d [r.toRule] path classes line =
        (line.editLog d [r.toRule] c.signature.name path).edits := by
  induction classes with
  | nil => exact .inl ⟨rfl, rfl⟩
  | cons c cs ih =>
      by_cases hc : path.dropLast = c.path
      · right
        have hsettled := settled_edited r henabled hname d c.signature.name path line
        refine ⟨c, by simp, hc, ?_, ?_⟩
        · rw [editLine, List.foldl_cons, SchemaClass.edit, if_pos hc]
          exact editLine_of_settled r henabled d cs path hsettled
        · rw [editsOf, SchemaClass.edit, if_pos hc, if_pos hc,
            editsOf_of_settled r henabled d cs path hsettled, List.append_nil]
      · have hline : editLine d [r.toRule] (c :: cs) path line =
            editLine d [r.toRule] cs path line := by
          rw [editLine, List.foldl_cons, SchemaClass.edit, if_neg hc, ← editLine]
        have hedits : editsOf d [r.toRule] path (c :: cs) line =
            editsOf d [r.toRule] path cs line := by
          rw [editsOf, SchemaClass.edit, if_neg hc, if_neg hc, List.nil_append]
        rw [hline, hedits]
        rcases ih with hnone | ⟨c', hc', hrest⟩
        · exact .inl hnone
        · exact .inr ⟨c', List.mem_cons_of_mem c hc', hrest⟩

end Migration

end SchemaTidy
