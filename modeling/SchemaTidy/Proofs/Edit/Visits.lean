import SchemaTidy.Proofs.Edit.Fixpoint
import SchemaTidy.Proofs.Schema.Classes

/-!
# The calls that a pass comes to

A pass changes the calls of a module while it goes from one to the next. Which calls it comes to can
still be told from the module before the pass: no change adds a call, moves one in front of another or
reaches into a call that is still to come. What the log of a pass holds is what the calls in this list
add to it, one after another.
-/

namespace SchemaTidy

/-- A field constructor call that a pass comes to. -/
structure Visit where
  className : Text
  fieldName : Text
  constructor : Text
  position : Position
  arguments : Group

namespace Visit

def ofSite (site : Site) (arguments : Group) : Visit :=
  ⟨site.className, site.fieldName, site.constructor, site.position, arguments⟩

/-- A call inside the arguments of another one; it belongs to the same field. -/
def nested (v : Visit) (constructor : Text) (arguments : Group) : Visit :=
  { v with constructor, position := arguments.opening.position, arguments }

end Visit

/-- The arguments of a call in which a pass looks for further calls: not the destination, and not
those that move into it. -/
def MigrationRule.searched (r : MigrationRule) (v : Visit) : List Element :=
  v.arguments.elements.filter fun e =>
    e.keyword? != some r.destination &&
      (classify v.arguments r.destination == .foreign || !e.keyword?.any (r.selects v.constructor))

/-- A call and those nested in it, through `levels` levels of nesting. -/
def Visit.all (d : Detector) (r : MigrationRule) : Nat → Visit → List Visit
  | 0, v => [v]
  | levels + 1, v =>
      v :: if d.visitNested then
        ((r.searched v).flatMap (·.calls d)).flatMap fun x =>
          Visit.all d r levels (v.nested x.1 x.2)
      else []

def Line.visits (d : Detector) (r : MigrationRule) (className : Text) (line : Line) : List Visit :=
  match d.fieldOf? line with
  | some call =>
      Visit.all d r maxDepth
        ⟨className, call.target.text, call.constructor, call.target.position, call.arguments⟩
  | none => []

def bodyVisits (d : Detector) (r : MigrationRule) (className : Text) (ss : List Statement) :
    List Visit :=
  ss.flatMap fun s => s.line?.elim [] (Line.visits d r className)

def SchemaClass.visits (d : Detector) (r : MigrationRule) (m : Module) (c : SchemaClass) :
    List Visit :=
  match m.statement? c.path with
  | some (.compound (some _) _ _ block) => bodyVisits d r c.signature.name block.body
  | _ => []

/-- The calls that a pass over the schema classes of a module comes to, in order. -/
def Module.visits (d : Detector) (r : MigrationRule) (m : Module) : List Visit :=
  (d.detect m).flatMap (SchemaClass.visits d r m)

/-! ## Calls behind a migration -/

theorem callsInElements_eq_flatMap (d : Detector) (skip : List Text) (es : List Element) :
    callsInElements d skip es =
      (es.filter fun e => !e.keyword?.any skip.contains).flatMap (·.calls d) := by
  induction es with
  | nil => simp [callsInElements]
  | cons e es ih =>
      rw [callsInElements, ih]
      by_cases he : e.keyword?.any skip.contains = true
      · simp [he]
      · simp [he]

theorem callsInElements_append (d : Detector) (skip : List Text) (es fs : List Element) :
    callsInElements d skip (es ++ fs) = callsInElements d skip es ++ callsInElements d skip fs := by
  simp [callsInElements_eq_flatMap]

theorem callsInElements_congr (d : Detector) (skip : List Text) {es es' : List Element}
    (h : es'.map Element.items = es.map Element.items) :
    callsInElements d skip es' = callsInElements d skip es := by
  induction es generalizing es' with
  | nil =>
      rw [List.map_nil, List.map_eq_nil_iff] at h
      rw [h]
  | cons e es ih =>
      obtain ⟨e', rest', rfl, he, hrest⟩ := List.map_eq_cons_iff.mp h
      have hkeyword : e'.keyword? = e.keyword? := Element.keyword?_congr (by rw [he]) (by rw [he])
      have hcalls : e'.calls d = e.calls d := by rw [Element.calls_eq, Element.calls_eq, he]
      rw [callsInElements, callsInElements, ih hrest, hkeyword, hcalls]

theorem callsInElements_retouched (d : Detector) (skip : List Text) {es es' : List Element}
    (h : List.Forall₂ Element.Retouched es es') :
    callsInElements d skip es' = callsInElements d skip es := by
  induction h with
  | nil => rfl
  | cons hhead _ ih => rw [callsInElements, callsInElements, ih, hhead.keyword?, hhead.calls d]

theorem any_contains_singleton (name? : Option Text) (destination : Text) :
    name?.any [destination].contains = (name? == some destination) := by
  cases name? with
  | none => rfl
  | some name => by_cases h : name = destination <;> simp [h]

section Call

variable (r : MigrationRule) (henabled : r.enabled = true) (hname : isKeyword r.destination = false)
  (d : Detector)

theorem searched_of_settled {site : Site} {g : Group} (h : r.Settled site.constructor g) :
    (r.searched (.ofSite site g)).flatMap (·.calls d) = g.calls d [r.destination] := by
  rw [Group.calls_eq, callsInElements_eq_flatMap]
  congr 1
  apply List.filter_congr
  intro e he
  rw [any_contains_singleton]
  rcases h with hnone | hforeign
  · simp [Visit.ofSite, hnone e he, bne]
  · simp [Visit.ofSite, hforeign, bne]

include hname in
theorem calls_staying {site : Site} {g : Group} (dest : Destination)
    (hforeign : classify g r.destination ≠ .foreign) :
    callsInElements d [r.destination] (r.staying dest site g) =
      (r.searched (.ofSite site g)).flatMap (·.calls d) := by
  have hkept := callsInElements_retouched d [r.destination]
    (kept_partitionFrom (r.movesElement site) g.closing.trivia none false g.elements)
  have hsearched : callsInElements d [r.destination]
      (g.elements.filter (!r.movesElement site ·)) =
        (r.searched (.ofSite site g)).flatMap (·.calls d) := by
    rw [callsInElements_eq_flatMap, List.filter_filter]
    congr 1
    apply List.filter_congr
    intro e _
    have hother : (classify g r.destination == .foreign) = false := by simpa using hforeign
    rw [any_contains_singleton]
    simp [MigrationRule.movesElement, Visit.ofSite, hother, bne]
  unfold MigrationRule.staying
  simp only
  split
  · -- The new argument is the destination, into which a pass does not look.
    rw [callsInElements_append, hkept, hsearched, callsInElements, any_contains_singleton,
      (Element.retouched_mapFirst _ _).keyword?, keyword?_ofKeyword hname]
    simp [callsInElements]
  · rw [hkept, hsearched]

include henabled hname in
theorem calls_editCall_eq (reformatBefore : Bool) (site : Site) (g : Group) :
    (editCall [r.toRule] reformatBefore site g).1.calls d [r.destination] =
      (r.searched (.ofSite site g)).flatMap (·.calls d) := by
  by_cases hsettled : r.Settled site.constructor g
  · rw [(editCall_of_settled r henabled reformatBefore hsettled).1, searched_of_settled r d hsettled]
  · obtain ⟨dest, pre, e, post, mapping, closing, outcome, hstaying, hkeyword, -, hresult⟩ :=
      applyRules_of_not_settled r henabled hname hsettled
    have hitems := map_items_punctuate g.hasTrailingComma (pre ++ dest.setMapping e mapping :: post)
    have hset : callsInElements d [r.destination] (pre ++ dest.setMapping e mapping :: post) =
        callsInElements d [r.destination] (pre ++ e :: post) := by
      simp [callsInElements_append, callsInElements, Destination.keyword?_setMapping, hkeyword]
    unfold editCall
    rw [hresult, Group.calls_eq]
    show callsInElements d [r.destination] (punctuate g.hasTrailingComma _) = _
    rw [callsInElements_congr d _ hitems, hset, ← hstaying]
    exact calls_staying r hname d dest fun hforeign => hsettled (.inr hforeign)

end Call

/-! ## The log of a pass -/

/-- A part of a log, which adds up: that of two logs in a row is that of the first and then that of the
second. -/
structure LogPart (β : Type) where
  of : Log → List β
  of_empty : of {} = []
  of_append : ∀ a b, of (a.append b) = of a ++ of b
  of_fieldsVisited : ∀ log n, of { log with fieldsVisited := n } = of log

namespace LogPart

def applications : LogPart Application := ⟨Log.applications, rfl, fun _ _ => rfl, fun _ _ => rfl⟩

def warnings (kind : WarningKind) : LogPart Warning :=
  ⟨fun log => log.warnings.filter (·.kind == kind), rfl, fun _ _ => List.filter_append ..,
    fun _ _ => rfl⟩

end LogPart

section Part

variable {β : Type} (part : LogPart β) (d : Detector)

mutual

/-- Traversing a group logs what the visits of its calls log. -/
theorem part_visitCalls (skip : List Text) (f : Text → Group → List β) :
    (g : Group) → ∀ (visit : CallPath → Text → Group → Group × Log),
      (∀ path constructor inner, part.of (visit path constructor inner).2 = f constructor inner) →
      part.of (g.visitCalls d skip visit).2 = (g.calls d skip).flatMap fun x => f x.1 x.2
  | ⟨opening, elements, closing, kind, sortable⟩ => by
      intro visit h
      rw [Group.visitCalls, Group.calls]
      exact part_visitInElements skip f elements visit 0 h

theorem part_visitInElements (skip : List Text) (f : Text → Group → List β) :
    (es : List Element) → ∀ (visit : CallPath → Text → Group → Group × Log) (i : Nat),
      (∀ path constructor inner, part.of (visit path constructor inner).2 = f constructor inner) →
      part.of (visitInElements d skip visit i es).2 =
        (callsInElements d skip es).flatMap fun x => f x.1 x.2
  | [] => by
      intro visit i h
      rw [visitInElements, callsInElements]
      exact part.of_empty
  | e :: es => by
      intro visit i h
      have hes := part_visitInElements skip f es visit (i + 1) h
      rw [visitInElements, callsInElements, List.flatMap_append]
      simp only [part.of_append, hes]
      by_cases hskip : e.keyword?.any skip.contains = true
      · simp [hskip, part.of_empty]
      · simp only [hskip, Bool.false_eq_true, if_false]
        rw [part_visitInElement f e visit i h]

theorem part_visitInElement (f : Text → Group → List β) :
    (e : Element) → ∀ (visit : CallPath → Text → Group → Group × Log) (i : Nat),
      (∀ path constructor inner, part.of (visit path constructor inner).2 = f constructor inner) →
      part.of (e.visitCalls d visit i).2 = (e.calls d).flatMap fun x => f x.1 x.2
  | ⟨items, comma⟩ => by
      intro visit i h
      rw [Element.visitCalls, Element.calls]
      exact part_visitInItems f items visit i 0 [] h

theorem part_visitInItems (f : Text → Group → List β) :
    (items : List Item) → ∀ (visit : CallPath → Text → Group → Group × Log) (i j : Nat)
      (before : List Item),
      (∀ path constructor inner, part.of (visit path constructor inner).2 = f constructor inner) →
      part.of (visitInItems d visit i j before items).2 =
        (callsInItems d before items).flatMap fun x => f x.1 x.2
  | [] => by
      intro visit i j before h
      rw [visitInItems, callsInItems]
      exact part.of_empty
  | .token t :: rest => by
      intro visit i j before h
      rw [visitInItems, callsInItems]
      exact part_visitInItems f rest visit i (j + 1) (.token t :: before) h
  | .group g :: rest => by
      intro visit i j before h
      have hrest := part_visitInItems f rest visit i (j + 1) (.group g :: before) h
      rw [visitInItems, callsInItems, List.flatMap_append]
      simp only [part.of_append, hrest]
      congr 1
      cases hc : d.constructorBefore? before g with
      | some constructor => simpa using h [(i, j)] constructor g
      | none => exact part_visitCalls [] f g _ fun path => h ((i, j) :: path)

end

variable (r : MigrationRule) (henabled : r.enabled = true) (hname : isKeyword r.destination = false)
  {f : Visit → List β}
  (hcall : ∀ reformatBefore site g,
    part.of (editCall [r.toRule] reformatBefore site g).2 = f (.ofSite site g))

include henabled hname hcall in
/-- Editing a call logs what its calls log. -/
theorem part_editNested (reformatBefore : Bool) (n : Nat) (site : Site) (g : Group) :
    part.of (editNested d [r.toRule] reformatBefore n site g).2 =
      (Visit.all d r n (.ofSite site g)).flatMap f := by
  induction n generalizing site g with
  | zero =>
      rw [Visit.all, List.flatMap_singleton]
      exact hcall reformatBefore site g
  | succ n ih =>
      rw [editNested_succ, Visit.all, List.flatMap_cons, ← hcall reformatBefore site g]
      simp only
      split
      · rw [part.of_append]
        congr 1
        rw [part_visitCalls part d [r.destination] fun constructor inner =>
          (Visit.all d r n ((Visit.ofSite site g).nested constructor inner)).flatMap f]
        · simp only [calls_editCall_eq r henabled hname d, List.flatMap_assoc]
        · exact fun path constructor inner => ih _ inner
      · simp

include henabled hname hcall in
theorem part_editStatement (className : Text) (path : StatementPath) (s : Statement) :
    part.of (editStatement d [r.toRule] className path s).2 =
      (s.line?.elim [] (Line.visits d r className)).flatMap f := by
  cases s with
  | compound signature header newline block => exact part.of_empty
  | simple line =>
      rw [Statement.line?, Option.elim_some, Line.visits]
      cases hfield : d.fieldOf? line with
      | none => simpa [editStatement, hfield] using part.of_empty
      | some call =>
          simp only [editStatement, hfield, part.of_fieldsVisited]
          exact part_editNested part d r henabled hname hcall line.reformat maxDepth _ call.arguments

include henabled hname hcall in
theorem part_editBody (className : Text) (path : StatementPath) (i : Nat) (ss : List Statement) :
    part.of (editBody d [r.toRule] className path i ss).2 =
      (bodyVisits d r className ss).flatMap f := by
  induction ss generalizing i with
  | nil => exact part.of_empty
  | cons s ss ih =>
      rw [editBody, bodyVisits, List.flatMap_cons, List.flatMap_append, ← bodyVisits, ← ih (i + 1)]
      simp only [part.of_append, part_editStatement part d r henabled hname hcall]

include henabled hname hcall in
theorem part_editClass (m : Module) (c : SchemaClass) :
    part.of (editClass d [r.toRule] m c).2 = (c.visits d r m).flatMap f := by
  unfold editClass SchemaClass.visits
  cases m.statement? c.path with
  | none => exact part.of_empty
  | some s =>
      cases s with
      | simple line => exact part.of_empty
      | compound signature header newline block =>
          cases signature with
          | none => exact part.of_empty
          | some signature =>
              exact part_editBody part d r henabled hname hcall c.signature.name c.path 0 block.body

end Part

theorem bodyVisits_mapLinesFrom (d : Detector) (r : MigrationRule) (className : Text)
    {f : StatementPath → Line → Line} {path : StatementPath}
    (hf : ∀ k line, f (path ++ [k]) line = line) (i : Nat) (ss : List Statement) :
    bodyVisits d r className (mapLinesFrom f path i ss) = bodyVisits d r className ss := by
  induction ss generalizing i with
  | nil => simp [mapLinesFrom]
  | cons s ss ih =>
      have hs : (s.mapLines f (path ++ [i])).line? = s.line? := by
        cases s with
        | simple line => rw [Statement.mapLines, hf]
        | compound signature header newline block => simp [Statement.mapLines, Statement.line?]
      rw [mapLinesFrom, bodyVisits, List.flatMap_cons, hs, ← bodyVisits, ih, bodyVisits, bodyVisits,
        List.flatMap_cons]

/-- A pass over one class leaves the calls of another class as they are. -/
theorem SchemaClass.visits_mapLines (d : Detector) (r : MigrationRule) (rules : List Rule)
    {c c' : SchemaClass} (h : c'.path ≠ c.path) (m : Module) :
    c'.visits d r (m.mapLines (c.edit d rules)) = c'.visits d r m := by
  unfold SchemaClass.visits
  rw [Module.statement?_mapLines]
  cases m.statement? c'.path with
  | none => rfl
  | some s =>
      cases s with
      | simple line => simp [Statement.mapLines]
      | compound signature header newline block =>
          cases signature with
          | none => simp [Statement.mapLines]
          | some signature =>
              obtain ⟨indent, body, dedent⟩ := block
              simp only [Option.map_some, Statement.mapLines, Block.mapLines]
              apply bodyVisits_mapLinesFrom
              intro k line
              exact c.edit_outside d rules _ line (by rwa [List.dropLast_concat])

section Part

variable {β : Type} (part : LogPart β) (d : Detector) (r : MigrationRule)
  (henabled : r.enabled = true) (hname : isKeyword r.destination = false) (f : Visit → List β)
  (hcall : ∀ reformatBefore site g,
    part.of (editCall [r.toRule] reformatBefore site g).2 = f (.ofSite site g))

include henabled hname hcall in
theorem part_editClasses {classes : List SchemaClass} {m : Module}
    (hpaths : classes.Pairwise fun c c' => c'.path ≠ c.path)
    (hclasses : ∀ c ∈ classes, ∃ signature header newline block,
      m.statement? c.path = some (.compound (some signature) header newline block)) (log : Log) :
    part.of (editClasses d [r.toRule] classes m log).2 =
      part.of log ++ (classes.flatMap (SchemaClass.visits d r m)).flatMap f := by
  induction classes generalizing m log with
  | nil => simp [editClasses]
  | cons c cs ih =>
      obtain ⟨hc, hcs⟩ := List.pairwise_cons.mp hpaths
      obtain ⟨signature, header, newline, block, hs⟩ := hclasses c (by simp)
      have hmodule := editClass_eq d [r.toRule] hs
      have hvisits : cs.flatMap (SchemaClass.visits d r (editClass d [r.toRule] m c).1) =
          cs.flatMap (SchemaClass.visits d r m) := by
        rw [hmodule]
        refine List.flatMap_congr fun c' hc' => ?_
        exact SchemaClass.visits_mapLines d r [r.toRule] (hc c' hc') m
      rw [editClasses]
      simp only
      rw [ih hcs]
      · rw [part.of_append, part_editClass part d r henabled hname hcall, hvisits,
          List.flatMap_cons, List.flatMap_append, List.append_assoc]
      · intro c' hc'
        obtain ⟨signature', header', newline', block', hs'⟩ := hclasses c' (by simp [hc'])
        refine ⟨signature', header', newline', block'.mapLines (c.edit d [r.toRule]) c'.path, ?_⟩
        rw [hmodule, Module.statement?_mapLines, hs', Option.map_some, Statement.mapLines]

include henabled hname hcall in
/-- A pass over the schema classes of a parsed module logs what the calls it comes to log. -/
theorem part_pass {source : Text} {m : Module} (h : parse source = .ok m) :
    part.of (editClasses d [r.toRule] (d.detect m) m {}).2 = (m.visits d r).flatMap f := by
  have hordered : (d.detect m).Pairwise (·.path < ·.path) :=
    (pairwise_classesFrom m.body (parse_wellFormed h) [] 0).filter _
  have hpaths : (d.detect m).Pairwise fun c c' => c'.path ≠ c.path := by
    refine hordered.imp ?_
    intro c c' hlt hsame
    rw [hsame] at hlt
    exact List.lt_irrefl _ hlt
  rw [part_editClasses part d r henabled hname f hcall hpaths
    fun c hc => Module.statement?_of_mem_detect hc, part.of_empty, List.nil_append]
  rfl

end Part

end SchemaTidy
