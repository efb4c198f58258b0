import SchemaTidy.Pipeline
import SchemaTidy.Proofs.Edit.Undo

/-!
# What a run leaves alone

In preserve mode the output of a run is the source with other texts for some of its lines. Editing,
marking and printing each choose lines on their own: all three stay within the fields of schema
classes, and without reformatting within the fields that were edited.
-/

namespace SchemaTidy

/-! ## A source with other texts for its lines -/

mutual

/-- The text of a statement at `path`, with `text` for its lines. -/
def Statement.sourceBy (text : StatementPath → Line → Text) (path : StatementPath) :
    Statement → Text
  | .simple line => text path line
  | .compound _ header newline block =>
      spell (tokensOfItems header) ++ newline.source ++ block.sourceBy text path

/-- The text of the block of the statement at `path`, with `text` for its lines. -/
def Block.sourceBy (text : StatementPath → Line → Text) (path : StatementPath) : Block → Text
  | ⟨indent, body, dedent⟩ => indent.source ++ sourceFrom text path 0 body ++ dedent.source

/-- The text of statements, the first of which has index `i` in the body at `path`, with `text` for
their lines. -/
def sourceFrom (text : StatementPath → Line → Text) (path : StatementPath) (i : Nat) :
    List Statement → Text
  | [] => []
  | s :: ss => s.sourceBy text (path ++ [i]) ++ sourceFrom text path (i + 1) ss

end

/-- The text of a module, with `text` for its lines. All other statements, block markers and the end
marker are as in the source. -/
def Module.sourceBy (text : StatementPath → Line → Text) (m : Module) : Text :=
  sourceFrom text [] 0 m.body ++ m.endMarker.source

mutual

theorem Statement.sourceBy_mapLines (text : StatementPath → Line → Text)
    (f : StatementPath → Line → Line) :
    (s : Statement) → ∀ path,
      (s.mapLines f path).sourceBy text path = s.sourceBy (fun p line => text p (f p line)) path
  | .simple line => by
      intro path
      rw [Statement.mapLines, Statement.sourceBy, Statement.sourceBy]
  | .compound signature header newline block => by
      intro path
      rw [Statement.mapLines, Statement.sourceBy, Statement.sourceBy,
        block.sourceBy_mapLines text f path]

theorem Block.sourceBy_mapLines (text : StatementPath → Line → Text)
    (f : StatementPath → Line → Line) :
    (b : Block) → ∀ path,
      (b.mapLines f path).sourceBy text path = b.sourceBy (fun p line => text p (f p line)) path
  | ⟨indent, body, dedent⟩ => by
      intro path
      rw [Block.mapLines, Block.sourceBy, Block.sourceBy, sourceFrom_mapLinesFrom text f body path 0]

theorem sourceFrom_mapLinesFrom (text : StatementPath → Line → Text)
    (f : StatementPath → Line → Line) :
    (ss : List Statement) → ∀ path i,
      sourceFrom text path i (mapLinesFrom f path i ss) =
        sourceFrom (fun p line => text p (f p line)) path i ss
  | [] => by
      intro path i
      rw [mapLinesFrom, sourceFrom, sourceFrom]
  | s :: ss => by
      intro path i
      rw [mapLinesFrom, sourceFrom, sourceFrom, s.sourceBy_mapLines text f,
        sourceFrom_mapLinesFrom text f ss]

end

theorem Module.sourceBy_mapLines (text : StatementPath → Line → Text)
    (f : StatementPath → Line → Line) (m : Module) :
    (m.mapLines f).sourceBy text = m.sourceBy fun p line => text p (f p line) := by
  rw [Module.mapLines, Module.sourceBy, Module.sourceBy, sourceFrom_mapLinesFrom]

theorem Module.sourceBy_congr {text text' : StatementPath → Line → Text} {m : Module}
    (h : ∀ path line, m.line? path = some line → text path line = text' path line) :
    m.sourceBy text = m.sourceBy text' := by
  -- A line can carry any text as its line end, so a choice of texts is a map of lines.
  let carry (text : StatementPath → Line → Text) (path : StatementPath) (line : Line) : Line :=
    { line with newline := { line.newline with text := text path line } }
  have hcarry (text : StatementPath → Line → Text) :
      m.sourceBy text = (m.mapLines (carry text)).sourceBy fun _ line => line.newline.text := by
    rw [Module.sourceBy_mapLines]
  rw [hcarry text, hcarry text', Module.mapLines_congr]
  intro path line hline
  simp only [carry, h path line hline]

def Line.printPreserved (style : Style) (lineBreak : Text) (line : Line) : Text :=
  if line.reformat then line.reprint style lineBreak else spell line.tokens

mutual

theorem Statement.printPreserved_eq_sourceBy (style : Style) (lineBreak : Text) :
    (s : Statement) → ∀ path, s.printPreserved style lineBreak =
      s.sourceBy (fun _ line => line.printPreserved style lineBreak) path
  | .simple line => by
      intro path
      rw [Statement.printPreserved, Statement.sourceBy, Line.printPreserved]
  | .compound signature header newline block => by
      intro path
      rw [Statement.printPreserved, Statement.sourceBy,
        block.printPreserved_eq_sourceBy style lineBreak path]

theorem Block.printPreserved_eq_sourceBy (style : Style) (lineBreak : Text) :
    (b : Block) → ∀ path, b.printPreserved style lineBreak =
      b.sourceBy (fun _ line => line.printPreserved style lineBreak) path
  | ⟨indent, body, dedent⟩ => by
      intro path
      rw [Block.printPreserved, Block.sourceBy,
        printPreservedBody_eq_sourceFrom style lineBreak body path 0]

theorem printPreservedBody_eq_sourceFrom (style : Style) (lineBreak : Text) :
    (ss : List Statement) → ∀ path i, printPreservedBody style lineBreak ss =
      sourceFrom (fun _ line => line.printPreserved style lineBreak) path i ss
  | [] => by
      intro path i
      rw [printPreservedBody, sourceFrom]
  | s :: ss => by
      intro path i
      rw [printPreservedBody, sourceFrom,
        s.printPreserved_eq_sourceBy style lineBreak (path ++ [i]),
        printPreservedBody_eq_sourceFrom style lineBreak ss path (i + 1)]

end

/-- Preserve mode chooses a text for each line. -/
theorem print_eq_sourceBy {style : Style} (hmode : style.mode = .preserve) (m : Module) :
    m.print style = m.sourceBy fun _ line => line.printPreserved style m.lineBreak := by
  simp only [Module.print, hmode, Module.sourceBy,
    printPreservedBody_eq_sourceFrom style m.lineBreak m.body [] 0]

theorem Line.printPreserved_of_reformat {line : Line} (h : line.reformat = false) (style : Style)
    (lineBreak : Text) : line.printPreserved style lineBreak = spell line.tokens := by
  simp [Line.printPreserved, h]

theorem Module.reformat_parse {source : Text} {m : Module} (hparse : parse source = .ok m)
    {path : StatementPath} {line : Line} (hline : m.line? path = some line) :
    line.reformat = false :=
  reformat_of_bodyIsPlain (bodyIsPlain_parse hparse) (Module.line?_eq_some.mp hline)

theorem sourceBy_parse {source : Text} {m : Module} (hparse : parse source = .ok m) :
    (m.sourceBy fun _ line => spell line.tokens) = source := by
  let style : Style := { mode := .preserve }
  have hprint : m.print style = m.source := print_preserve rfl (bodyIsPlain_parse hparse)
  rw [source_parse hparse, print_eq_sourceBy rfl] at hprint
  rw [← hprint]
  apply Module.sourceBy_congr
  intro path line hline
  rw [Line.printPreserved_of_reformat (Module.reformat_parse hparse hline)]

/-! ## Marking -/

def Detector.IsFieldIn (d : Detector) (classes : List SchemaClass) (path : StatementPath)
    (line : Line) : Prop :=
  ∃ c ∈ classes, path.dropLast = c.path ∧ (d.fieldOf? line).isSome

theorem tokensOfItems_modify {f : Item → Item} (h : ∀ item, (f item).tokens = item.tokens)
    (items : List Item) (n : Nat) : tokensOfItems (items.modify n f) = tokensOfItems items := by
  induction items generalizing n with
  | nil => simp
  | cons item items ih =>
      cases n with
      | zero => simp [tokensOfItems, h]
      | succ n => simp [tokensOfItems, ih]

theorem tokensOfElements_modify {f : Element → Element} (h : ∀ e, (f e).tokens = e.tokens)
    (es : List Element) (n : Nat) : tokensOfElements (es.modify n f) = tokensOfElements es := by
  induction es generalizing n with
  | nil => simp
  | cons e es ih =>
      cases n with
      | zero => simp [tokensOfElements, h]
      | succ n => simp [tokensOfElements, ih]

theorem tokens_markItem (item : Item) : (markItem item).tokens = item.tokens := by
  cases item with
  | token t => rfl
  | group g =>
      obtain ⟨opening, elements, closing, kind, sortable⟩ := g
      rw [markItem]
      split
      · simp only [Item.tokens, Group.tokens]
      · rfl

theorem tokens_markArguments (destination : Text) (arguments : Group) :
    (markArguments destination arguments).tokens = arguments.tokens := by
  have helement (e : Element) :
      Element.tokens { e with items := e.items.modify 2 markItem } = e.tokens := by
    rw [Element.tokens, tokensOfItems_modify tokens_markItem, ← Element.tokens, Element.eta]
  obtain ⟨opening, elements, closing, kind, sortable⟩ := arguments
  rw [markArguments]
  split
  · simp only [Group.tokens, tokensOfElements_modify helement]
  · simp only [Group.tokens]

/-- The line that marking makes of a line in the body of a class. -/
def Line.marked (d : Detector) (destination : Text) (reformat : Bool) (line : Line) : Line :=
  match d.fieldOf? line with
  | some call =>
      { line with
        items := setArguments line.items (markArguments destination call.arguments)
        reformat := line.reformat || reformat }
  | none => line

theorem markStatement_simple (d : Detector) (destination : Text) (reformat : Bool) (line : Line) :
    markStatement d destination reformat (.simple line) =
      .simple (line.marked d destination reformat) := by
  unfold Line.marked
  cases hfield : d.fieldOf? line with
  | none => simp only [markStatement, hfield]
  | some call => simp only [markStatement, hfield]

theorem Line.tokens_marked (d : Detector) (destination : Text) (reformat : Bool) (line : Line) :
    (line.marked d destination reformat).tokens = line.tokens := by
  unfold Line.marked
  split
  · rename_i call hfield
    have hitems := setArguments_arguments (Detector.fieldOf?_eq_some.mp hfield).1
    have hmarked : tokensOfItems (setArguments line.items
        (markArguments destination call.arguments)) = tokensOfItems line.items := by
      conv => rhs; rw [← hitems]
      simp only [setArguments, tokensOfItems_append, tokensOfItems, Item.tokens,
        tokens_markArguments]
    rw [Line.tokens, hmarked, Line.tokens]
  · rfl

theorem Line.reformat_marked (d : Detector) (destination : Text) (line : Line) :
    (line.marked d destination false).reformat = line.reformat := by
  unfold Line.marked
  split <;> simp

/-- A mark of the lines directly in the body of a class. -/
def SchemaClass.mark (d : Detector) (destination : Text) (reformat : Bool) (c : SchemaClass)
    (path : StatementPath) (line : Line) : Line :=
  if path.dropLast = c.path then line.marked d destination reformat else line

theorem SchemaClass.mark_outside (d : Detector) (destination : Text) (reformat : Bool)
    (c : SchemaClass) (path : StatementPath) (line : Line) (h : path.dropLast ≠ c.path) :
    c.mark d destination reformat path line = line :=
  if_neg h

theorem map_markStatement (d : Detector) (destination : Text) (reformat : Bool) (c : SchemaClass)
    (i : Nat) (ss : List Statement) :
    ss.map (markStatement d destination reformat) =
      mapLinesFrom (c.mark d destination reformat) c.path i ss := by
  induction ss generalizing i with
  | nil => simp [mapLinesFrom]
  | cons s ss ih =>
      have hs : markStatement d destination reformat s =
          s.mapLines (c.mark d destination reformat) (c.path ++ [i]) := by
        cases s with
        | simple line =>
            rw [markStatement_simple, Statement.mapLines, SchemaClass.mark]
            simp
        | compound signature header newline block =>
            exact (Statement.mapLines_compound_eq_self (c.mark_outside d destination reformat) i
              _ _ _ _).symm
      rw [List.map_cons, mapLinesFrom, hs, ih (i + 1)]

theorem markClass_eq (d : Detector) (destination : Text) (reformat : Bool) {m : Module}
    {c : SchemaClass} {signature : ClassSignature} {header : List Item} {newline : Token}
    {block : Block}
    (hs : m.statement? c.path = some (.compound (some signature) header newline block)) :
    markClass d destination reformat m c = m.mapLines (c.mark d destination reformat) := by
  rw [← Module.setBody_mapLines (c.mark_outside d destination reformat) hs, ← map_markStatement]
  simp only [markClass, hs]

/-- The line that marking of classes, one after another, makes of a line. -/
def markLine (d : Detector) (destination : Text) (reformat : Bool) (classes : List SchemaClass)
    (path : StatementPath) (line : Line) : Line :=
  classes.foldl (fun line c => c.mark d destination reformat path line) line

theorem markFields_eq (d : Detector) (destination : Text) (reformat : Bool)
    {classes : List SchemaClass} {m : Module}
    (hclasses : ∀ c ∈ classes, ∃ signature header newline block,
      m.statement? c.path = some (.compound (some signature) header newline block)) :
    markFields d destination reformat m classes =
      m.mapLines (markLine d destination reformat classes) := by
  induction classes generalizing m with
  | nil => exact (m.mapLines_eq_self fun _ _ => rfl).symm
  | cons c cs ih =>
      obtain ⟨signature, header, newline, block, hs⟩ := hclasses c (by simp)
      rw [markFields, List.foldl_cons, markClass_eq d destination reformat hs, ← markFields, ih,
        Module.mapLines_mapLines]
      · rfl
      · intro c' hc'
        obtain ⟨signature', header', newline', block', hs'⟩ := hclasses c' (by simp [hc'])
        refine ⟨signature', header', newline',
          block'.mapLines (c.mark d destination reformat) c'.path, ?_⟩
        rw [Module.statement?_mapLines, hs', Option.map_some, Statement.mapLines]

theorem markLine_eq_self (d : Detector) (destination : Text) (reformat : Bool)
    {classes : List SchemaClass} {path : StatementPath} {line : Line}
    (h : ∀ c ∈ classes, path.dropLast = c.path → d.fieldOf? line = none) :
    markLine d destination reformat classes path line = line := by
  induction classes with
  | nil => rfl
  | cons c cs ih =>
      have hsame : c.mark d destination reformat path line = line := by
        unfold SchemaClass.mark
        split
        · rename_i hpath
          rw [Line.marked, h c (by simp) hpath]
        · rfl
      rw [markLine, List.foldl_cons, hsame]
      exact ih fun c' hc' => h c' (by simp [hc'])

/-- Marks that do not ask for reformatting do not show. -/
theorem printPreserved_markLine (d : Detector) (destination : Text) (classes : List SchemaClass)
    (path : StatementPath) {line : Line} (hplain : line.reformat = false) (style : Style)
    (lineBreak : Text) :
    (markLine d destination false classes path line).printPreserved style lineBreak =
      spell line.tokens := by
  have hmarked (line : Line) : (markLine d destination false classes path line).tokens = line.tokens ∧
      (markLine d destination false classes path line).reformat = line.reformat := by
    induction classes generalizing line with
    | nil => exact ⟨rfl, rfl⟩
    | cons c cs ih =>
        obtain ⟨htokens, hreformat⟩ := ih (c.mark d destination false path line)
        have hstep : (c.mark d destination false path line).tokens = line.tokens ∧
            (c.mark d destination false path line).reformat = line.reformat := by
          unfold SchemaClass.mark
          split
          · exact ⟨line.tokens_marked d destination false, line.reformat_marked d destination⟩
          · exact ⟨rfl, rfl⟩
        exact ⟨htokens.trans hstep.1, hreformat.trans hstep.2⟩
  rw [Line.printPreserved_of_reformat ((hmarked line).2.trans hplain), (hmarked line).1]

/-- Marking shows at fields of the classes only, and only if they are to be reformatted. -/
theorem isFieldIn_of_printPreserved_markLine {d : Detector} {destination : Text} {reformat : Bool}
    {classes : List SchemaClass} {path : StatementPath} {line : Line}
    (hplain : line.reformat = false) {style : Style} {lineBreak : Text}
    (h : (markLine d destination reformat classes path line).printPreserved style lineBreak ≠
      spell line.tokens) : d.IsFieldIn classes path line ∧ reformat = true := by
  constructor
  · by_contra hnot
    apply h
    rw [markLine_eq_self, Line.printPreserved_of_reformat hplain]
    intro c hc hpath
    by_contra hfield
    exact hnot ⟨c, hc, hpath, Option.isSome_iff_ne_none.mpr hfield⟩
  · by_contra hreformat
    rw [Bool.not_eq_true] at hreformat
    subst hreformat
    exact h (printPreserved_markLine d destination classes path hplain style lineBreak)

/-! ## Editing -/

/-- The pass of an engine changes lines, and only fields for which it records an edit. -/
theorem Engine.run_mapLines {config : Config} (hvalid : config.validate = .ok ()) (m : Module) :
    ∃ engine, Engine.ofConfig config = .ok engine ∧
      let classes := config.detector.detect m
      let pass := engine.run m classes
      (config.migration.enabled = false → pass.2.1.edits = []) ∧
      ∃ edit : StatementPath → Line → Line, pass.1 = m.mapLines edit ∧
        ∀ path line, m.line? path = some line → edit path line = line ∨
          (config.detector.IsFieldIn classes path line ∧ editsAt pass.2.1.edits path ≠ []) := by
  cases henabled : config.migration.enabled with
  | false =>
      refine ⟨_, Engine.ofConfig_disabled hvalid henabled, fun _ => rfl, fun _ line => line, ?_, ?_⟩
      · exact (m.mapLines_eq_self fun _ _ => rfl).symm
      · exact fun _ _ _ => .inl rfl
  | true =>
      obtain ⟨engine, hengine, hrules, hdetector⟩ := Engine.ofConfig_eq_ok hvalid henabled
      refine ⟨engine, hengine, by simp, ?_⟩
      have hname := config.isKeyword_destination hvalid
      have hclasses : ∀ c ∈ config.detector.detect m, ∃ signature header newline block,
          m.statement? c.path = some (.compound (some signature) header newline block) :=
        fun c hc => Module.statement?_of_mem_detect hc
      obtain ⟨hmodule, hedits⟩ := Engine.run_eq hrules m (config.detector.detect m)
      rw [hdetector] at hmodule hedits
      refine ⟨_, hmodule.trans (editClasses_eq _ _ hclasses {}), ?_⟩
      intro path line hline
      have hat := editsAt_editClasses config.detector [config.migration.toRule] hclasses {} path
      rw [← hedits, hline, Option.elim_some] at hat
      rcases editLine_cases config.migration henabled hname config.detector
        (config.detector.detect m) path line with ⟨hsame, -⟩ | ⟨c, hc, hpath, hedited, hlog⟩
      · exact .inl hsame
      rw [hedited]
      by_cases hnone : (line.editLog config.detector [config.migration.toRule] c.signature.name
          path).edits = []
      · -- A visit without an edit can be undone by doing nothing.
        have hundo := undoLines_edited config.migration henabled hname config.detector
          c.signature.name path line
        rw [hnone, List.reverse_nil, undoLines, Except.ok.injEq] at hundo
        left
        simpa [leavesMark] using hundo
      · right
        refine ⟨⟨c, hc, hpath, ?_⟩, ?_⟩
        · cases hfield : config.detector.fieldOf? line with
          | none => simp [Line.editLog, hfield] at hnone
          | some call => rfl
        · rwa [hat, hlog]

/-! ## Main statement -/

/-- A run in preserve mode touches nothing but fields of schema classes. For a source that parses and
a valid configuration, the output is the source with other texts for some lines, each of which is a
field directly in a schema class and, unless fields are to be reformatted, one that the report has an
edit of. With neither migration nor reformatting the output is the source. -/
theorem run_preserve_frame {source : Text} {m : Module} (hparse : parse source = .ok m)
    (config : Config) (hvalid : config.validate = .ok ()) (hmode : config.style.mode = .preserve) :
    ∃ result, run config source = .ok result ∧
      (m.sourceBy fun _ line => spell line.tokens) = source ∧
      (∃ text : StatementPath → Line → Text, result.text = m.sourceBy text ∧
        ∀ path line, m.line? path = some line → text path line ≠ spell line.tokens →
          (∃ c ∈ config.detector.detect m, ∃ i, path = c.path ++ [i]) ∧
          (config.detector.fieldOf? line).isSome ∧
          (config.formatFields = false → ∃ e ∈ result.report.edits, e.path = path)) ∧
      (config.migration.enabled = false → config.formatFields = false →
        result.text = source ∧ result.changed = false) := by
  obtain ⟨engine, hengine, hdisabled, edit, hpass, hedit⟩ := Engine.run_mapLines hvalid m
  let d := config.detector
  let destination := config.migration.destination
  let classes := d.detect m
  let pass := engine.run m classes
  let marked := markFields d destination config.formatFields pass.1 classes
  let text (path : StatementPath) (line : Line) : Text :=
    (markLine d destination config.formatFields classes path (edit path line)).printPreserved
      config.style marked.lineBreak
  have hprint : marked.print config.style = m.sourceBy text := by
    have hclasses : ∀ c ∈ classes, ∃ signature header newline block,
        pass.1.statement? c.path = some (.compound (some signature) header newline block) := by
      intro c hc
      obtain ⟨signature, header, newline, block, hs⟩ := Module.statement?_of_mem_detect hc
      refine ⟨signature, header, newline, block.mapLines edit c.path, ?_⟩
      rw [hpass, Module.statement?_mapLines, hs, Option.map_some, Statement.mapLines]
    have hmarked : marked = m.mapLines fun path line =>
        markLine d destination config.formatFields classes path (edit path line) := by
      rw [← Module.mapLines_mapLines, ← hpass]
      exact markFields_eq d destination _ hclasses
    rw [print_eq_sourceBy hmode]
    conv => lhs; arg 2; rw [hmarked]
    rw [Module.sourceBy_mapLines]
  have htext : ∀ path line, m.line? path = some line → text path line ≠ spell line.tokens →
      d.IsFieldIn classes path line ∧
        (config.formatFields = false → editsAt pass.2.1.edits path ≠ []) := by
    intro path line hline hne
    rcases hedit path line hline with hsame | ⟨hfield, hedits⟩
    · simp only [text, hsame] at hne
      obtain ⟨hfield, hformat⟩ :=
        isFieldIn_of_printPreserved_markLine (Module.reformat_parse hparse hline) hne
      exact ⟨hfield, fun hoff => absurd (hformat.symm.trans hoff) (by simp)⟩
    · exact ⟨hfield, fun _ => hedits⟩
  have hsource := sourceBy_parse hparse
  have hrun : run config source = .ok ⟨m.sourceBy text, pass.2.1, m.sourceBy text != source⟩ := by
    have hformat : (config.formatFields && config.style.mode == .preserve) = config.formatFields := by
      rw [hmode]
      exact Bool.and_true _
    simp only [run, hparse, hengine, hformat]
    rw [hprint]
  refine ⟨_, hrun, hsource, ⟨text, rfl, ?_⟩, ?_⟩
  · intro path line hline hne
    obtain ⟨⟨c, hc, hpath, hfield⟩, hedits⟩ := htext path line hline hne
    refine ⟨⟨c, hc, ?_⟩, hfield, fun hformat => ?_⟩
    · rcases List.eq_nil_or_concat path with rfl | ⟨init, i, rfl⟩
      · cases hline
      · rw [List.concat_eq_append, List.dropLast_concat] at hpath
        exact ⟨i, by rw [List.concat_eq_append, hpath]⟩
    · obtain ⟨e, he⟩ := List.exists_mem_of_ne_nil _ (hedits hformat)
      rw [editsAt, List.mem_filter] at he
      exact ⟨e, he.1, by simpa using he.2⟩
  · intro hoff hformat
    have hall : m.sourceBy text = source := by
      rw [← hsource]
      apply Module.sourceBy_congr
      intro path line hline
      by_contra hne
      apply (htext path line hline hne).2 hformat
      have hnone : pass.2.1.edits = [] := hdisabled hoff
      rw [hnone, editsAt_nil]
    exact ⟨hall, by simp [hall]⟩

/-- Two fields with odd spacing, one of which is migrated, and an assignment outside of the class that
looks like a field. -/
def oddlySpacedFields : Text :=
  "class A(Schema):\n  x = Str( hint=1 )\n  y = Str( a=1 )\nz = Str( hint=1 )\n".toList

theorem run_preserve_frame_oddlySpacedFields :
    ∃ m result, parse oddlySpacedFields = .ok m ∧
      run { Config.migrating {} ["hint".toList] "metadata".toList with
        style := { mode := .preserve }, formatFields := false } oddlySpacedFields = .ok result ∧
      result.report.edits.map (·.path) = [[0, 0]] ∧
      ∃ text : StatementPath → Line → Text, result.text = m.sourceBy text ∧
        ∀ path ∈ [[0, 1], [1]], ∃ line, m.line? path = some line ∧
          text path line = spell line.tokens := by
  let config : Config := { Config.migrating {} ["hint".toList] "metadata".toList with
    style := { mode := .preserve }, formatFields := false }
  have hlines : (parse oddlySpacedFields).toOption.map
      (fun m => ((m.line? [0, 1]).isSome, (m.line? [1]).isSome)) = some (true, true) := by
    decide +kernel
  have hpaths : (run config oddlySpacedFields).toOption.map
      (fun result => result.report.edits.map (·.path)) = some [[0, 0]] := by
    decide +kernel
  cases hm : parse oddlySpacedFields with
  | error e => simp [hm, Except.toOption] at hlines
  | ok m =>
      obtain ⟨result, hrun, -, ⟨text, htext, hframe⟩, -⟩ :=
        run_preserve_frame hm config (by decide +kernel) rfl
      rw [hm] at hlines
      rw [hrun] at hpaths
      have hlines := Option.some.inj hlines
      have hpaths : result.report.edits.map (·.path) = [[0, 0]] := Option.some.inj hpaths
      rw [Prod.mk.injEq] at hlines
      refine ⟨m, result, rfl, hrun, hpaths, text, htext, ?_⟩
      have hsame (path : StatementPath) (hother : path ≠ [0, 0]) (hpath : (m.line? path).isSome) :
          ∃ line, m.line? path = some line ∧ text path line = spell line.tokens := by
        obtain ⟨line, hline⟩ := Option.isSome_iff_exists.mp hpath
        refine ⟨line, hline, ?_⟩
        by_contra hne
        obtain ⟨e, he, heq⟩ := (hframe path line hline hne).2.2 rfl
        have hmem : path ∈ result.report.edits.map (·.path) := heq ▸ List.mem_map_of_mem he
        rw [hpaths, List.mem_singleton] at hmem
        exact hother hmem
      intro path hpath
      rcases List.mem_cons.mp hpath with rfl | hpath
      · exact hsame _ (by decide) hlines.1
      · obtain rfl := List.mem_singleton.mp hpath
        exact hsame _ (by decide) hlines.2

end SchemaTidy
