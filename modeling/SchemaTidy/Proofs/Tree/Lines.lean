import SchemaTidy.Schema.Detect
import SchemaTidy.Tree.Source

/-!
# Changing the lines of a module

A change of simple statements, each addressed by its path, as a map over the tree. Such a map moves
nothing: it is found again at the same path, and classes are where they were.
-/

namespace SchemaTidy

mutual

def Statement.mapLines (f : StatementPath → Line → Line) (path : StatementPath) :
    Statement → Statement
  | .simple line => .simple (f path line)
  | .compound signature header newline block =>
      .compound signature header newline (block.mapLines f path)

/-- Changes the lines of the block of the statement at `path`. -/
def Block.mapLines (f : StatementPath → Line → Line) (path : StatementPath) : Block → Block
  | ⟨indent, body, dedent⟩ => ⟨indent, mapLinesFrom f path 0 body, dedent⟩

/-- Changes the lines of statements, the first of which has index `i` in the body at `path`. -/
def mapLinesFrom (f : StatementPath → Line → Line) (path : StatementPath) (i : Nat) :
    List Statement → List Statement
  | [] => []
  | s :: ss => s.mapLines f (path ++ [i]) :: mapLinesFrom f path (i + 1) ss

end

def Module.mapLines (f : StatementPath → Line → Line) (m : Module) : Module :=
  { m with body := mapLinesFrom f [] 0 m.body }

@[simp] theorem Block.eta (b : Block) : ⟨b.indent, b.body, b.dedent⟩ = b := by
  cases b
  rfl

mutual

theorem Statement.classes_mapLines (f : StatementPath → Line → Line) :
    (s : Statement) → ∀ path, (s.mapLines f path).classes path = s.classes path
  | .simple line => by
      intro path
      rw [Statement.mapLines, Statement.classes, Statement.classes]
  | .compound signature header newline block => by
      intro path
      simp only [Statement.mapLines, Statement.classes, block.classes_mapLines f path]
      rfl

theorem Block.classes_mapLines (f : StatementPath → Line → Line) :
    (b : Block) → ∀ path, (b.mapLines f path).classes path = b.classes path
  | ⟨indent, body, dedent⟩ => by
      intro path
      rw [Block.mapLines, Block.classes, Block.classes]
      exact classesFrom_mapLinesFrom f body path 0

theorem classesFrom_mapLinesFrom (f : StatementPath → Line → Line) :
    (ss : List Statement) → ∀ path i,
      classesFrom path i (mapLinesFrom f path i ss) = classesFrom path i ss
  | [] => by
      intro path i
      rw [mapLinesFrom]
  | s :: ss => by
      intro path i
      rw [mapLinesFrom, classesFrom, classesFrom, s.classes_mapLines f, classesFrom_mapLinesFrom f ss]

end

theorem detect_mapLines (d : Detector) (f : StatementPath → Line → Line) (m : Module) :
    d.detect (m.mapLines f) = d.detect m := by
  have hclasses : (m.mapLines f).classes = m.classes := classesFrom_mapLinesFrom f m.body [] 0
  rw [Detector.detect, Detector.detect, hclasses]

theorem getElem?_mapLinesFrom (f : StatementPath → Line → Line) (path : StatementPath) (i n : Nat)
    (ss : List Statement) :
    (mapLinesFrom f path i ss)[n]? = ss[n]?.map (·.mapLines f (path ++ [i + n])) := by
  induction ss generalizing i n with
  | nil => simp [mapLinesFrom]
  | cons s ss ih =>
      cases n with
      | zero => simp [mapLinesFrom]
      | succ n =>
          simp only [mapLinesFrom, List.getElem?_cons_succ, ih]
          rw [show i + 1 + n = i + (n + 1) by omega]

theorem statementAt?_mapLinesFrom (f : StatementPath → Line → Line) (pre : StatementPath)
    (ss : List Statement) (path : StatementPath) :
    statementAt? (mapLinesFrom f pre 0 ss) path =
      (statementAt? ss path).map (·.mapLines f (pre ++ path)) := by
  fun_induction statementAt? ss path generalizing pre with
  | case1 ss => rfl
  | case2 ss i => simp [statementAt?, getElem?_mapLinesFrom]
  | case3 ss i j rest s hs block hblock ih =>
      rw [statementAt?, getElem?_mapLinesFrom, hs]
      cases s with
      | simple line => simp [Statement.block?] at hblock
      | compound signature header newline b =>
          obtain ⟨indent, body, dedent⟩ := b
          simp only [Statement.block?, Option.some.injEq] at hblock
          subst hblock
          simpa [Statement.mapLines, Block.mapLines, Statement.block?] using ih (pre ++ [i])
  | case4 ss i j rest s hs hblock =>
      rw [statementAt?, getElem?_mapLinesFrom, hs]
      cases s with
      | simple line => simp [Statement.mapLines, Statement.block?]
      | compound signature header newline b => simp [Statement.block?] at hblock
  | case5 ss i j rest hs =>
      rw [statementAt?, getElem?_mapLinesFrom, hs]
      rfl

theorem Module.statement?_mapLines (f : StatementPath → Line → Line) (m : Module)
    (path : StatementPath) :
    (m.mapLines f).statement? path = (m.statement? path).map (·.mapLines f path) := by
  simpa [Module.statement?, Module.mapLines] using statementAt?_mapLinesFrom f [] m.body path

mutual

/-- A map that changes no line at or below a path leaves the statement there. -/
theorem Statement.mapLines_eq_self {f : StatementPath → Line → Line} :
    (s : Statement) → ∀ path, (∀ p line, path <+: p → f p line = line) → s.mapLines f path = s
  | .simple line => by
      intro path h
      rw [Statement.mapLines, h path line (List.prefix_refl _)]
  | .compound signature header newline block => by
      intro path h
      rw [Statement.mapLines, block.mapLines_eq_self path fun p line hp _ => h p line hp]

theorem Block.mapLines_eq_self {f : StatementPath → Line → Line} :
    (b : Block) → ∀ path, (∀ p line, path <+: p → p ≠ path → f p line = line) →
      b.mapLines f path = b
  | ⟨indent, body, dedent⟩ => by
      intro path h
      rw [Block.mapLines, mapLinesFrom_eq_self body path 0 h]

theorem mapLinesFrom_eq_self {f : StatementPath → Line → Line} :
    (ss : List Statement) → ∀ path i, (∀ p line, path <+: p → p ≠ path → f p line = line) →
      mapLinesFrom f path i ss = ss
  | [] => by
      intro path i h
      rw [mapLinesFrom]
  | s :: ss => by
      intro path i h
      have hs : s.mapLines f (path ++ [i]) = s := by
        refine s.mapLines_eq_self (path ++ [i]) fun p line hp => ?_
        refine h p line ((List.prefix_append _ _).trans hp) ?_
        rintro rfl
        have hlength := hp.length_le
        rw [List.length_append, List.length_singleton] at hlength
        omega
      rw [mapLinesFrom, hs, mapLinesFrom_eq_self ss path (i + 1) h]

end

mutual

theorem Statement.mapLines_mapLines (f g : StatementPath → Line → Line) :
    (s : Statement) → ∀ path,
      (s.mapLines f path).mapLines g path = s.mapLines (fun p line => g p (f p line)) path
  | .simple line => by
      intro path
      simp only [Statement.mapLines]
  | .compound signature header newline block => by
      intro path
      simp only [Statement.mapLines, block.mapLines_mapLines f g path]

theorem Block.mapLines_mapLines (f g : StatementPath → Line → Line) :
    (b : Block) → ∀ path,
      (b.mapLines f path).mapLines g path = b.mapLines (fun p line => g p (f p line)) path
  | ⟨indent, body, dedent⟩ => by
      intro path
      simp only [Block.mapLines, mapLinesFrom_mapLinesFrom f g body path 0]

theorem mapLinesFrom_mapLinesFrom (f g : StatementPath → Line → Line) :
    (ss : List Statement) → ∀ path i,
      mapLinesFrom g path i (mapLinesFrom f path i ss) =
        mapLinesFrom (fun p line => g p (f p line)) path i ss
  | [] => by
      intro path i
      simp only [mapLinesFrom]
  | s :: ss => by
      intro path i
      simp only [mapLinesFrom, s.mapLines_mapLines f g, mapLinesFrom_mapLinesFrom f g ss]

end

theorem Module.mapLines_mapLines (f g : StatementPath → Line → Line) (m : Module) :
    (m.mapLines f).mapLines g = m.mapLines fun p line => g p (f p line) := by
  simp only [Module.mapLines, mapLinesFrom_mapLinesFrom]

theorem Module.mapLines_eq_self {f : StatementPath → Line → Line} (m : Module)
    (h : ∀ p line, f p line = line) : m.mapLines f = m := by
  rw [Module.mapLines, mapLinesFrom_eq_self m.body [] 0 fun p line _ _ => h p line]

theorem set_mapLines {f : StatementPath → Line → Line} {pre : StatementPath} {i : Nat}
    (h : ∀ p line, ¬ pre ++ [i] <+: p → f p line = line) {body : List Statement} {s : Statement}
    (hs : body[i]? = some s) :
    body.set i (s.mapLines f (pre ++ [i])) = mapLinesFrom f pre 0 body := by
  have hi : i < body.length := (List.getElem?_eq_some_iff.mp hs).1
  refine List.ext_getElem? fun n => ?_
  rw [getElem?_mapLinesFrom, Nat.zero_add]
  by_cases hn : i = n
  · subst hn
    rw [List.getElem?_set_self hi, hs, Option.map_some]
  · rw [List.getElem?_set_ne hn]
    cases hget : body[n]? with
    | none => rfl
    | some t =>
        have ht : t.mapLines f (pre ++ [n]) = t := by
          refine t.mapLines_eq_self _ fun p line hp => h p line fun hp' => hn ?_
          have heq := List.prefix_of_prefix_length_le hp' hp (by simp)
          simpa using List.IsPrefix.eq_of_length heq (by simp)
        rw [Option.map_some, ht]

/-- Replacing the statement at a path by its image is a map that changes no line elsewhere. -/
theorem editBodyAt_mapLines {f : StatementPath → Line → Line} (body : List Statement)
    (path pre : StatementPath) (h : ∀ p line, ¬ pre ++ path <+: p → f p line = line)
    {s : Statement} (hs : statementAt? body path = some s) :
    editBodyAt (fun body i => body.set i (s.mapLines f (pre ++ path))) body path =
      mapLinesFrom f pre 0 body := by
  fun_induction statementAt? body path generalizing pre with
  | case1 ss => cases hs
  | case2 ss i => exact set_mapLines h hs
  | case3 ss i j rest t ht block hblock ih =>
      have hbelow := ih (pre ++ [i]) (by simpa using h) hs
      rw [editBodyAt, ht]
      simp only [hblock]
      rw [List.append_assoc, List.singleton_append] at hbelow
      rw [hbelow]
      cases t with
      | simple line => simp [Statement.block?] at hblock
      | compound signature header newline b =>
          simp only [Statement.block?, Option.some.injEq] at hblock
          subst hblock
          obtain ⟨indent, inner, dedent⟩ := b
          have himage : Statement.withBlock ⟨indent, mapLinesFrom f (pre ++ [i]) 0 inner, dedent⟩
              (.compound signature header newline ⟨indent, inner, dedent⟩) =
                (Statement.compound signature header newline ⟨indent, inner, dedent⟩).mapLines f
                  (pre ++ [i]) := by
            rw [Statement.withBlock, Statement.mapLines, Block.mapLines]
          rw [himage]
          refine set_mapLines (fun p line hp => h p line fun hp' => hp ?_) ht
          exact (List.prefix_append (pre ++ [i]) (j :: rest)).trans (by simpa using hp')
  | case4 ss i j rest t ht hblock => cases hs
  | case5 ss i j rest ht => cases hs

theorem Module.setStatement_mapLines {f : StatementPath → Line → Line} {m : Module}
    {path : StatementPath} (h : ∀ p line, ¬ path <+: p → f p line = line) {s : Statement}
    (hs : m.statement? path = some s) :
    m.setStatement path (s.mapLines f path) = m.mapLines f := by
  rw [Module.setStatement, Module.mapLines]
  exact congrArg (fun body => { m with body }) (editBodyAt_mapLines m.body path [] h hs)

/-! ## Changing the lines of one body -/

theorem Statement.mapLines_compound_eq_self {f : StatementPath → Line → Line}
    {parent : StatementPath} (h : ∀ p line, p.dropLast ≠ parent → f p line = line) (i : Nat)
    (signature : Option ClassSignature) (header : List Item) (newline : Token) (block : Block) :
    (Statement.compound signature header newline block).mapLines f (parent ++ [i]) =
      .compound signature header newline block := by
  rw [Statement.mapLines, block.mapLines_eq_self]
  intro p line hp hne
  refine h p line fun hparent => ?_
  -- Lines of an inner block are too deep to stand in the body.
  have hlt := Nat.lt_of_le_of_ne hp.length_le fun hlen => hne (hp.eq_of_length hlen).symm
  have hlength := congrArg List.length hparent
  rw [List.length_dropLast] at hlength
  rw [List.length_append, List.length_singleton] at hlt
  omega

theorem Module.setBody_mapLines {f : StatementPath → Line → Line} {m : Module}
    {parent : StatementPath} (h : ∀ p line, p.dropLast ≠ parent → f p line = line)
    {signature : Option ClassSignature} {header : List Item} {newline : Token} {block : Block}
    (hs : m.statement? parent = some (.compound signature header newline block)) :
    m.setStatement parent (.compound signature header newline
      { block with body := mapLinesFrom f parent 0 block.body }) = m.mapLines f := by
  obtain ⟨indent, body, dedent⟩ := block
  have hother : ∀ p line, ¬ parent <+: p → f p line = line := by
    intro p line hp
    refine h p line fun hparent => hp ?_
    rw [← hparent]
    exact List.dropLast_prefix p
  rw [← Module.setStatement_mapLines hother hs, Statement.mapLines, Block.mapLines]

mutual

theorem Statement.mapLines_congr {f g : StatementPath → Line → Line} :
    (s : Statement) → ∀ path, (∀ line, s = .simple line → f path line = g path line) →
      (∀ block rest line, s.block? = some block →
        statementAt? block.body rest = some (.simple line) →
        f (path ++ rest) line = g (path ++ rest) line) →
      s.mapLines f path = s.mapLines g path
  | .simple line => by
      intro path hline _
      rw [Statement.mapLines, Statement.mapLines, hline line rfl]
  | .compound signature header newline block => by
      intro path _ hbelow
      have hblock := block.mapLines_congr path fun rest line hs => hbelow block rest line rfl hs
      rw [Statement.mapLines, Statement.mapLines, hblock]

theorem Block.mapLines_congr {f g : StatementPath → Line → Line} :
    (b : Block) → ∀ path, (∀ rest line, statementAt? b.body rest = some (.simple line) →
        f (path ++ rest) line = g (path ++ rest) line) →
      b.mapLines f path = b.mapLines g path
  | ⟨indent, body, dedent⟩ => by
      intro path h
      have hbody := mapLinesFrom_congr body path 0 fun n rest line hs => by
        simpa using h (n :: rest) line hs
      rw [Block.mapLines, Block.mapLines, hbody]

theorem mapLinesFrom_congr {f g : StatementPath → Line → Line} :
    (ss : List Statement) → ∀ path i, (∀ n rest line,
        statementAt? ss (n :: rest) = some (.simple line) →
        f (path ++ (i + n) :: rest) line = g (path ++ (i + n) :: rest) line) →
      mapLinesFrom f path i ss = mapLinesFrom g path i ss
  | [] => by
      intro path i _
      rw [mapLinesFrom, mapLinesFrom]
  | s :: ss => by
      intro path i h
      have hs := s.mapLines_congr (f := f) (g := g) (path ++ [i])
        (by
          rintro line rfl
          exact h 0 [] line rfl)
        (by
          intro block rest line hblock hrest
          cases rest with
          | nil => cases hrest
          | cons j rest =>
              have hat := h 0 (j :: rest) line (by simpa [statementAt?, hblock] using hrest)
              simpa using hat)
      have hss := mapLinesFrom_congr (f := f) (g := g) ss path (i + 1) (by
        intro n rest line hrest
        have hat := h (n + 1) rest line (by cases rest <;> simpa [statementAt?] using hrest)
        rwa [show i + 1 + n = i + (n + 1) by omega])
      rw [mapLinesFrom, mapLinesFrom, hs, hss]

end

mutual

theorem Statement.tokens_mapLines {f : StatementPath → Line → Line}
    (h : ∀ path line, (f path line).tokens = line.tokens) :
    (s : Statement) → ∀ path, (s.mapLines f path).tokens = s.tokens
  | .simple line => by
      intro path
      rw [Statement.mapLines, Statement.tokens, Statement.tokens, h]
  | .compound signature header newline block => by
      intro path
      rw [Statement.mapLines, Statement.tokens, Statement.tokens, block.tokens_mapLines h path]

theorem Block.tokens_mapLines {f : StatementPath → Line → Line}
    (h : ∀ path line, (f path line).tokens = line.tokens) :
    (b : Block) → ∀ path, (b.mapLines f path).tokens = b.tokens
  | ⟨indent, body, dedent⟩ => by
      intro path
      rw [Block.mapLines, Block.tokens, Block.tokens, tokensOfBody_mapLinesFrom h body path 0]

theorem tokensOfBody_mapLinesFrom {f : StatementPath → Line → Line}
    (h : ∀ path line, (f path line).tokens = line.tokens) :
    (ss : List Statement) → ∀ path i, tokensOfBody (mapLinesFrom f path i ss) = tokensOfBody ss
  | [] => by
      intro path i
      rw [mapLinesFrom]
  | s :: ss => by
      intro path i
      rw [mapLinesFrom, tokensOfBody, tokensOfBody, s.tokens_mapLines h,
        tokensOfBody_mapLinesFrom h ss]

end

theorem Module.tokens_mapLines {f : StatementPath → Line → Line} (m : Module)
    (h : ∀ path line, (f path line).tokens = line.tokens) : (m.mapLines f).tokens = m.tokens := by
  rw [Module.tokens, Module.mapLines, tokensOfBody_mapLinesFrom h m.body [] 0, Module.tokens]

def Module.line? (m : Module) (path : StatementPath) : Option Line :=
  (m.statement? path).bind Statement.line?

theorem Module.line?_eq_some {m : Module} {path : StatementPath} {line : Line} :
    m.line? path = some line ↔ m.statement? path = some (.simple line) := by
  rw [Module.line?, Option.bind_eq_some_iff]
  constructor
  · rintro ⟨s, hs, hline⟩
    cases s with
    | simple line' =>
        rw [Statement.line?, Option.some.injEq] at hline
        rw [hs, hline]
    | compound signature header newline block => cases hline
  · intro hs
    exact ⟨.simple line, hs, rfl⟩

theorem Module.line?_mapLines (f : StatementPath → Line → Line) (m : Module)
    (path : StatementPath) : (m.mapLines f).line? path = (m.line? path).map (f path) := by
  rw [Module.line?, Module.line?, Module.statement?_mapLines]
  cases m.statement? path with
  | none => rfl
  | some s =>
      cases s with
      | simple line => simp [Statement.mapLines, Statement.line?]
      | compound signature header newline block => simp [Statement.mapLines, Statement.line?]

theorem Module.mapLines_congr {f g : StatementPath → Line → Line} {m : Module}
    (h : ∀ path line, m.line? path = some line → f path line = g path line) :
    m.mapLines f = m.mapLines g := by
  have hbody := mapLinesFrom_congr (f := f) (g := g) m.body [] 0 (by
    intro n rest line hs
    have hat := h (n :: rest) line (Module.line?_eq_some.mpr hs)
    simpa using hat)
  rw [Module.mapLines, Module.mapLines, hbody]

theorem Module.setStatement_self (m : Module) {path : StatementPath} {s : Statement}
    (hs : m.statement? path = some s) : m.setStatement path s = m := by
  have hset := Module.setStatement_mapLines (f := fun _ line => line) (fun _ _ _ => rfl) hs
  rwa [s.mapLines_eq_self path fun _ _ _ => rfl, m.mapLines_eq_self fun _ _ => rfl] at hset

theorem statementAt?_append (body : List Statement) (path : StatementPath) (i : Nat)
    {s : Statement} {block : Block} (hs : statementAt? body path = some s)
    (hblock : s.block? = some block) : statementAt? body (path ++ [i]) = block.body[i]? := by
  fun_induction statementAt? body path with
  | case1 ss => cases hs
  | case2 ss j => simp [statementAt?, hs, hblock]
  | case3 ss j k rest t ht b hb ih =>
      have hbelow := ih hs
      simpa [statementAt?, ht, hb] using hbelow
  | case4 ss j k rest t ht hb => cases hs
  | case5 ss j k rest ht => cases hs

mutual

theorem Statement.mem_classes {c : SchemaClass} :
    (s : Statement) → ∀ path, c ∈ s.classes path →
      (c.path = path ∧ ∃ header newline block, s = .compound (some c.signature) header newline block) ∨
        ∃ block rest header newline inner, s.block? = some block ∧ c.path = path ++ rest ∧
          statementAt? block.body rest = some (.compound (some c.signature) header newline inner)
  | .simple line => by
      intro path hc
      simp [Statement.classes] at hc
  | .compound signature header newline block => by
      intro path hc
      have hbelow : c ∈ block.classes path → ∃ b rest header newline inner,
          (Statement.compound signature header newline block).block? = some b ∧
            c.path = path ++ rest ∧
            statementAt? b.body rest = some (.compound (some c.signature) header newline inner) := by
        intro hc
        obtain ⟨rest, hrest⟩ := block.mem_classes path hc
        exact ⟨block, rest, hrest.elim fun a h => h.elim fun b h => h.elim fun i h =>
          ⟨a, b, i, rfl, h⟩⟩
      simp only [Statement.classes] at hc
      split at hc
      · rcases List.mem_cons.mp hc with rfl | hc
        · exact .inl ⟨rfl, header, newline, block, rfl⟩
        · exact .inr (hbelow hc)
      · split at hc
        · simp at hc
        · exact .inr (hbelow hc)

theorem Block.mem_classes {c : SchemaClass} :
    (b : Block) → ∀ path, c ∈ b.classes path →
      ∃ rest header newline inner, c.path = path ++ rest ∧
        statementAt? b.body rest = some (.compound (some c.signature) header newline inner)
  | ⟨indent, body, dedent⟩ => by
      intro path hc
      rw [Block.classes] at hc
      obtain ⟨n, rest, header, newline, inner, hpath, hs⟩ := mem_classesFrom body path 0 hc
      exact ⟨n :: rest, header, newline, inner, by simpa using hpath, hs⟩

theorem mem_classesFrom {c : SchemaClass} :
    (ss : List Statement) → ∀ path i, c ∈ classesFrom path i ss →
      ∃ n rest header newline inner, c.path = path ++ (i + n) :: rest ∧
        statementAt? ss (n :: rest) = some (.compound (some c.signature) header newline inner)
  | [] => by
      intro path i hc
      simp [classesFrom] at hc
  | s :: ss => by
      intro path i hc
      rw [classesFrom, List.mem_append] at hc
      rcases hc with hc | hc
      · rcases s.mem_classes (path ++ [i]) hc with ⟨hpath, header, newline, block, rfl⟩ |
          ⟨block, rest, header, newline, inner, hblock, hpath, hs⟩
        · exact ⟨0, [], header, newline, block, hpath, rfl⟩
        · refine ⟨0, rest, header, newline, inner, by simpa using hpath, ?_⟩
          cases rest with
          | nil => cases hs
          | cons j rest => simpa [statementAt?, hblock] using hs
      · obtain ⟨n, rest, header, newline, inner, hpath, hs⟩ := mem_classesFrom ss path (i + 1) hc
        refine ⟨n + 1, rest, header, newline, inner, ?_, ?_⟩
        · rw [hpath, show i + 1 + n = i + (n + 1) by omega]
        · cases rest with
          | nil => simpa [statementAt?] using hs
          | cons j rest => simpa [statementAt?] using hs

end

theorem Module.statement?_of_mem_classes {m : Module} {c : SchemaClass} (hc : c ∈ m.classes) :
    ∃ header newline block,
      m.statement? c.path = some (.compound (some c.signature) header newline block) := by
  obtain ⟨n, rest, header, newline, inner, hpath, hs⟩ := mem_classesFrom m.body [] 0 hc
  refine ⟨header, newline, inner, ?_⟩
  rw [Module.statement?, hpath]
  simpa using hs

end SchemaTidy
