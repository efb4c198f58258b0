import SchemaTidy.Proofs.Tree.WellFormed
import SchemaTidy.Schema.Detect

/-!
# Classes outside functions

What the walk over nested blocks finds in a parsed module: the statements whose header declares a
class and that no function encloses, each once and in the order of the file.
-/

namespace SchemaTidy

namespace Statement

def isFunction (s : Statement) : Bool := s.block?.isSome && isFunctionHeader s.items

/-- The class that a statement declares: the word `class` begins a header over a block. -/
def declares? (s : Statement) : Option ClassSignature :=
  if s.block?.isSome && s.items.head?.any (·.isName "class") then signatureOf? s.items else none

end Statement

/-- A class in some statements and outside of functions: it is declared at its path, and no statement
around it is a function. -/
structure DeclaresClass (body : List Statement) (path : StatementPath) (signature : ClassSignature)
    (position : Position) : Prop where
  statement : ∃ s, statementAt? body path = some s ∧ s.declares? = some signature ∧
    s.position = position
  outside : ∀ around s, around <+: path → around ≠ path → statementAt? body around = some s →
    s.isFunction = false

def Module.Declares (m : Module) (c : SchemaClass) : Prop :=
  DeclaresClass m.body c.path c.signature c.position

/-- A class that a statement is, or that stands in its block outside of functions. -/
def Statement.DeclaresClass (s : Statement) (path : StatementPath) (signature : ClassSignature)
    (position : Position) : Prop :=
  path = [] ∧ s.declares? = some signature ∧ s.position = position ∨
    s.isFunction = false ∧
      ∃ block, s.block? = some block ∧ SchemaTidy.DeclaresClass block.body path signature position

section Paths

variable {body : List Statement} {path : StatementPath} {signature : ClassSignature}
  {position : Position}

theorem DeclaresClass.path_ne_nil (h : DeclaresClass body path signature position) : path ≠ [] := by
  rintro rfl
  obtain ⟨s, hs, -⟩ := h.statement
  cases hs

theorem statementAt?_cons {s : Statement} {block : Block} {i : Nat} (hs : body[i]? = some s)
    (hblock : s.block? = some block) (hpath : path ≠ []) :
    statementAt? body (i :: path) = statementAt? block.body path := by
  cases path with
  | nil => exact absurd rfl hpath
  | cons j rest =>
      rw [statementAt?, hs]
      simp only [hblock]

theorem exists_of_statementAt?_cons {s : Statement} {i : Nat} (hpath : path ≠ [])
    (h : statementAt? body (i :: path) = some s) :
    ∃ t block, body[i]? = some t ∧ t.block? = some block ∧ statementAt? block.body path = some s := by
  cases path with
  | nil => exact absurd rfl hpath
  | cons j rest =>
      rw [statementAt?] at h
      split at h
      · rename_i t ht
        split at h
        · rename_i block hblock
          exact ⟨t, block, ht, hblock, h⟩
        · cases h
      · cases h

theorem declaresClass_cons {i : Nat} :
    DeclaresClass body (i :: path) signature position ↔
      ∃ s, body[i]? = some s ∧ s.DeclaresClass path signature position := by
  constructor
  · intro h
    obtain ⟨s, hs, hdeclares, hposition⟩ := h.statement
    by_cases hpath : path = []
    · subst hpath
      exact ⟨s, hs, .inl ⟨rfl, hdeclares, hposition⟩⟩
    · obtain ⟨t, block, ht, hblock, hs⟩ := exists_of_statementAt?_cons hpath hs
      have houter : t.isFunction = false :=
        h.outside [i] t (by simp) (by simpa using Ne.symm hpath) ht
      refine ⟨t, ht, .inr ⟨houter, block, hblock, ⟨s, hs, hdeclares, hposition⟩, ?_⟩⟩
      intro around u hle hne hu
      have haround : around ≠ [] := by
        rintro rfl
        cases hu
      refine h.outside (i :: around) u ((List.prefix_cons_inj i).mpr hle) (by simpa using hne) ?_
      rw [statementAt?_cons ht hblock haround, hu]
  · rintro ⟨s, hs, ⟨rfl, hdeclares, hposition⟩ | ⟨hfunction, block, hblock, h⟩⟩
    · refine ⟨⟨s, hs, hdeclares, hposition⟩, fun around t hle hne ht => ?_⟩
      rcases List.prefix_cons_iff.mp hle with rfl | ⟨around', rfl, hnil⟩
      · cases ht
      · rw [List.prefix_nil.mp hnil] at hne
        exact absurd rfl hne
    · obtain ⟨t, ht, hdeclares⟩ := h.statement
      refine ⟨⟨t, ?_, hdeclares⟩, fun around u hle hne hu => ?_⟩
      · rw [statementAt?_cons hs hblock h.path_ne_nil, ht]
      · rcases List.prefix_cons_iff.mp hle with rfl | ⟨around', rfl, hbelow⟩
        · cases hu
        · by_cases haround : around' = []
          · subst haround
            obtain rfl : s = u := Option.some.inj (hs.symm.trans hu)
            exact hfunction
          · rw [statementAt?_cons hs hblock haround] at hu
            exact h.outside around' u hbelow (by simpa using hne) hu

end Paths

/-! ## Headers of parsed statements -/

@[simp] theorem head?_relabelHeader (header : List Item) :
    (relabelHeader header).head?.any (·.isName "class") = header.head?.any (·.isName "class") := by
  unfold relabelHeader
  split
  · split <;> rfl
  · rfl

theorem Statement.WellFormed.signature?_eq {s : Statement} (h : s.WellFormed) :
    s.signature? = s.declares? := by
  cases s with
  | simple line => rfl
  | compound signature header newline block =>
      obtain ⟨-, -, original, -, -, hcompound⟩ := h
      rw [Statement.signature?, Statement.declares?]
      simp only [Statement.block?, Statement.items, Option.isSome_some, Bool.true_and]
      unfold compoundOf at hcompound
      split at hcompound
      · rename_i first rest
        split at hcompound
        · rename_i hclass
          split at hcompound
          · rename_i signature' hsignature
            cases hcompound
            rw [if_pos (by simpa [Item.isName, Item.token?] using hclass), hsignature]
          · cases hcompound
        · rename_i hclass
          cases hcompound
          rw [head?_relabelHeader, if_neg (by simpa [Item.isName, Item.token?] using hclass)]
      · rename_i hfirst
        cases hcompound
        cases header with
        | nil => rfl
        | cons i is =>
            cases i with
            | token t => exact absurd rfl (hfirst t is)
            | group g => rfl

theorem Statement.exists_of_declares? {s : Statement} {signature : ClassSignature}
    (h : s.declares? = some signature) :
    ∃ first rest, s.items = .token first :: rest ∧ first.isName "class" = true ∧
      s.position = first.position := by
  rw [Statement.declares?] at h
  split at h
  · rename_i hclass
    cases hitems : s.items with
    | nil => simp [hitems] at hclass
    | cons i is =>
        cases i with
        | token first =>
            refine ⟨first, is, rfl, ?_, ?_⟩
            · have := (Bool.and_eq_true_iff.mp hclass).2
              simpa [hitems, Item.isName, Item.token?] using this
            · simp [Statement.position, hitems, Item.firstToken]
        | group g => simp [hitems, Item.isName, Item.token?] at hclass
  · cases h

theorem Statement.isFunction_of_declares? {s : Statement} {signature : ClassSignature}
    (h : s.declares? = some signature) : s.isFunction = false := by
  obtain ⟨first, rest, hitems, hclass, -⟩ := Statement.exists_of_declares? h
  obtain ⟨-, htext⟩ : first.kind = .name ∧ first.text = "class".toList := by
    simpa [Token.isName] using hclass
  simp [Statement.isFunction, isFunctionHeader, hitems, Item.token?, Token.isName, htext]

/-! ## The walk -/

mutual

/-- The walk over a statement finds the classes that it is or holds. -/
theorem Statement.mem_classes_iff {c : SchemaClass} :
    (s : Statement) → s.WellFormed → ∀ path, c ∈ s.classes path ↔
      ∃ rest, c.path = path ++ rest ∧ s.DeclaresClass rest c.signature c.position
  | .simple line => by
      intro _ path
      simp [Statement.classes, Statement.DeclaresClass, Statement.declares?, Statement.block?]
  | .compound signature header newline block => by
      intro h path
      have hdeclares := h.signature?_eq
      have hblock := block.mem_classes_iff (c := c) h.1 path
      cases signature with
      | some signature =>
          have hfunction := Statement.isFunction_of_declares? hdeclares.symm
          rw [Statement.classes, List.mem_cons, hblock]
          simp only [Statement.DeclaresClass, ← hdeclares, hfunction, Statement.signature?,
            Statement.block?, Option.some.injEq, true_and, exists_eq_left']
          constructor
          · rintro (rfl | ⟨rest, hpath, hrest⟩)
            · exact ⟨[], by simp, .inl ⟨rfl, rfl, rfl⟩⟩
            · exact ⟨rest, hpath, .inr hrest⟩
          · rintro ⟨rest, hpath, ⟨rfl, rfl, hposition⟩ | hrest⟩
            · obtain ⟨signature, path', position⟩ := c
              left
              simp only at hpath hposition
              rw [hpath, hposition, List.append_nil]
            · exact .inr ⟨rest, hpath, hrest⟩
      | none =>
          have hisFunction : (Statement.compound none header newline block).isFunction =
              isFunctionHeader header := by
            simp [Statement.isFunction, Statement.block?, Statement.items]
          rw [Statement.classes]
          simp only [Statement.DeclaresClass, ← hdeclares, hisFunction, Statement.signature?,
            Statement.block?, Option.some.injEq, exists_eq_left', reduceCtorEq, false_and, and_false,
            false_or]
          split
          · rename_i hheader
            simp [hheader]
          · rename_i hheader
            simpa [hheader] using hblock

theorem Block.mem_classes_iff {c : SchemaClass} :
    (b : Block) → b.WellFormed → ∀ path, c ∈ b.classes path ↔
      ∃ rest, c.path = path ++ rest ∧ DeclaresClass b.body rest c.signature c.position
  | ⟨indent, body, dedent⟩ => by
      intro h path
      rw [Block.classes, mem_classesFrom_iff body h.2.2.2 path 0]
      constructor
      · rintro ⟨n, rest, hpath, hclass⟩
        exact ⟨n :: rest, by simpa using hpath, hclass⟩
      · rintro ⟨rest, hpath, hclass⟩
        cases rest with
        | nil => exact absurd rfl hclass.path_ne_nil
        | cons n rest => exact ⟨n, rest, by simpa using hpath, hclass⟩

theorem mem_classesFrom_iff {c : SchemaClass} :
    (ss : List Statement) → BodyWellFormed ss → ∀ path i, c ∈ classesFrom path i ss ↔
      ∃ n rest, c.path = path ++ (i + n) :: rest ∧ DeclaresClass ss (n :: rest) c.signature c.position
  | [] => by
      intro _ path i
      simp [classesFrom, declaresClass_cons]
  | s :: ss => by
      intro h path i
      rw [classesFrom, List.mem_append, s.mem_classes_iff h.1, mem_classesFrom_iff ss h.2]
      simp only [declaresClass_cons]
      constructor
      · rintro (⟨rest, hpath, hclass⟩ | ⟨n, rest, hpath, hclass⟩)
        · exact ⟨0, rest, by simpa using hpath, s, rfl, hclass⟩
        · exact ⟨n + 1, rest, by rw [hpath, Nat.add_assoc, Nat.add_comm 1], hclass⟩
      · rintro ⟨n, rest, hpath, t, ht, hclass⟩
        cases n with
        | zero =>
            obtain rfl : s = t := by simpa using ht
            exact .inl ⟨rest, by simpa using hpath, hclass⟩
        | succ n =>
            exact .inr ⟨n, rest, by rw [hpath, Nat.add_assoc, Nat.add_comm 1], t, ht, hclass⟩

end

theorem Module.mem_classes_iff {m : Module} (h : BodyWellFormed m.body) {c : SchemaClass} :
    c ∈ m.classes ↔ m.Declares c := by
  rw [Module.classes, mem_classesFrom_iff m.body h [] 0, Module.Declares]
  constructor
  · rintro ⟨n, rest, hpath, hclass⟩
    rwa [hpath, List.nil_append, Nat.zero_add]
  · intro hclass
    cases hpath : c.path with
    | nil => exact absurd hpath hclass.path_ne_nil
    | cons n rest => exact ⟨n, rest, by simp, hpath ▸ hclass⟩

theorem BodyWellFormed.getElem? {body : List Statement} (h : BodyWellFormed body) {i : Nat}
    {s : Statement} (hs : body[i]? = some s) : s.WellFormed := by
  induction body generalizing i with
  | nil => cases hs
  | cons t body ih =>
      cases i with
      | zero =>
          obtain rfl : t = s := by simpa using hs
          exact h.1
      | succ i => exact ih h.2 (by simpa using hs)

theorem BodyWellFormed.statementAt? {body : List Statement} (h : BodyWellFormed body)
    {path : StatementPath} {s : Statement} (hs : statementAt? body path = some s) :
    s.WellFormed := by
  induction path generalizing body with
  | nil => cases hs
  | cons i path ih =>
      by_cases hpath : path = []
      · subst hpath
        exact h.getElem? hs
      · obtain ⟨t, block, ht, hblock, hs⟩ := exists_of_statementAt?_cons hpath hs
        cases t with
        | simple line => cases hblock
        | compound signature header newline block' =>
            obtain rfl : block' = block := Option.some.inj hblock
            obtain ⟨indent, inner, dedent⟩ := block'
            exact ih (h.getElem? ht).1.2.2.2 hs

theorem DeclaresClass.exists_compound {body : List Statement} {path : StatementPath}
    {signature : ClassSignature} {position : Position}
    (hclass : DeclaresClass body path signature position) (h : BodyWellFormed body) :
    ∃ header newline block,
      SchemaTidy.statementAt? body path = some (.compound (some signature) header newline block) ∧
        signatureOf? header = some signature ∧
        (Statement.compound (some signature) header newline block).position = position := by
  obtain ⟨s, hs, hdeclares, hposition⟩ := hclass.statement
  have hsignature := (h.statementAt? hs).signature?_eq.trans hdeclares
  cases s with
  | simple line => cases hdeclares
  | compound signature' header newline block =>
      obtain rfl : signature' = some signature := hsignature
      refine ⟨header, newline, block, hs, ?_, hposition⟩
      rw [Statement.declares?] at hdeclares
      split at hdeclares
      · exact hdeclares
      · cases hdeclares

/-! ## Order -/

theorem lt_of_cons_lt {path rest rest' : StatementPath} {i j : Nat} (h : i < j) :
    path ++ i :: rest < path ++ j :: rest' := by
  induction path with
  | nil => exact List.Lex.rel h
  | cons k path ih => exact List.Lex.cons ih

theorem lt_append_of_ne_nil {path rest : StatementPath} (h : rest ≠ []) : path < path ++ rest := by
  induction path with
  | nil =>
      cases rest with
      | nil => exact absurd rfl h
      | cons i rest => exact List.Lex.nil
  | cons k path ih => exact List.Lex.cons ih

mutual

/-- The walk goes through paths in their order, so it meets no class twice. -/
theorem Statement.pairwise_classes :
    (s : Statement) → s.WellFormed → ∀ path, (s.classes path).Pairwise (·.path < ·.path)
  | .simple line => by
      intro _ path
      simp [Statement.classes]
  | .compound signature header newline block => by
      intro h path
      have hblock := block.pairwise_classes h.1 path
      cases signature with
      | some signature =>
          rw [Statement.classes]
          refine List.pairwise_cons.mpr ⟨fun c hc => ?_, hblock⟩
          obtain ⟨rest, hpath, hclass⟩ := (block.mem_classes_iff h.1 path).mp hc
          rw [hpath]
          exact lt_append_of_ne_nil hclass.path_ne_nil
      | none =>
          rw [Statement.classes]
          split
          · exact List.Pairwise.nil
          · exact hblock

theorem Block.pairwise_classes :
    (b : Block) → b.WellFormed → ∀ path, (b.classes path).Pairwise (·.path < ·.path)
  | ⟨indent, body, dedent⟩ => by
      intro h path
      rw [Block.classes]
      exact pairwise_classesFrom body h.2.2.2 path 0

theorem pairwise_classesFrom :
    (ss : List Statement) → BodyWellFormed ss → ∀ path i,
      (classesFrom path i ss).Pairwise (·.path < ·.path)
  | [] => by
      intro _ path i
      simp [classesFrom]
  | s :: ss => by
      intro h path i
      rw [classesFrom, List.pairwise_append]
      refine ⟨s.pairwise_classes h.1 _, pairwise_classesFrom ss h.2 _ _, fun c hc c' hc' => ?_⟩
      obtain ⟨rest, hpath, -⟩ := (s.mem_classes_iff h.1 _).mp hc
      obtain ⟨n, rest', hpath', -⟩ := (mem_classesFrom_iff ss h.2 _ _).mp hc'
      rw [hpath, hpath', List.append_assoc, List.singleton_append]
      exact lt_of_cons_lt (by omega)

end

mutual

/-- The walk meets the classes in the order of their tokens. -/
theorem Statement.positions_classes :
    (s : Statement) → s.WellFormed → ∀ path,
      ((s.classes path).map (·.position)).Sublist (s.tokens.map (·.position))
  | .simple line => by
      intro _ path
      simp [Statement.classes]
  | .compound signature header newline block => by
      intro h path
      have hblock := block.positions_classes h.1 path
      have htokens : (Statement.compound signature header newline block).tokens =
          tokensOfItems header ++ newline :: block.tokens := by
        rw [Statement.tokens]
      cases signature with
      | some signature =>
          obtain ⟨first, rest, hitems, -, hposition⟩ :=
            Statement.exists_of_declares? h.signature?_eq.symm
          obtain rfl : header = .token first :: rest := hitems
          rw [Statement.classes, List.map_cons, hposition, htokens, tokensOfItems, Item.tokens,
            List.singleton_append, List.cons_append, List.map_cons, List.map_append, List.map_cons]
          exact ((hblock.cons _).trans (List.sublist_append_right _ _)).cons_cons _
      | none =>
          rw [Statement.classes, htokens, List.map_append, List.map_cons]
          split
          · exact List.nil_sublist _
          · exact (hblock.cons _).trans (List.sublist_append_right _ _)

theorem Block.positions_classes :
    (b : Block) → b.WellFormed → ∀ path,
      ((b.classes path).map (·.position)).Sublist (b.tokens.map (·.position))
  | ⟨indent, body, dedent⟩ => by
      intro h path
      have hbody := positions_classesFrom body h.2.2.2 path 0
      rw [Block.classes, Block.tokens, List.map_cons, List.map_append]
      exact (hbody.trans (List.sublist_append_left _ _)).cons _

theorem positions_classesFrom :
    (ss : List Statement) → BodyWellFormed ss → ∀ path i,
      ((classesFrom path i ss).map (·.position)).Sublist ((tokensOfBody ss).map (·.position))
  | [] => by
      intro _ path i
      simp [classesFrom]
  | s :: ss => by
      intro h path i
      rw [classesFrom, tokensOfBody, List.map_append, List.map_append]
      exact (s.positions_classes h.1 _).append (positions_classesFrom ss h.2 _ _)

end

end SchemaTidy
