import Mathlib.Data.List.Basic
import SchemaTidy.Proofs.Schema.Classes

/-!
# The schemas of a module

Detection applies its rule in rounds, each of which reads the names that the round before found. Main
statement: after as many rounds as there are classes, exactly the classes that the rule justifies
have been found.
-/

namespace SchemaTidy

namespace Detector

/-- The classes of a module that the rule justifies: a base has the suffix, or the name of a class
that is justified itself. -/
inductive IsSchema (d : Detector) (m : Module) : SchemaClass → Prop where
  | ofSuffix {c : SchemaClass} {base : Text} (hc : m.Declares c)
      (hbase : base ∈ c.signature.bases) (hsuffix : d.schemaSuffix <:+ base) : IsSchema d m c
  | ofSchema {c parent : SchemaClass} (hc : m.Declares c) (hparent : IsSchema d m parent)
      (hbase : parent.signature.name ∈ c.signature.bases) : IsSchema d m c

/-- The classes that a further round finds behind `n` rounds. -/
def found (d : Detector) (classes : List SchemaClass) (n : Nat) : List SchemaClass :=
  classes.filter fun c => d.qualifies (d.schemaNames classes n) c.signature

variable {d : Detector} {classes : List SchemaClass}

theorem schemaNames_succ (n : Nat) :
    d.schemaNames classes (n + 1) = (d.found classes n).map (·.signature.name) := rfl

theorem detect_eq_found (m : Module) : d.detect m = d.found m.classes m.classes.length := rfl

theorem qualifies_iff {names : List Text} {s : ClassSignature} :
    d.qualifies names s = true ↔
      (∃ base ∈ s.bases, d.schemaSuffix <:+ base) ∨ ∃ base ∈ s.bases, base ∈ names := by
  simp only [qualifies, List.any_eq_true, Bool.or_eq_true, isSchemaBase, List.isSuffixOf_iff_suffix,
    List.contains_iff_mem, ← exists_or, ← and_or_left]

theorem mem_found {n : Nat} {c : SchemaClass} :
    c ∈ d.found classes n ↔
      c ∈ classes ∧ d.qualifies (d.schemaNames classes n) c.signature = true :=
  List.mem_filter

theorem qualifies_mono {names names' : List Text} (h : names ⊆ names') {s : ClassSignature}
    (hs : d.qualifies names s = true) : d.qualifies names' s = true := by
  rw [qualifies_iff] at hs ⊢
  exact hs.imp_right fun ⟨base, hbase, hname⟩ => ⟨base, hbase, h hname⟩

theorem found_sublist_succ (n : Nat) :
    (d.found classes n).Sublist (d.found classes (n + 1)) := by
  have hnames : d.schemaNames classes n ⊆ d.schemaNames classes (n + 1) := by
    induction n with
    | zero => exact List.nil_subset _
    | succ n ih =>
        rw [schemaNames_succ, schemaNames_succ]
        refine List.map_subset _ fun c hc => ?_
        rw [mem_found] at hc ⊢
        exact ⟨hc.1, qualifies_mono ih hc.2⟩
  exact List.monotone_filter_right _ fun c hc => qualifies_mono hnames hc

/-- A round that finds nothing new is followed by rounds that find nothing new. -/
theorem found_eq_of_stable {n : Nat} (h : d.found classes (n + 1) = d.found classes n) (k : Nat) :
    d.found classes (n + k) = d.found classes n := by
  induction k with
  | zero => rfl
  | succ k ih =>
      have hnames : d.schemaNames classes (n + k + 1) = d.schemaNames classes (n + 1) := by
        rw [schemaNames_succ, schemaNames_succ, ih]
      calc d.found classes (n + k + 1)
          = d.found classes (n + 1) := by rw [found, found, hnames]
        _ = d.found classes n := h

/-- Either the rounds have come to rest, or each has found a class. -/
theorem stable_or_length_le (n : Nat) :
    d.found classes (n + 1) = d.found classes n ∨ n < (d.found classes (n + 1)).length := by
  have hlength (k : Nat) : d.found classes (k + 1) = d.found classes k ∨
      (d.found classes k).length < (d.found classes (k + 1)).length := by
    have hsublist : (d.found classes k).Sublist (d.found classes (k + 1)) := found_sublist_succ k
    rcases Nat.lt_or_eq_of_le hsublist.length_le with hlt | heq
    · exact .inr hlt
    · exact .inl (hsublist.eq_of_length heq).symm
  induction n with
  | zero => exact (hlength 0).imp_right fun h => by omega
  | succ n ih =>
      rcases ih with hstable | hn
      · left
        rw [show n + 1 + 1 = n + 2 from rfl, found_eq_of_stable hstable 2, hstable]
      · exact (hlength (n + 1)).imp_right fun h => by omega

/-- As many rounds as there are classes suffice. -/
theorem found_length_succ :
    d.found classes (classes.length + 1) = d.found classes classes.length := by
  refine (stable_or_length_le classes.length).resolve_right fun h => ?_
  have hle : (d.found classes (classes.length + 1)).length ≤ classes.length :=
    List.length_filter_le _ _
  omega

section Closure

variable {m : Module} {c : SchemaClass}

theorem isSchema_of_mem_found (hm : BodyWellFormed m.body) {n : Nat}
    (hc : c ∈ d.found m.classes n) : d.IsSchema m c := by
  induction n generalizing c with
  | zero =>
      obtain ⟨hclass, hqualifies⟩ := mem_found.mp hc
      rcases qualifies_iff.mp hqualifies with ⟨base, hbase, hsuffix⟩ | ⟨base, -, hname⟩
      · exact .ofSuffix ((Module.mem_classes_iff hm).mp hclass) hbase hsuffix
      · cases hname
  | succ n ih =>
      obtain ⟨hclass, hqualifies⟩ := mem_found.mp hc
      have hdeclares := (Module.mem_classes_iff hm).mp hclass
      rcases qualifies_iff.mp hqualifies with ⟨base, hbase, hsuffix⟩ | ⟨base, hbase, hname⟩
      · exact .ofSuffix hdeclares hbase hsuffix
      · rw [schemaNames_succ] at hname
        obtain ⟨parent, hparent, rfl⟩ := List.mem_map.mp hname
        exact .ofSchema hdeclares (ih hparent) hbase

/-- Every justified class is found in the end. -/
theorem mem_detect_of_isSchema (hm : BodyWellFormed m.body) (hc : d.IsSchema m c) :
    c ∈ d.detect m := by
  rw [detect_eq_found]
  induction hc with
  | ofSuffix hc hbase hsuffix =>
      exact mem_found.mpr
        ⟨(Module.mem_classes_iff hm).mpr hc, qualifies_iff.mpr (.inl ⟨_, hbase, hsuffix⟩)⟩
  | ofSchema hc _ hbase ih =>
      -- The name of the parent is known one round later, which finds no more than this one.
      rw [← found_length_succ]
      refine mem_found.mpr ⟨(Module.mem_classes_iff hm).mpr hc, qualifies_iff.mpr (.inr ⟨_, hbase, ?_⟩)⟩
      rw [schemaNames_succ]
      exact List.mem_map_of_mem ih

theorem mem_detect_iff (hm : BodyWellFormed m.body) : c ∈ d.detect m ↔ d.IsSchema m c :=
  ⟨fun hc => isSchema_of_mem_found hm (detect_eq_found m ▸ hc), mem_detect_of_isSchema hm⟩

end Closure

/-! ## Order -/

theorem found_signatures (n : Nat) :
    (d.found classes n).map (·.signature) =
      (classes.map (·.signature)).filter (d.qualifies (d.schemaNames classes n)) := by
  rw [List.filter_map]
  rfl

/-- The order of the classes matters for no round. -/
theorem found_perm {classes' : List SchemaClass}
    (h : (classes.map (·.signature)).Perm (classes'.map (·.signature))) (n : Nat) :
    ((d.found classes n).map (·.signature)).Perm ((d.found classes' n).map (·.signature)) := by
  have hfilter {names names' : List Text} (hnames : names.Perm names') :
      ((classes.map (·.signature)).filter (d.qualifies names)).Perm
        ((classes'.map (·.signature)).filter (d.qualifies names')) := by
    have hqualifies : d.qualifies names = d.qualifies names' := by
      funext s
      exact Bool.eq_iff_iff.mpr
        ⟨qualifies_mono hnames.subset, qualifies_mono hnames.symm.subset⟩
    rw [hqualifies]
    exact h.filter _
  rw [found_signatures, found_signatures]
  induction n with
  | zero => exact hfilter (List.Perm.refl _)
  | succ n ih =>
      refine hfilter ?_
      rw [schemaNames_succ, schemaNames_succ]
      rw [← found_signatures, ← found_signatures] at ih
      simpa [Function.comp_def] using ih.map ClassSignature.name

/-- What detection finds in a parsed module: exactly the justified classes, each once and in the order
of the file. The path of each leads to the statement that declares it, and the order of the classes
in a file does not matter. -/
theorem detect_justified {source : Text} {m : Module} (h : parse source = .ok m) (d : Detector) :
    (∀ c, c ∈ d.detect m ↔ d.IsSchema m c) ∧
      (d.detect m).Pairwise (·.path < ·.path) ∧
      ((d.detect m).map (·.position)).Sublist (m.tokens.map (·.position)) ∧
      (∀ c ∈ d.detect m, ∃ header newline block,
        m.statement? c.path = some (.compound (some c.signature) header newline block) ∧
          signatureOf? header = some c.signature ∧
          (Statement.compound (some c.signature) header newline block).position = c.position) ∧
      ∀ m' : Module, (m.classes.map (·.signature)).Perm (m'.classes.map (·.signature)) →
        ((d.detect m).map (·.signature)).Perm ((d.detect m').map (·.signature)) := by
  have hm := parse_wellFormed h
  have hsublist : (d.detect m).Sublist m.classes := List.filter_sublist
  refine ⟨fun c => mem_detect_iff hm, ?_, ?_, ?_, ?_⟩
  · exact (pairwise_classesFrom m.body hm [] 0).sublist hsublist
  · rw [Module.tokens, List.map_append]
    exact ((hsublist.map _).trans (positions_classesFrom m.body hm [] 0)).trans
      (List.sublist_append_left _ _)
  · intro c hc
    exact (Module.mem_classes_iff hm |>.mp (hsublist.subset hc)).exists_compound hm
  · intro m' hperm
    have hlength : m.classes.length = m'.classes.length := by
      simpa using hperm.length_eq
    rw [detect_eq_found, detect_eq_found, ← hlength]
    exact found_perm hperm _

/-- Forward references, a class in a class and below a condition, a circle, two classes of one name and
a class in a function. -/
def tangledClasses : Text :=
  ("if x:\n class A(B):\n  class I(A[int]):\n   x\nclass D(D):\n x\nclass B(D):\n x\n" ++
    "class B(m.Schema, b=D):\n x\ndef f():\n class F(Schema):\n  x\n").toList

theorem detect_justified_tangledClasses :
    ∃ m, parse tangledClasses = .ok m ∧
      m.classes.map (·.path) = [[0, 0], [0, 0, 0], [1], [2], [3]] ∧
      (detect {} m).map (·.path) = [[0, 0], [0, 0, 0], [3]] ∧
      ∀ c, IsSchema {} m c → c.path ∈ [[0, 0], [0, 0, 0], [3]] := by
  have hpaths : ((parse tangledClasses).toOption.map fun m =>
      (m.classes.map (·.path), (detect {} m).map (·.path))) =
        some ([[0, 0], [0, 0, 0], [1], [2], [3]], [[0, 0], [0, 0, 0], [3]]) := by
    decide +kernel
  cases hm : parse tangledClasses with
  | error e => simp [hm, Except.toOption] at hpaths
  | ok m =>
      rw [hm] at hpaths
      obtain ⟨hclasses, hdetect⟩ := Prod.mk.inj (Option.some.inj hpaths)
      refine ⟨m, rfl, hclasses, hdetect, fun c hc => ?_⟩
      rw [← hdetect]
      exact List.mem_map_of_mem (((detect_justified hm {}).1 c).mpr hc)

end Detector

end SchemaTidy
