import Mathlib.Data.Char
import Mathlib.Data.List.Nodup
import SchemaTidy.Files.PathText

/-!
# Orders of texts and paths

Texts are in lexicographic order. Paths are in the lexicographic order of their steps, in which two
spellings of one path are equal. A sorted list of paths holds each path once, and it is determined by the
paths that it holds.
-/

namespace SchemaTidy

namespace Text

theorem le_refl (t : Text) : le t t = true := by
  induction t with
  | nil => rfl
  | cons c t ih => simp [le, ih]

theorem le_total (t u : Text) : (le t u || le u t) = true := by
  induction t generalizing u with
  | nil => rfl
  | cons c t ih =>
      cases u with
      | nil => rfl
      | cons d u =>
          have htail := ih u
          simp only [le, Bool.or_eq_true, decide_eq_true_eq, Bool.and_eq_true, beq_iff_eq] at htail ⊢
          rcases lt_trichotomy c d with hlt | rfl | hlt
          · exact .inl (.inl hlt)
          · exact htail.imp (fun h => .inr ⟨rfl, h⟩) fun h => .inr ⟨rfl, h⟩
          · exact .inr (.inl hlt)

theorem le_trans {t u v : Text} (htu : le t u = true) (huv : le u v = true) : le t v = true := by
  induction t generalizing u v with
  | nil => rfl
  | cons c t ih =>
      cases u with
      | nil => cases htu
      | cons d u =>
          cases v with
          | nil => cases huv
          | cons e v =>
              simp only [le, Bool.or_eq_true, decide_eq_true_eq, Bool.and_eq_true,
                beq_iff_eq] at htu huv ⊢
              rcases htu with hcd | ⟨rfl, htu⟩
              · rcases huv with hde | ⟨rfl, -⟩
                · exact .inl (lt_trans hcd hde)
                · exact .inl hcd
              · rcases huv with hde | ⟨rfl, huv⟩
                · exact .inl hde
                · exact .inr ⟨rfl, ih htu huv⟩

theorem le_antisymm {t u : Text} (htu : le t u = true) (hut : le u t = true) : t = u := by
  induction t generalizing u with
  | nil =>
      cases u with
      | nil => rfl
      | cons d u => cases hut
  | cons c t ih =>
      cases u with
      | nil => cases htu
      | cons d u =>
          simp only [le, Bool.or_eq_true, decide_eq_true_eq, Bool.and_eq_true, beq_iff_eq] at htu hut
          rcases htu with hcd | ⟨rfl, htu⟩
          · rcases hut with hdc | ⟨rfl, -⟩
            · exact absurd hdc (lt_asymm hcd)
            · exact absurd hcd (lt_irrefl _)
          · rcases hut with hcc | ⟨-, hut⟩
            · exact absurd hcc (lt_irrefl _)
            · rw [ih htu hut]

end Text

namespace PathStep

theorem le_total (a b : PathStep) : a.le b = true ∨ b.le a = true := by
  cases a with
  | name t =>
      cases b with
      | name u =>
          have htotal := Text.le_total t u
          rwa [Bool.or_eq_true] at htotal
      | root | current | parent => exact .inr (by simp [le])
  | root | current | parent => cases b <;> simp [le]

theorem le_trans {a b c : PathStep} (hab : a.le b = true) (hbc : b.le c = true) : a.le c = true := by
  cases a with
  | name t =>
      cases b with
      | name u =>
          cases c with
          | name v => exact Text.le_trans hab hbc
          | root | current | parent => cases hbc
      | root | current | parent => cases hab
  | root => rfl
  | current | parent => cases b <;> cases c <;> simp_all [le]

theorem le_antisymm {a b : PathStep} (hab : a.le b = true) (hba : b.le a = true) : a = b := by
  cases a with
  | name t =>
      cases b with
      | name u => rw [Text.le_antisymm hab hba]
      | root | current | parent => cases hab
  | root | current | parent => cases b <;> simp_all [le]

end PathStep

namespace PathText

theorem stepsLe_cons {a b : PathStep} {as bs : List PathStep} :
    stepsLe (a :: as) (b :: bs) = true ↔
      (a = b ∧ stepsLe as bs = true) ∨ (a ≠ b ∧ a.le b = true) := by
  rw [stepsLe]
  by_cases hab : a = b
  · simp [hab]
  · simp [hab]

theorem stepsLe_total (as bs : List PathStep) : stepsLe as bs = true ∨ stepsLe bs as = true := by
  induction as generalizing bs with
  | nil => exact .inl (by rw [stepsLe])
  | cons a as ih =>
      cases bs with
      | nil => exact .inr (by rw [stepsLe])
      | cons b bs =>
          rw [stepsLe_cons, stepsLe_cons]
          by_cases hab : a = b
          · subst hab
            exact (ih bs).imp (fun h => .inl ⟨rfl, h⟩) fun h => .inl ⟨rfl, h⟩
          · exact (a.le_total b).imp (fun h => .inr ⟨hab, h⟩) fun h => .inr ⟨Ne.symm hab, h⟩

theorem stepsLe_trans {as bs cs : List PathStep} (hab : stepsLe as bs = true)
    (hbc : stepsLe bs cs = true) : stepsLe as cs = true := by
  induction as generalizing bs cs with
  | nil => rw [stepsLe]
  | cons a as ih =>
      cases bs with
      | nil => cases hab
      | cons b bs =>
          cases cs with
          | nil => cases hbc
          | cons c cs =>
              rw [stepsLe_cons] at hab hbc ⊢
              rcases hab with ⟨rfl, hab⟩ | ⟨hne, hab⟩
              · rcases hbc with ⟨rfl, hbc⟩ | hbc
                · exact .inl ⟨rfl, ih hab hbc⟩
                · exact .inr hbc
              · rcases hbc with ⟨rfl, -⟩ | ⟨hne', hbc⟩
                · exact .inr ⟨hne, hab⟩
                · apply Or.inr
                  apply And.intro _ (PathStep.le_trans hab hbc)
                  rintro rfl
                  exact hne (PathStep.le_antisymm hab hbc)

theorem stepsLe_antisymm {as bs : List PathStep} (hab : stepsLe as bs = true)
    (hba : stepsLe bs as = true) : as = bs := by
  induction as generalizing bs with
  | nil =>
      cases bs with
      | nil => rfl
      | cons b bs => cases hba
  | cons a as ih =>
      cases bs with
      | nil => cases hab
      | cons b bs =>
          rw [stepsLe_cons] at hab hba
          rcases hab with ⟨rfl, hab⟩ | ⟨hne, hab⟩
          · rcases hba with ⟨-, hba⟩ | ⟨hne, -⟩
            · rw [ih hab hba]
            · exact absurd rfl hne
          · rcases hba with ⟨rfl, -⟩ | ⟨-, hba⟩
            · exact absurd rfl hne
            · exact absurd (PathStep.le_antisymm hab hba) hne

/-- Whether a path comes before another one, two spellings of one path being equal. -/
def Precedes (p q : Text) : Prop := stepsLe (steps p) (steps q) = true ∧ steps p ≠ steps q

/-! ## Sorted lists of paths -/

theorem mem_of_mem_insert {path q : Text} {ps : List Text} (h : q ∈ insert path ps) :
    q = path ∨ q ∈ ps := by
  induction ps with
  | nil => exact .inl (List.mem_singleton.mp h)
  | cons p ps ih =>
      unfold insert at h
      split at h
      · exact .inr h
      split at h
      · exact List.mem_cons.mp h
      · rcases List.mem_cons.mp h with rfl | h
        · exact .inr (List.mem_cons_self ..)
        · exact (ih h).imp_right (List.mem_cons_of_mem p)

theorem mem_steps_insert {path : Text} {ps : List Text} {s : List PathStep} :
    s ∈ (insert path ps).map steps ↔ s = steps path ∨ s ∈ ps.map steps := by
  induction ps with
  | nil => simp [insert]
  | cons p ps ih =>
      unfold insert
      split
      · rename_i hsame
        rw [List.map_cons, List.mem_cons, eq_of_beq hsame, ← or_assoc, or_self]
      split
      · rw [List.map_cons, List.mem_cons]
      · rw [List.map_cons, List.mem_cons, ih, List.map_cons, List.mem_cons, or_left_comm]

theorem pairwise_insert {path : Text} {ps : List Text} (h : ps.Pairwise Precedes) :
    (insert path ps).Pairwise Precedes := by
  induction ps with
  | nil => exact List.pairwise_singleton _ _
  | cons p ps ih =>
      obtain ⟨hp, hps⟩ := List.pairwise_cons.mp h
      unfold insert
      split
      · exact h
      rename_i hne
      have hne : steps path ≠ steps p := by simpa using hne
      split
      · rename_i hle
        apply List.pairwise_cons.mpr ⟨_, h⟩
        intro q hq
        rcases List.mem_cons.mp hq with rfl | hq
        · exact ⟨hle, hne⟩
        · obtain ⟨hpq, hdiffer⟩ := hp q hq
          apply And.intro (stepsLe_trans hle hpq)
          intro hsame
          rw [hsame] at hle
          exact hdiffer (stepsLe_antisymm hpq hle)
      · rename_i hnle
        apply List.pairwise_cons.mpr ⟨_, ih hps⟩
        intro q hq
        rcases mem_of_mem_insert hq with rfl | hq
        · exact ⟨(stepsLe_total _ _).resolve_left hnle, Ne.symm hne⟩
        · exact hp q hq

section Sorted

variable {paths : List Text}

theorem pairwise_sort (paths : List Text) : (sort paths).Pairwise Precedes := by
  have hfold (ps : List Text) (hps : ps.Pairwise Precedes) :
      (paths.foldl (fun sorted p => insert p sorted) ps).Pairwise Precedes := by
    induction paths generalizing ps with
    | nil => exact hps
    | cons p paths ih => exact ih _ (pairwise_insert hps)
  exact hfold [] List.Pairwise.nil

theorem mem_of_mem_sort {q : Text} (h : q ∈ sort paths) : q ∈ paths := by
  have hfold (ps : List Text) (hq : q ∈ paths.foldl (fun sorted p => insert p sorted) ps) :
      q ∈ ps ∨ q ∈ paths := by
    clear h
    induction paths generalizing ps with
    | nil => exact .inl hq
    | cons p paths ih =>
        rcases ih (insert p ps) hq with h | h
        · rcases mem_of_mem_insert h with rfl | h
          · exact .inr (List.mem_cons_self ..)
          · exact .inl h
        · exact .inr (List.mem_cons_of_mem p h)
  exact (hfold [] h).resolve_left (List.not_mem_nil)

theorem mem_steps_sort {s : List PathStep} : s ∈ (sort paths).map steps ↔ s ∈ paths.map steps := by
  have hfold (ps : List Text) :
      s ∈ (paths.foldl (fun sorted p => insert p sorted) ps).map steps ↔
        s ∈ ps.map steps ∨ s ∈ paths.map steps := by
    induction paths generalizing ps with
    | nil => simp
    | cons p paths ih =>
        rw [List.foldl_cons, ih, mem_steps_insert, List.map_cons, List.mem_cons, or_assoc,
          or_left_comm]
  simpa [sort] using hfold []

theorem map_steps_eq {ps qs : List Text} (hps : ps.Pairwise Precedes) (hqs : qs.Pairwise Precedes)
    (h : ∀ s, s ∈ ps.map steps ↔ s ∈ qs.map steps) : ps.map steps = qs.map steps := by
  have hnodup {ps : List Text} (hps : ps.Pairwise Precedes) : (ps.map steps).Nodup :=
    List.pairwise_map.mpr (hps.imp fun h => h.2)
  have hsorted {ps : List Text} (hps : ps.Pairwise Precedes) :
      (ps.map steps).Pairwise (stepsLe · · = true) :=
    List.pairwise_map.mpr (hps.imp fun h => h.1)
  have hperm := (List.perm_ext_iff_of_nodup (hnodup hps) (hnodup hqs)).mpr h
  exact hperm.eq_of_pairwise (fun _ _ _ _ => stepsLe_antisymm) (hsorted hps) (hsorted hqs)

end Sorted

end PathText

end SchemaTidy
