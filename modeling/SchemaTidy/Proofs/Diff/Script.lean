import SchemaTidy.Diff.Compact

/-!
# Scripts lead from one list to the other

A script leads from a place in both lists to another one: kept stretches agree, deleted entries are
those of the old list at the place that is reached, and inserted ones those of the new list. Sliding and
joining steps keeps this. It does not keep the other place of a step, that of a deletion in the new list
and that of an insertion in the old one.
-/

namespace SchemaTidy

variable {α : Type}

/-- Two stretches of `n` entries agree. -/
structure Agrees (old new : List α) (i j n : Nat) : Prop where
  inOld : ∀ k < n, i + k < old.length
  same : ∀ k < n, old[i + k]? = new[j + k]?

/-- Steps that lead from a place in both lists to another. -/
inductive Leads (old new : List α) : Nat × Nat → List Step → Nat × Nat → Prop
  | nil (p : Nat × Nat) : Leads old new p [] p
  | equal {i j n : Nat} {ss : List Step} {q : Nat × Nat} (h : Agrees old new i j n)
      (hrest : Leads old new (i + n, j + n) ss q) : Leads old new (i, j) (⟨.equal, i, j, n⟩ :: ss) q
  | delete {i j k n : Nat} {ss : List Step} {q : Nat × Nat} (h : i + n ≤ old.length)
      (hrest : Leads old new (i + n, j) ss q) : Leads old new (i, j) (⟨.delete, i, k, n⟩ :: ss) q
  | insert {i j k n : Nat} {ss : List Step} {q : Nat × Nat} (h : j + n ≤ new.length)
      (hrest : Leads old new (i, j + n) ss q) : Leads old new (i, j) (⟨.insert, k, j, n⟩ :: ss) q

namespace Agrees

variable {old new : List α} {i j n : Nat}

theorem nil (old new : List α) (i j : Nat) : Agrees old new i j 0 :=
  ⟨by simp, by simp⟩

theorem inNew (h : Agrees old new i j n) {k : Nat} (hk : k < n) : j + k < new.length := by
  have hsome := h.same k hk
  rw [List.getElem?_eq_getElem (h.inOld k hk)] at hsome
  exact (List.getElem?_eq_some_iff.mp hsome.symm).1

theorem old_le (h : Agrees old new i j n) (hn : 0 < n) : i + n ≤ old.length := by
  have := h.inOld (n - 1) (by omega)
  omega

theorem new_le (h : Agrees old new i j n) (hn : 0 < n) : j + n ≤ new.length := by
  have := h.inNew (k := n - 1) (by omega)
  omega

theorem append {m : Nat} (h : Agrees old new i j n) (h' : Agrees old new (i + n) (j + n) m) :
    Agrees old new i j (n + m) where
  inOld k hk := by
    by_cases hlt : k < n
    · exact h.inOld k hlt
    · have := h'.inOld (k - n) (by omega)
      omega
  same k hk := by
    by_cases hlt : k < n
    · exact h.same k hlt
    · have hsame := h'.same (k - n) (by omega)
      rwa [show i + n + (k - n) = i + k by omega, show j + n + (k - n) = j + k by omega] at hsame

theorem take (h : Agrees old new i j n) {m : Nat} (hm : m ≤ n) : Agrees old new i j m where
  inOld k hk := h.inOld k (by omega)
  same k hk := h.same k (by omega)

theorem drop (h : Agrees old new i j n) {m : Nat} (hm : m ≤ n) :
    Agrees old new (i + m) (j + m) (n - m) where
  inOld k hk := by
    have := h.inOld (m + k) (by omega)
    omega
  same k hk := by
    have hsame := h.same (m + k) (by omega)
    rwa [← Nat.add_assoc, ← Nat.add_assoc] at hsame

theorem stretch_eq (h : Agrees old new i j n) : stretch old i n = stretch new j n := by
  apply List.ext_getElem?
  intro k
  simp only [stretch, List.getElem?_take, List.getElem?_drop]
  split
  · rename_i hk
    exact h.same k hk
  · rfl

end Agrees

namespace Leads

variable {old new : List α} {p q r : Nat × Nat} {ss ts : List Step}

theorem append (h : Leads old new p ss q) (h' : Leads old new q ts r) :
    Leads old new p (ss ++ ts) r := by
  induction h with
  | nil => exact h'
  | equal hagrees _ ih => exact .equal hagrees (ih h')
  | delete hin _ ih => exact .delete hin (ih h')
  | insert hin _ ih => exact .insert hin (ih h')

theorem split (h : Leads old new p (ss ++ ts) r) :
    ∃ q, Leads old new p ss q ∧ Leads old new q ts r := by
  induction ss generalizing p with
  | nil => exact ⟨p, .nil p, h⟩
  | cons s ss ih =>
      cases h with
      | equal hagrees hrest =>
          obtain ⟨q, hq, hq'⟩ := ih hrest
          exact ⟨q, .equal hagrees hq, hq'⟩
      | delete hin hrest =>
          obtain ⟨q, hq, hq'⟩ := ih hrest
          exact ⟨q, .delete hin hq, hq'⟩
      | insert hin hrest =>
          obtain ⟨q, hq, hq'⟩ := ih hrest
          exact ⟨q, .insert hin hq, hq'⟩

theorem split_cons {s : Step} (h : Leads old new p (s :: ss) r) :
    ∃ q, Leads old new p [s] q ∧ Leads old new q ss r := by
  rw [← List.singleton_append] at h
  exact h.split

end Leads

/-! ## Scripts -/

/-- The entries of a list are those of another one from a place on. -/
def IsStretch (xs : List α) (i : Nat) (ys : List α) : Prop :=
  ∀ k < xs.length, i + k < ys.length ∧ xs[k]? = ys[i + k]?

namespace IsStretch

variable {xs ys : List α} {i : Nat}

theorem take (h : IsStretch xs i ys) (n : Nat) : IsStretch (xs.take n) i ys := by
  intro k hk
  rw [List.length_take] at hk
  rw [List.getElem?_take_of_lt (by omega)]
  exact h k (by omega)

theorem drop (h : IsStretch xs i ys) (n : Nat) : IsStretch (xs.drop n) (i + (xs.take n).length) ys := by
  intro k hk
  rw [List.length_drop] at hk
  rw [List.length_take, Nat.min_eq_left (by omega), List.getElem?_drop, Nat.add_assoc]
  exact h (n + k) (by omega)

theorem length_le (h : IsStretch xs i ys) (hne : xs ≠ []) : i + xs.length ≤ ys.length := by
  have hpos := List.length_pos_iff.mpr hne
  have := (h (xs.length - 1) (by omega)).1
  omega

end IsStretch

theorem leads_equals {old new : List α} {i j a b n : Nat} (hold : 0 < n → i = a)
    (hnew : 0 < n → j = b) (h : Agrees old new a b n) :
    Leads old new (a, b) (Step.equals i j n) (a + n, b + n) := by
  unfold Step.equals
  split
  · rename_i hzero
    subst hzero
    exact .nil _
  · rename_i hne
    have hpos := Nat.pos_of_ne_zero hne
    rw [hold hpos, hnew hpos]
    exact .equal h (.nil _)

/-- The parts of two lists that have a common start of `p` entries and a common end of `s` further
ones. -/
structure Parts (os ns os₂ ns₂ : List α) (p s : Nat) : Prop where
  oldLength : os.length = p + os₂.length + s
  newLength : ns.length = p + ns₂.length + s
  start : ∀ k < p, os[k]? = ns[k]?
  ending : ∀ k < s, os[p + os₂.length + k]? = ns[p + ns₂.length + k]?
  old : os₂ = (os.drop p).take os₂.length
  new : ns₂ = (ns.drop p).take ns₂.length

namespace Parts

variable {os ns os₂ ns₂ : List α} {p s : Nat} (h : Parts os ns os₂ ns₂ p s)

include h

theorem isStretch_old {old : List α} {a : Nat} (hos : IsStretch os a old) :
    IsStretch os₂ (a + p) old := by
  have := h.oldLength
  have hdrop := (hos.drop p).take os₂.length
  rwa [← h.old, List.length_take, Nat.min_eq_left (by omega)] at hdrop

theorem isStretch_new {new : List α} {b : Nat} (hns : IsStretch ns b new) :
    IsStretch ns₂ (b + p) new := by
  have := h.newLength
  have hdrop := (hns.drop p).take ns₂.length
  rwa [← h.new, List.length_take, Nat.min_eq_left (by omega)] at hdrop

variable {old new : List α} {a b : Nat} (hos : IsStretch os a old) (hns : IsStretch ns b new)

include hos hns

theorem agrees_start : Agrees old new a b p where
  inOld k hk := by
    have := h.oldLength
    exact (hos k (by omega)).1
  same k hk := by
    have := h.oldLength
    have := h.newLength
    rw [← (hos k (by omega)).2, h.start k hk, (hns k (by omega)).2]

theorem agrees_end : Agrees old new (a + p + os₂.length) (b + p + ns₂.length) s where
  inOld k hk := by
    have := h.oldLength
    have := (hos (p + os₂.length + k) (by omega)).1
    omega
  same k hk := by
    have := h.oldLength
    have := h.newLength
    have hin := (hos (p + os₂.length + k) (by omega)).2
    have hin' := (hns (p + ns₂.length + k) (by omega)).2
    rw [h.ending k hk, hin', ← Nat.add_assoc, ← Nat.add_assoc, ← Nat.add_assoc,
      ← Nat.add_assoc] at hin
    exact hin.symm

end Parts

theorem length_take_add_length_drop (xs : List α) (n : Nat) :
    (xs.take n).length + (xs.drop n).length = xs.length := by
  rw [← List.length_append, List.take_append_drop]

theorem of_drop_ne_nil {xs : List α} {n : Nat} (h : xs.drop n ≠ []) :
    xs ≠ [] ∧ (xs.take n).length = n := by
  have hpos := List.length_pos_iff.mpr h
  rw [List.length_drop] at hpos
  exact ⟨List.length_pos_iff.mp (by omega), by rw [List.length_take]; omega⟩

section Script

variable [DecidableEq α]

theorem commonLength_le (xs ys : List α) :
    commonLength xs ys ≤ xs.length ∧ commonLength xs ys ≤ ys.length := by
  induction xs generalizing ys with
  | nil => simp [commonLength]
  | cons x xs ih =>
      cases ys with
      | nil => simp [commonLength]
      | cons y ys =>
          have := ih ys
          unfold commonLength
          split <;> simp only [List.length_cons] <;> omega

theorem getElem?_of_lt_commonLength {xs ys : List α} {k : Nat} (h : k < commonLength xs ys) :
    xs[k]? = ys[k]? := by
  induction xs generalizing ys k with
  | nil => simp [commonLength] at h
  | cons x xs ih =>
      cases ys with
      | nil => simp [commonLength] at h
      | cons y ys =>
          unfold commonLength at h
          split at h
          · rename_i hxy
            cases k with
            | zero => simp [hxy]
            | succ k => simpa using ih (by omega)
          · omega

theorem getElem?_of_commonEnd {xs ys : List α} {k : Nat}
    (h : k < commonLength xs.reverse ys.reverse) :
    xs[xs.length - commonLength xs.reverse ys.reverse + k]? =
      ys[ys.length - commonLength xs.reverse ys.reverse + k]? := by
  obtain ⟨hxs, hys⟩ := commonLength_le xs.reverse ys.reverse
  generalize hs : commonLength xs.reverse ys.reverse = s at *
  rw [List.length_reverse] at hxs hys
  have hlt : s - 1 - k < commonLength xs.reverse ys.reverse := by omega
  have hsame := getElem?_of_lt_commonLength hlt
  rw [List.getElem?_reverse (by omega), List.getElem?_reverse (by omega)] at hsame
  rwa [show xs.length - 1 - (s - 1 - k) = xs.length - s + k by omega,
    show ys.length - 1 - (s - 1 - k) = ys.length - s + k by omega] at hsame

theorem parts_commonLength (os ns : List α) :
    let p := commonLength os ns
    let s := commonLength (os.drop p).reverse (ns.drop p).reverse
    Parts os ns ((os.drop p).take ((os.drop p).length - s)) ((ns.drop p).take ((ns.drop p).length - s))
      p s := by
  intro p s
  obtain ⟨hpo, hpn⟩ : p ≤ os.length ∧ p ≤ ns.length := commonLength_le os ns
  obtain ⟨hso, hsn⟩ : s ≤ (os.drop p).length ∧ s ≤ (ns.drop p).length := by
    simpa using commonLength_le (os.drop p).reverse (ns.drop p).reverse
  have hold : ((os.drop p).take ((os.drop p).length - s)).length = os.length - p - s := by simp
  have hnew : ((ns.drop p).take ((ns.drop p).length - s)).length = ns.length - p - s := by simp
  rw [List.length_drop] at hso hsn
  refine ⟨by omega, by omega, fun k hk => getElem?_of_lt_commonLength hk, fun k hk => ?_, ?_, ?_⟩
  · have hsame := getElem?_of_commonEnd hk
    rw [List.getElem?_drop, List.getElem?_drop, List.length_drop, List.length_drop] at hsame
    rw [hold, hnew, Nat.add_assoc, Nat.add_assoc]
    exact hsame
  · rw [hold, List.length_drop]
  · rw [hnew, List.length_drop]

/-- A script leads from the start of its lists to their end. Where it says that its lists start matters
only for a list that is not empty. -/
theorem leads_scriptFrom {old new : List α} {os ns : List α} {i j a b : Nat}
    (hos : IsStretch os a old) (hns : IsStretch ns b new) (hi : os ≠ [] → i = a)
    (hj : ns ≠ [] → j = b) :
    Leads old new (a, b) (scriptFrom i j os ns) (a + os.length, b + ns.length) := by
  induction hn : os.length + ns.length using Nat.strongRecOn generalizing os ns i j a b with
  | ind n ih =>
      subst hn
      rw [scriptFrom]
      have hparts := parts_commonLength os ns
      simp only at hparts ⊢
      generalize commonLength os ns = p at *
      generalize commonLength (os.drop p).reverse (ns.drop p).reverse = s at *
      generalize (os.drop p).take ((os.drop p).length - s) = os₂ at *
      generalize (ns.drop p).take ((ns.drop p).length - s) = ns₂ at *
      have holdLength := hparts.oldLength
      have hnewLength := hparts.newLength
      have hos₂ := hparts.isStretch_old hos
      have hns₂ := hparts.isStretch_new hns
      have hi' (h : 0 < os.length) : i = a := hi (List.length_pos_iff.mp h)
      have hj' (h : 0 < ns.length) : j = b := hj (List.length_pos_iff.mp h)
      have hi₂ (h : os₂ ≠ []) : i + p = a + p := by
        rw [hi' (by have := List.length_pos_iff.mpr h; omega)]
      have hj₂ (h : ns₂ ≠ []) : j + p = b + p := by
        rw [hj' (by have := List.length_pos_iff.mpr h; omega)]
      have hfirst : Leads old new (a, b) (Step.equals i j p) (a + p, b + p) :=
        leads_equals (fun h => hi' (by omega)) (fun h => hj' (by omega))
          (hparts.agrees_start hos hns)
      have hlast : Leads old new (a + p + os₂.length, b + p + ns₂.length)
          (Step.equals (i + p + os₂.length) (j + p + ns₂.length) s)
          (a + os.length, b + ns.length) := by
        rw [show a + os.length = a + p + os₂.length + s by omega,
          show b + ns.length = b + p + ns₂.length + s by omega]
        exact leads_equals (fun h => by rw [hi' (by omega)]) (fun h => by rw [hj' (by omega)])
          (hparts.agrees_end hos hns)
      refine (hfirst.append ?_).append hlast
      have hdelete (h : os₂ ≠ []) {q : Nat × Nat} {ss : List Step}
          (hrest : Leads old new (a + p + os₂.length, b + p) ss q) :
          Leads old new (a + p, b + p) (⟨.delete, i + p, j + p, os₂.length⟩ :: ss) q := by
        rw [hi₂ h]
        exact .delete (hos₂.length_le h) hrest
      have hinsert (h : ns₂ ≠ []) (c : Nat) :
          Leads old new (c, b + p) [⟨.insert, i + p, j + p, ns₂.length⟩] (c, b + p + ns₂.length) := by
        rw [hj₂ h]
        exact .insert (hns₂.length_le h) (.nil _)
      by_cases hoe : os₂ = []
      · by_cases hne : ns₂ = []
        · simpa [hoe, hne] using Leads.nil (a + p, b + p)
        · simpa [hoe, hne] using hinsert hne (a + p)
      by_cases hne : ns₂ = []
      · simpa [hoe, hne] using hdelete hoe (.nil _)
      have hreplace := hdelete hoe (hinsert hne (a + p + os₂.length))
      rw [if_neg (by simp [hoe]), if_neg (by simpa using hne), if_neg (by simpa using hoe)]
      cases middle? os₂ ns₂ with
      | none => exact hreplace
      | some point =>
          obtain ⟨x, y⟩ := point
          simp only
          split
          · rename_i hsmaller
            have hleft := ih _ hsmaller.1 (hos₂.take x) (hns₂.take y)
              (fun h => hi₂ fun he => h (by rw [he, List.take_nil]))
              (fun h => hj₂ fun he => h (by rw [he, List.take_nil])) rfl
            have hright := ih _ hsmaller.2 (i := i + p + x) (j := j + p + y) (hos₂.drop x)
              (hns₂.drop y)
              (fun h => by rw [hi₂ (of_drop_ne_nil h).1, (of_drop_ne_nil h).2])
              (fun h => by rw [hj₂ (of_drop_ne_nil h).1, (of_drop_ne_nil h).2]) rfl
            have hboth := hleft.append hright
            rwa [Nat.add_assoc (a + p), Nat.add_assoc (b + p), length_take_add_length_drop,
              length_take_add_length_drop] at hboth
          · exact hreplace

theorem leads_script (old new : List α) :
    Leads old new (0, 0) (script old new) (old.length, new.length) := by
  have hwhole (xs : List α) : IsStretch xs 0 xs := fun k hk => by
    rw [Nat.zero_add]
    exact ⟨hk, rfl⟩
  simpa [script] using leads_scriptFrom (hwhole old) (hwhole new) (fun _ => rfl) (fun _ => rfl)

end Script

end SchemaTidy
