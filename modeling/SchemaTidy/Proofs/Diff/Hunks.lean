import SchemaTidy.Diff.Unified
import SchemaTidy.Proofs.Diff.Script

/-!
# Hunks cover what changes

The changes of a script lead where the script leads, and the hunks made of them leave out only
stretches that both lists share. Where a change says that it stands is right on the side on which it
holds any entries; the other side matters only in the head of a hunk that starts or ends with such a
change, and only the hunks at both ends of the lists can.
-/

namespace SchemaTidy

variable {α : Type} {old new : List α}

/-- Changes that lead from a place in both lists to another. -/
inductive Spans (old new : List α) : Nat × Nat → List Change → Nat × Nat → Prop
  | nil (p : Nat × Nat) : Spans old new p [] p
  | equal {i j n : Nat} {cs : List Change} {q : Nat × Nat} (h : Agrees old new i j n)
      (hrest : Spans old new (i + n, j + n) cs q) : Spans old new (i, j) (.equal i j n :: cs) q
  | replace {i j : Nat} {c : Change} {cs : List Change} {q : Nat × Nat} (hkind : c.isEqual = false)
      (hold : 0 < c.oldLength → c.old = i ∧ i + c.oldLength ≤ old.length)
      (hnew : 0 < c.newLength → c.new = j ∧ j + c.newLength ≤ new.length)
      (hrest : Spans old new (i + c.oldLength, j + c.newLength) cs q) : Spans old new (i, j) (c :: cs) q

/-- A stretch that both lists share lies between two places. -/
def Skips (old new : List α) (p q : Nat × Nat) : Prop :=
  ∃ n, Agrees old new p.1 p.2 n ∧ q = (p.1 + n, p.2 + n)

namespace Skips

variable {p q r : Nat × Nat}

theorem refl (p : Nat × Nat) : Skips old new p p := ⟨0, .nil old new _ _, rfl⟩

theorem trans (h : Skips old new p q) (h' : Skips old new q r) : Skips old new p r := by
  obtain ⟨n, hn, rfl⟩ := h
  obtain ⟨m, hm, rfl⟩ := h'
  exact ⟨n + m, hn.append hm, by rw [Nat.add_assoc, Nat.add_assoc]⟩

end Skips

namespace Spans

variable {p q r : Nat × Nat} {cs ds : List Change}

theorem append (h : Spans old new p cs q) (h' : Spans old new q ds r) :
    Spans old new p (cs ++ ds) r := by
  induction h with
  | nil => exact h'
  | equal hagrees _ ih => exact .equal hagrees (ih h')
  | replace hkind hold hnew _ ih => exact .replace hkind hold hnew (ih h')

theorem split (h : Spans old new p (cs ++ ds) r) :
    ∃ q, Spans old new p cs q ∧ Spans old new q ds r := by
  induction cs generalizing p with
  | nil => exact ⟨p, .nil p, h⟩
  | cons c cs ih =>
      cases h with
      | equal hagrees hrest =>
          obtain ⟨q, hq, hq'⟩ := ih hrest
          exact ⟨q, .equal hagrees hq, hq'⟩
      | replace hkind hold hnew hrest =>
          obtain ⟨q, hq, hq'⟩ := ih hrest
          exact ⟨q, .replace hkind hold hnew hq, hq'⟩

theorem split_cons {c : Change} (h : Spans old new p (c :: cs) r) :
    ∃ q, Spans old new p [c] q ∧ Spans old new q cs r := by
  rw [← List.singleton_append] at h
  exact h.split

theorem eq_of_nil (h : Spans old new p [] q) : q = p := by
  cases h with
  | nil => rfl

theorem of_isEqual {c : Change} (h : Spans old new p [c] q) (hc : c.isEqual = true) :
    ∃ n, c = .equal p.1 p.2 n ∧ Agrees old new p.1 p.2 n ∧ q = (p.1 + n, p.2 + n) := by
  cases h with
  | equal hagrees hrest => exact ⟨_, rfl, hagrees, hrest.eq_of_nil⟩
  | replace hkind _ _ _ => rw [hkind] at hc; cases hc

theorem of_not_isEqual {c : Change} (h : Spans old new p [c] q) (hc : c.isEqual = false) :
    (0 < c.oldLength → c.old = p.1 ∧ p.1 + c.oldLength ≤ old.length) ∧
      (0 < c.newLength → c.new = p.2 ∧ p.2 + c.newLength ≤ new.length) ∧
      q = (p.1 + c.oldLength, p.2 + c.newLength) := by
  cases h with
  | equal _ _ => cases hc
  | replace _ hold hnew hrest => exact ⟨hold, hnew, hrest.eq_of_nil⟩

theorem skips_of_isEqual {c : Change} (h : Spans old new p [c] q) (hc : c.isEqual = true) :
    Skips old new p q := by
  obtain ⟨n, -, hagrees, hq⟩ := h.of_isEqual hc
  exact ⟨n, hagrees, hq⟩

end Spans

/-! ## The changes of a script -/

variable {p q r : Nat × Nat}

theorem spans_ofStep {s : Step} (h : Leads old new p [s] q) : Spans old new p [.ofStep s] q := by
  cases h with
  | equal hagrees hrest =>
      cases hrest with
      | nil => exact .equal hagrees (.nil _)
  | delete hin hrest =>
      cases hrest with
      | nil => exact .replace rfl (fun _ => ⟨rfl, hin⟩) nofun (.nil _)
  | insert hin hrest =>
      cases hrest with
      | nil => exact .replace rfl nofun (fun _ => ⟨rfl, hin⟩) (.nil _)

theorem spans_join? {c d : Change} {s : Step} (hc : Spans old new p [c] q)
    (hs : Leads old new q [s] r) (hd : c.join? s = some d) : Spans old new p [d] r := by
  cases hs with
  | @equal i j n _ _ hagrees hrest =>
      cases hrest with
      | nil =>
          simp only [Change.join?] at hd
          split at hd
          · rename_i hequal
            obtain ⟨m, rfl, hagrees', hq⟩ := hc.of_isEqual hequal
            cases hq
            cases hd
            have hjoined := Spans.equal (hagrees'.append hagrees) (.nil _)
            rwa [← Nat.add_assoc, ← Nat.add_assoc] at hjoined
          · cases hd
  | @delete i j k n _ _ hin hrest =>
      cases hrest with
      | nil =>
          simp only [Change.join?] at hd
          split at hd
          · cases hd
          rename_i hnotEqual
          rw [Bool.not_eq_true] at hnotEqual
          obtain ⟨hold, hnew, hq⟩ := hc.of_not_isEqual hnotEqual
          obtain ⟨rfl, rfl⟩ := Prod.mk.inj hq
          split at hd <;> cases hd
          · rename_i hzero
            rw [hzero, Nat.add_zero] at hin ⊢
            exact .replace hnotEqual (fun _ => ⟨rfl, hin⟩) hnew (.nil _)
          · rename_i hpos
            rw [Nat.add_assoc] at hin ⊢
            exact .replace hnotEqual (fun _ => ⟨(hold (Nat.pos_of_ne_zero hpos)).1, hin⟩) hnew (.nil _)
  | @insert i j k n _ _ hin hrest =>
      cases hrest with
      | nil =>
          simp only [Change.join?] at hd
          split at hd
          · cases hd
          rename_i hnotEqual
          rw [Bool.not_eq_true] at hnotEqual
          obtain ⟨hold, hnew, hq⟩ := hc.of_not_isEqual hnotEqual
          obtain ⟨rfl, rfl⟩ := Prod.mk.inj hq
          split at hd <;> cases hd
          · rename_i hzero
            rw [hzero, Nat.add_zero] at hin ⊢
            exact .replace hnotEqual hold (fun _ => ⟨rfl, hin⟩) (.nil _)
          · rename_i hpos
            rw [Nat.add_assoc] at hin ⊢
            exact .replace hnotEqual hold (fun _ => ⟨(hnew (Nat.pos_of_ne_zero hpos)).1, hin⟩) (.nil _)

theorem spans_ofStepsFrom {c : Change} {ss : List Step} (hc : Spans old new p [c] q)
    (hs : Leads old new q ss r) : Spans old new p (Change.ofStepsFrom c ss) r := by
  induction ss generalizing c p q with
  | nil =>
      cases hs with
      | nil => exact hc
  | cons s ss ih =>
      obtain ⟨q', hs, hss⟩ := hs.split_cons
      rw [Change.ofStepsFrom]
      split
      · rename_i d hd
        exact ih (spans_join? hc hs hd) hss
      · exact hc.append (ih (spans_ofStep hs) hss)

theorem spans_ofSteps {ss : List Step} (hs : Leads old new p ss q) :
    Spans old new p (Change.ofSteps ss) q := by
  cases ss with
  | nil =>
      cases hs with
      | nil => exact .nil _
  | cons s ss =>
      obtain ⟨q', hs, hss⟩ := hs.split_cons
      exact spans_ofStepsFrom (spans_ofStep hs) hss

/-! ## Context -/

/-- The first change says where it starts in the old list. -/
def StartsAt (i : Nat) (cs : List Change) : Prop := ∀ c ∈ cs.head?, c.old = i

/-- The last change says where it ends in the old list. -/
def EndsAt (i : Nat) (cs : List Change) : Prop := ∀ c ∈ cs.getLast?, c.old + c.oldLength = i

instance (i : Nat) (cs : List Change) : Decidable (StartsAt i cs) :=
  inferInstanceAs (Decidable (∀ c ∈ cs.head?, c.old = i))

instance (i : Nat) (cs : List Change) : Decidable (EndsAt i cs) :=
  inferInstanceAs (Decidable (∀ c ∈ cs.getLast?, c.old + c.oldLength = i))

theorem startsAt_cons {i : Nat} {c : Change} {cs : List Change} :
    StartsAt i (c :: cs) ↔ c.old = i := by simp [StartsAt]

theorem endsAt_concat {i : Nat} {c : Change} {cs : List Change} :
    EndsAt i (cs ++ [c]) ↔ c.old + c.oldLength = i := by simp [EndsAt]

theorem endsAt_append {i : Nat} {ds : List Change} (h : ds ≠ []) (cs : List Change) :
    EndsAt i (cs ++ ds) ↔ EndsAt i ds := by
  rw [EndsAt, EndsAt, List.getLast?_append, List.getLast?_eq_some_getLast h, Option.some_or]

theorem Spans.place_of_isEqual {c : Change} (h : Spans old new p [c] q)
    (hc : c.isEqual = true) : c.old = p.1 ∧ c.old + c.oldLength = q.1 := by
  obtain ⟨n, rfl, -, rfl⟩ := h.of_isEqual hc
  exact ⟨rfl, rfl⟩

theorem Change.isEqual_trimStart (c : Change) : c.trimStart.isEqual = c.isEqual := by
  unfold Change.trimStart
  split
  · rename_i h
    exact h.symm
  · rfl

theorem Change.isEqual_trimEnd (c : Change) : c.trimEnd.isEqual = c.isEqual := by
  unfold Change.trimEnd
  split
  · rename_i h
    exact h.symm
  · rfl

theorem spans_trimStart {c : Change} (h : Spans old new p [c] q) :
    ∃ p', Skips old new p p' ∧ Spans old new p' [c.trimStart] q ∧
      (c.old = p.1 ↔ c.trimStart.old = p'.1) ∧
      c.trimStart.old + c.trimStart.oldLength = c.old + c.oldLength ∧
      (c.isEqual = false → p' = p) := by
  unfold Change.trimStart
  split
  · rename_i hequal
    obtain ⟨n, rfl, hagrees, rfl⟩ := h.of_isEqual hequal
    simp only [Change.equal]
    have hle : n - contextLines ≤ n := Nat.sub_le _ _
    refine ⟨_, ⟨n - contextLines, hagrees.take hle, rfl⟩, ?_, by simp, by omega, by simp⟩
    have hcut := Spans.equal (hagrees.drop hle) (.nil _)
    rwa [Nat.add_assoc, Nat.add_assoc, Nat.add_sub_cancel' hle] at hcut
  · exact ⟨p, .refl p, h, .rfl, rfl, fun _ => rfl⟩

theorem spans_trimEnd {c : Change} (h : Spans old new p [c] q) :
    ∃ q', Spans old new p [c.trimEnd] q' ∧ Skips old new q' q ∧ c.trimEnd.old = c.old ∧
      (c.old + c.oldLength = q.1 ↔ c.trimEnd.old + c.trimEnd.oldLength = q'.1) ∧
      (c.isEqual = false → q' = q) := by
  unfold Change.trimEnd
  split
  · rename_i hequal
    obtain ⟨n, rfl, hagrees, rfl⟩ := h.of_isEqual hequal
    simp only [Change.equal]
    have hle : min n contextLines ≤ n := Nat.min_le_left _ _
    refine ⟨_, .equal (hagrees.take hle) (.nil _), ⟨n - min n contextLines, hagrees.drop hle, ?_⟩,
      trivial, by simp, by simp⟩
    rw [Nat.add_assoc, Nat.add_assoc, Nat.add_sub_cancel' hle]
  · exact ⟨q, h, .refl q, rfl, .rfl, fun _ => rfl⟩

/-- A kept stretch longer than twice the context leaves some lines between its two ends. -/
theorem spans_trim_both {c : Change} (h : Spans old new p [c] q) (hc : c.isEqual = true)
    (hlong : 2 * contextLines < c.oldLength) :
    ∃ p' q', Spans old new p [c.trimEnd] p' ∧ Skips old new p' q' ∧
      Spans old new q' [c.trimStart] q := by
  obtain ⟨n, rfl, hagrees, rfl⟩ := h.of_isEqual hc
  simp only [Change.equal, contextLines] at hlong
  have hend : (Change.equal p.1 p.2 n).trimEnd = .equal p.1 p.2 3 := by
    simp only [Change.trimEnd, Change.equal, contextLines, if_true]
    rw [Nat.min_eq_right (by omega)]
  have hstart : (Change.equal p.1 p.2 n).trimStart =
      .equal (p.1 + (n - 3)) (p.2 + (n - 3)) (n - (n - 3)) := rfl
  have hgap := (hagrees.take (m := n - 3) (by omega)).drop (m := 3) (by omega)
  have hlast := Spans.equal (hagrees.drop (m := n - 3) (by omega)) (.nil _)
  rw [Nat.add_assoc, Nat.add_assoc, Nat.add_sub_cancel' (by omega)] at hlast
  rw [hend, hstart]
  refine ⟨_, _, .equal (hagrees.take (by omega)) (.nil _), ⟨n - 3 - 3, hgap, rfl⟩, ?_⟩
  rwa [Nat.add_assoc, Nat.add_assoc, Nat.add_sub_cancel' (by omega)]

theorem modify_last {β : Type} (f : β → β) (xs : List β) (x : β) :
    (xs ++ [x]).modify ((xs ++ [x]).length - 1) f = xs ++ [f x] := by
  rw [List.length_append, List.length_singleton, Nat.add_sub_cancel]
  induction xs with
  | nil => rfl
  | cons y xs ih => simpa using ih

theorem trimContext_concat (c x : Change) (ds : List Change) :
    trimContext (c :: (ds ++ [x])) = c.trimStart :: (ds ++ [x.trimEnd]) :=
  modify_last Change.trimEnd (c.trimStart :: ds) x

/-- Changes with their context cut leave out kept stretches at both ends. They say where they start and
end as they did before, and only kept stretches are cut. -/
theorem spans_trimContext {cs : List Change} (h : Spans old new p cs q) :
    ∃ p' q', Skips old new p p' ∧ Spans old new p' (trimContext cs) q' ∧ Skips old new q' q ∧
      (StartsAt p.1 cs ↔ StartsAt p'.1 (trimContext cs)) ∧
      (EndsAt q.1 cs ↔ EndsAt q'.1 (trimContext cs)) ∧
      (∀ c ∈ (trimContext cs).head?, c.isEqual = false → p' = p) ∧
      ∀ c ∈ (trimContext cs).getLast?, c.isEqual = false → q' = q := by
  cases cs with
  | nil => exact ⟨p, q, .refl p, h, .refl q, .rfl, .rfl, fun _ _ _ => rfl, fun _ _ _ => rfl⟩
  | cons c cs =>
      obtain ⟨m, hc, hcs⟩ := h.split_cons
      obtain ⟨p', hskip, hd, hstart, hstop, hfirst⟩ := spans_trimStart hc
      rcases List.eq_nil_or_concat cs with rfl | ⟨ds, x, rfl⟩
      · obtain rfl := hcs.eq_of_nil
        obtain ⟨q', hd', hskip', hold, hstop', hlast⟩ := spans_trimEnd hd
        have htrim : trimContext [c] = [c.trimStart.trimEnd] := rfl
        have hkind : c.trimStart.trimEnd.isEqual = c.isEqual :=
          (Change.isEqual_trimEnd _).trans c.isEqual_trimStart
        rw [htrim]
        refine ⟨p', q', hskip, hd', hskip', ?_, ?_, ?_, ?_⟩
        · rw [startsAt_cons, startsAt_cons, hold, hstart]
        · simp only [EndsAt, List.getLast?_singleton, Option.mem_some_iff, forall_eq', ← hstop, hstop']
        · simpa [hkind] using hfirst
        · simpa [hkind, ← c.isEqual_trimStart] using hlast
      · rw [List.concat_eq_append] at hcs ⊢
        obtain ⟨m', hds, hx⟩ := hcs.split
        obtain ⟨q', hx', hskip', hold, hstop', hlast⟩ := spans_trimEnd hx
        rw [trimContext_concat]
        refine ⟨p', q', hskip, hd.append (hds.append hx'), hskip', ?_, ?_, ?_, ?_⟩
        · rw [startsAt_cons, startsAt_cons, hstart]
        · rw [← List.cons_append, ← List.cons_append, endsAt_concat, endsAt_concat, hstop']
        · simpa [c.isEqual_trimStart] using hfirst
        · rw [← List.cons_append, List.getLast?_concat]
          simpa [x.isEqual_trimEnd] using hlast

/-! ## Hunks -/

/-- Hunks that leave out only what both lists share. Those at both ends say where they start and end in
the old list if `placed`, and all others always do. -/
inductive Covers (old new : List α) (placed : Prop) : Nat × Nat → List (List Change) → Prop
  | nil {p : Nat × Nat} (h : Skips old new p (old.length, new.length)) : Covers old new placed p []
  | cons {p q r : Nat × Nat} {hunk : List Change} {hs : List (List Change)} (hskip : Skips old new p q)
      (hne : hunk ≠ []) (hspan : Spans old new q hunk r)
      (hplaced : placed → StartsAt q.1 hunk ∧ EndsAt r.1 hunk) (hrest : Covers old new placed r hs) :
      Covers old new placed p (hunk :: hs)

theorem Covers.skip {placed : Prop} {hs : List (List Change)} (h : Covers old new placed q hs)
    (hskip : Skips old new p q) : Covers old new placed p hs := by
  cases h with
  | nil h => exact .nil (hskip.trans h)
  | cons hskip' hne hspan hplaced hrest => exact .cons (hskip.trans hskip') hne hspan hplaced hrest

/-- An unfinished hunk that is dropped holds at most one kept stretch. -/
theorem eq_nil_or_kept {hunk : List Change}
    (h : (hunk.all (·.isEqual) && decide (hunk.length ≤ 1)) = true) :
    hunk = [] ∨ ∃ c, hunk = [c] ∧ c.isEqual = true := by
  rw [Bool.and_eq_true, decide_eq_true_iff] at h
  obtain ⟨hall, hlength⟩ := h
  cases hunk with
  | nil => exact .inl rfl
  | cons c cs =>
      cases cs with
      | nil =>
          rw [List.all_cons, List.all_nil, Bool.and_true] at hall
          exact .inr ⟨c, rfl, hall⟩
      | cons d cs => simp at hlength

theorem covers_hunksFrom {placed : Prop} {hunk cs : List Change} (hhunk : Spans old new p hunk q)
    (hcs : Spans old new q cs r) (hr : Skips old new r (old.length, new.length))
    (hstart : placed → StartsAt p.1 (hunk ++ cs)) (hstop : placed → EndsAt r.1 (hunk ++ cs)) :
    Covers old new placed p (hunksFrom hunk cs) := by
  induction cs generalizing hunk p q with
  | nil =>
      obtain rfl := hcs.eq_of_nil
      rw [List.append_nil] at hstart hstop
      rw [hunksFrom]
      split
      · rename_i hshort
        obtain rfl | ⟨c, rfl, hc⟩ := eq_nil_or_kept hshort
        · obtain rfl := hhunk.eq_of_nil
          exact .nil hr
        · exact .nil ((hhunk.skips_of_isEqual hc).trans hr)
      · rename_i hne
        refine .cons (.refl p) (fun hnil => hne (by rw [hnil]; rfl)) hhunk
          (fun h => ⟨hstart h, hstop h⟩) (.nil hr)
  | cons c cs ih =>
      obtain ⟨q', hc, hcs⟩ := hcs.split_cons
      rw [hunksFrom]
      split
      · rename_i hlong
        rw [Bool.and_eq_true, decide_eq_true_iff] at hlong
        obtain ⟨hequal, hlong⟩ := hlong
        obtain ⟨p₁, q₁, hend, hgap, hrest⟩ := spans_trim_both hc hequal hlong
        have hendPlace := hend.place_of_isEqual (c.isEqual_trimEnd.trans hequal)
        have hrestPlace := hrest.place_of_isEqual (c.isEqual_trimStart.trans hequal)
        refine .cons (.refl p) (by simp) (hhunk.append hend)
          (fun h => ⟨?_, endsAt_concat.mpr hendPlace.2⟩)
          (.skip (ih hrest hcs (fun _ => startsAt_cons.mpr hrestPlace.1) fun h => ?_) hgap)
        · cases hunk with
          | nil =>
              obtain rfl := hhunk.eq_of_nil
              exact startsAt_cons.mpr hendPlace.1
          | cons d hunk => exact hstart h
        · cases cs with
          | nil =>
              obtain rfl := hcs.eq_of_nil
              simpa [EndsAt] using hrestPlace.2
          | cons d cs =>
              have hlast := hstop h
              rw [List.append_cons, endsAt_append (List.cons_ne_nil d cs)] at hlast
              rwa [endsAt_append (List.cons_ne_nil d cs)]
      · rw [List.append_cons] at hstart hstop
        exact ih (hhunk.append hc) hcs hstart hstop

theorem covers_hunks {placed : Prop} {cs : List Change}
    (h : Spans old new p cs (old.length, new.length)) (hstart : placed → StartsAt p.1 cs)
    (hstop : placed → EndsAt old.length cs) : Covers old new placed p (hunks cs) := by
  obtain ⟨p', q', hskip, hspan, hskip', hstart', hstop', -⟩ := spans_trimContext h
  exact .skip (covers_hunksFrom (.nil p') hspan hskip' (fun h => hstart'.mp (hstart h))
    (fun h => hstop'.mp (hstop h))) hskip

end SchemaTidy
