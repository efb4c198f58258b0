import SchemaTidy.Proofs.Diff.Compact
import SchemaTidy.Proofs.Diff.Hunks

/-!
# Kept stretches

No script keeps an empty stretch, before it is made compact and after, and neither do its changes. So
the context at the end of a hunk is never empty.
-/

namespace SchemaTidy

/-- The kept stretches among some steps have entries. -/
def KeepsEntries (ss : List Step) : Prop := ∀ s ∈ ss, s.kind = .equal → 0 < s.length

theorem keepsEntries_nil : KeepsEntries [] := List.forall_mem_nil _

theorem keepsEntries_cons {s : Step} {ss : List Step} :
    KeepsEntries (s :: ss) ↔ (s.kind = .equal → 0 < s.length) ∧ KeepsEntries ss :=
  List.forall_mem_cons

theorem keepsEntries_append {ss ts : List Step} :
    KeepsEntries (ss ++ ts) ↔ KeepsEntries ss ∧ KeepsEntries ts :=
  List.forall_mem_append

theorem keepsEntries_equals (i j n : Nat) : KeepsEntries (Step.equals i j n) := by
  unfold Step.equals
  split
  · exact keepsEntries_nil
  · rename_i hn
    exact keepsEntries_cons.mpr ⟨fun _ => Nat.pos_of_ne_zero hn, keepsEntries_nil⟩

theorem KeepsEntries.cons_of_ne {s : Step} {ss : List Step} (hs : s.kind ≠ .equal)
    (hss : KeepsEntries ss) : KeepsEntries (s :: ss) :=
  keepsEntries_cons.mpr ⟨fun h => absurd h hs, hss⟩

theorem keepsEntries_keepBefore (i j : Nat) {n : Nat} (hn : 0 < n) {ss : List Step} (h : KeepsEntries ss) :
    KeepsEntries (keepBefore i j n ss) := by
  cases ss with
  | nil => exact keepsEntries_cons.mpr ⟨fun _ => hn, keepsEntries_nil⟩
  | cons next following =>
      rw [keepBefore]
      split
      · exact keepsEntries_cons.mpr ⟨fun _ => Nat.lt_add_left _ hn, (keepsEntries_cons.mp h).2⟩
      · exact keepsEntries_cons.mpr ⟨fun _ => hn, h⟩

theorem keepsEntries_keepBehind (i j : Nat) {n : Nat} (hn : 0 < n) {ss : List Step} (h : KeepsEntries ss) :
    KeepsEntries (keepBehind i j n ss) := by
  cases ss with
  | nil => exact keepsEntries_cons.mpr ⟨fun _ => hn, keepsEntries_nil⟩
  | cons previous others =>
      rw [keepBehind]
      split
      · exact keepsEntries_cons.mpr ⟨fun _ => Nat.lt_add_left _ hn, (keepsEntries_cons.mp h).2⟩
      · exact keepsEntries_cons.mpr ⟨fun _ => hn, h⟩

section Scripts

variable {α : Type} [DecidableEq α]

theorem keepsEntries_scriptFrom (i j : Nat) (os ns : List α) :
    KeepsEntries (scriptFrom i j os ns) := by
  induction hn : os.length + ns.length using Nat.strongRecOn generalizing os ns i j with
  | ind n ih =>
      subst hn
      rw [scriptFrom]
      simp only
      have hnil : KeepsEntries [] := keepsEntries_nil
      refine keepsEntries_append.mpr ⟨keepsEntries_append.mpr ⟨keepsEntries_equals _ _ _, ?_⟩,
        keepsEntries_equals _ _ _⟩
      split
      · exact hnil
      split
      · exact hnil.cons_of_ne (by simp)
      split
      · exact hnil.cons_of_ne (by simp)
      split
      · exact (hnil.cons_of_ne (by simp)).cons_of_ne (by simp)
      split
      · rename_i hsmaller
        exact keepsEntries_append.mpr ⟨ih _ hsmaller.1 _ _ _ _ rfl, ih _ hsmaller.2 _ _ _ _ rfl⟩
      · exact (hnil.cons_of_ne (by simp)).cons_of_ne (by simp)

def Focus.KeepsEntries (f : Focus) : Prop :=
  SchemaTidy.KeepsEntries f.before ∧ SchemaTidy.KeepsEntries f.after

theorem keepsEntries_slideUp (old new : List α) {before : List Step} (s : Step) {after : List Step}
    (hbefore : KeepsEntries before) (hafter : KeepsEntries after) :
    (slideUp old new before s after).KeepsEntries := by
  induction hw : stepsWeight before using Nat.strongRecOn generalizing before s after with
  | ind w ih =>
      subst hw
      cases before with
      | nil =>
          rw [slideUp]
          exact ⟨hbefore, hafter⟩
      | cons p rest =>
          obtain ⟨hp, hrest⟩ := keepsEntries_cons.mp hbefore
          have hless : stepsWeight rest < stepsWeight (p :: rest) := by
            simp only [stepsWeight]
            omega
          rw [slideUp_cons]
          split
          · exact ih _ hless _ hrest hafter rfl
          split
          · simp only
            split
            · rename_i hn
              have hlonger (i j : Nat) := keepsEntries_keepBefore i j hn.1 hafter
              split
              · exact ih _ hless _ hrest (hlonger _ _) rfl
              · rename_i hpart
                have hshorter : KeepsEntries (p.dropEnd (slideUpLength old new p s) :: rest) := by
                  refine keepsEntries_cons.mpr ⟨fun _ => ?_, hrest⟩
                  simp only [Step.dropEnd]
                  omega
                refine ih _ ?_ _ hshorter (hlonger _ _) rfl
                simp only [stepsWeight, Step.dropEnd]
                omega
            split
            · exact ih _ hless _ hrest hafter rfl
            · exact ⟨hbefore, hafter⟩
          · exact ih _ hless _ hrest (keepsEntries_cons.mpr ⟨hp, hafter⟩) rfl

theorem keepsEntries_slideDown (old new : List α) {before : List Step} (s : Step) {after : List Step}
    (hbefore : KeepsEntries before) (hafter : KeepsEntries after) :
    (slideDown old new before s after).KeepsEntries := by
  induction hw : stepsWeight after using Nat.strongRecOn generalizing before s after with
  | ind w ih =>
      subst hw
      cases after with
      | nil =>
          rw [slideDown]
          exact ⟨hbefore, hafter⟩
      | cons q rest =>
          obtain ⟨hq, hrest⟩ := keepsEntries_cons.mp hafter
          have hless : stepsWeight rest < stepsWeight (q :: rest) := by
            simp only [stepsWeight]
            omega
          rw [slideDown_cons]
          split
          · exact ih _ hless _ hbefore hrest rfl
          split
          · simp only
            split
            · rename_i hn
              have hlonger (i j : Nat) := keepsEntries_keepBehind i j hn.1 hbefore
              split
              · exact ih _ hless _ (hlonger _ _) hrest rfl
              · rename_i hpart
                have hshorter : KeepsEntries (q.dropStart (slideDownLength old new q s) :: rest) := by
                  refine keepsEntries_cons.mpr ⟨fun _ => ?_, hrest⟩
                  simp only [Step.dropStart]
                  omega
                refine ih _ ?_ _ (hlonger _ _) hshorter rfl
                simp only [stepsWeight, Step.dropStart]
                omega
            split
            · exact ih _ hless _ hbefore hrest rfl
            · exact ⟨hbefore, hafter⟩
          · exact ih _ hless _ (keepsEntries_cons.mpr ⟨hq, hbefore⟩) hrest rfl

theorem keepsEntries_slideAll (old new : List α) (kind : StepKind) (hkind : kind ≠ .equal)
    (fuel : Nat) {before after : List Step} (hbefore : KeepsEntries before)
    (hafter : KeepsEntries after) : KeepsEntries (slideAll old new kind fuel before after) := by
  have hreverse {ss : List Step} (h : KeepsEntries ss) : KeepsEntries ss.reverse :=
    fun s hs => h s (List.mem_reverse.mp hs)
  induction fuel generalizing before after with
  | zero =>
      rw [slideAll]
      exact keepsEntries_append.mpr ⟨hreverse hbefore, hafter⟩
  | succ fuel ih =>
      cases after with
      | nil =>
          rw [slideAll]
          · exact hreverse hbefore
          · simp
      | cons s after =>
          obtain ⟨hs, hrest⟩ := keepsEntries_cons.mp hafter
          rw [slideAll]
          split
          · rename_i hsame
            simp only
            have hup := keepsEntries_slideUp old new s hbefore hrest
            have hupKind : (slideUp old new before s after).step.kind = s.kind :=
              (slideUp_refines before s after (hsame ▸ hkind)).2
            generalize slideUp old new before s after = up at *
            have hother : up.step.kind ≠ .equal := by rwa [hupKind, hsame]
            have hdown := keepsEntries_slideDown old new up.step hup.1 hup.2
            have hdownKind : (slideDown old new up.before up.step up.after).step.kind = up.step.kind :=
              (slideDown_refines up.before up.step up.after hother).2
            exact ih (hdown.1.cons_of_ne (hdownKind ▸ hother)) hdown.2
          · exact ih (keepsEntries_cons.mpr ⟨hs, hbefore⟩) hrest

theorem keepsEntries_compact_script (old new : List α) :
    KeepsEntries (compact old new (script old new)) := by
  have hscript : KeepsEntries (script old new) := keepsEntries_scriptFrom 0 0 old new
  have hdeletions (fuel : Nat) :=
    keepsEntries_slideAll old new .delete (by simp) fuel keepsEntries_nil hscript
  exact keepsEntries_slideAll old new .insert (by simp) _ keepsEntries_nil (hdeletions _)

end Scripts

/-! ## Changes -/

/-- The kept stretches among some changes have lines. -/
def KeepsLines (cs : List Change) : Prop := ∀ c ∈ cs, c.isEqual = true → 0 < c.oldLength

theorem keepsLines_cons {c : Change} {cs : List Change} :
    KeepsLines (c :: cs) ↔ (c.isEqual = true → 0 < c.oldLength) ∧ KeepsLines cs :=
  List.forall_mem_cons

theorem keepsLines_append {cs ds : List Change} :
    KeepsLines (cs ++ ds) ↔ KeepsLines cs ∧ KeepsLines ds :=
  List.forall_mem_append

theorem Change.oldLength_ofStep {s : Step} (h : s.kind = .equal → 0 < s.length) :
    (Change.ofStep s).isEqual = true → 0 < (Change.ofStep s).oldLength := by
  intro hequal
  have hkind : s.kind = .equal := of_decide_eq_true hequal
  simp only [Change.ofStep, Step.oldLength, hkind]
  exact h hkind

theorem Change.oldLength_join? {c d : Change} {s : Step} (hs : s.kind = .equal → 0 < s.length)
    (h : c.join? s = some d) : d.isEqual = true → 0 < d.oldLength := by
  intro hequal
  unfold Change.join? at h
  split at h
  · rename_i hkind
    split at h
    · cases h
      exact Nat.lt_add_left _ (hs hkind)
    · cases h
  · split at h
    · cases h
    · rename_i hother
      split at h <;> cases h <;> exact absurd hequal hother
  · split at h
    · cases h
    · rename_i hother
      split at h <;> cases h <;> exact absurd hequal hother

theorem keepsLines_ofStepsFrom {c : Change} {ss : List Step}
    (hc : c.isEqual = true → 0 < c.oldLength) (hss : KeepsEntries ss) :
    KeepsLines (Change.ofStepsFrom c ss) := by
  induction ss generalizing c with
  | nil => exact keepsLines_cons.mpr ⟨hc, List.forall_mem_nil _⟩
  | cons s ss ih =>
      obtain ⟨hs, hss⟩ := keepsEntries_cons.mp hss
      rw [Change.ofStepsFrom]
      split
      · rename_i d hd
        exact ih (Change.oldLength_join? hs hd) hss
      · exact keepsLines_cons.mpr ⟨hc, ih (Change.oldLength_ofStep hs) hss⟩

theorem keepsLines_ofSteps {ss : List Step} (h : KeepsEntries ss) :
    KeepsLines (Change.ofSteps ss) := by
  cases ss with
  | nil => exact List.forall_mem_nil _
  | cons s ss =>
      obtain ⟨hs, hss⟩ := keepsEntries_cons.mp h
      exact keepsLines_ofStepsFrom (Change.oldLength_ofStep hs) hss

theorem Change.oldLength_trimStart {c : Change} (h : c.isEqual = true → 0 < c.oldLength) :
    c.trimStart.isEqual = true → 0 < c.trimStart.oldLength := by
  intro hequal
  rw [c.isEqual_trimStart] at hequal
  have hpos := h hequal
  simp only [Change.trimStart, hequal, if_true, Change.equal, contextLines]
  omega

theorem Change.oldLength_trimEnd {c : Change} (h : c.isEqual = true → 0 < c.oldLength) :
    c.trimEnd.isEqual = true → 0 < c.trimEnd.oldLength := by
  intro hequal
  rw [c.isEqual_trimEnd] at hequal
  have hpos := h hequal
  simp only [Change.trimEnd, hequal, if_true, Change.equal, contextLines]
  omega

theorem keepsLines_trimContext {cs : List Change} (h : KeepsLines cs) :
    KeepsLines (trimContext cs) := by
  cases cs with
  | nil => exact h
  | cons c cs =>
      obtain ⟨hc, hcs⟩ := keepsLines_cons.mp h
      rcases List.eq_nil_or_concat cs with rfl | ⟨ds, x, rfl⟩
      · have hboth := Change.oldLength_trimEnd (Change.oldLength_trimStart hc)
        exact keepsLines_cons.mpr ⟨hboth, hcs⟩
      · rw [List.concat_eq_append] at hcs ⊢
        obtain ⟨hds, hx⟩ := keepsLines_append.mp hcs
        obtain ⟨hx, hnil⟩ := keepsLines_cons.mp hx
        rw [trimContext_concat]
        refine keepsLines_cons.mpr ⟨Change.oldLength_trimStart hc, keepsLines_append.mpr ⟨hds, ?_⟩⟩
        exact keepsLines_cons.mpr ⟨Change.oldLength_trimEnd hx, hnil⟩

end SchemaTidy
