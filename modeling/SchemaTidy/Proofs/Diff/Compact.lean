import SchemaTidy.Proofs.Diff.Script

/-!
# Sliding and joining steps

A script that is made compact leads where it led before. Each move of a step in focus is one of a few
local exchanges of two neighbours, and a local exchange is valid anywhere in a script.
-/

namespace SchemaTidy

variable {α : Type}

/-- Steps that can stand in the place of others, wherever these lead. -/
def Refines (old new : List α) (ss ts : List Step) : Prop :=
  ∀ p q, Leads old new p ss q → Leads old new p ts q

section Exchange

variable {old new : List α} {ss ts us : List Step}

namespace Refines

theorem refl (ss : List Step) : Refines old new ss ss := fun _ _ h => h

theorem trans (h : Refines old new ss ts) (h' : Refines old new ts us) : Refines old new ss us :=
  fun p q hp => h' p q (h p q hp)

theorem append_left (h : Refines old new ss ts) (us : List Step) :
    Refines old new (us ++ ss) (us ++ ts) := by
  intro p q hp
  obtain ⟨r, hr, hrest⟩ := hp.split
  exact hr.append (h r q hrest)

end Refines

/-! ## Exchanges of neighbours -/

theorem refines_join (s t : Step) (h : t.kind = s.kind) (ss : List Step) :
    Refines old new (s :: t :: ss) (s.growDown t.length :: ss) := by
  intro p q hp
  cases hp with
  | equal hagrees hrest =>
      cases hrest with
      | equal hagrees' hrest =>
          refine .equal (hagrees.append hagrees') ?_
          rwa [← Nat.add_assoc, ← Nat.add_assoc]
      | delete _ _ => cases h
      | insert _ _ => cases h
  | delete hin hrest =>
      cases hrest with
      | equal _ _ => cases h
      | delete hin' hrest =>
          refine .delete (by rwa [← Nat.add_assoc]) ?_
          rwa [← Nat.add_assoc]
      | insert _ _ => cases h
  | insert hin hrest =>
      cases hrest with
      | equal _ _ => cases h
      | delete _ _ => cases h
      | insert hin' hrest =>
          refine .insert (by rwa [← Nat.add_assoc]) ?_
          rwa [← Nat.add_assoc]

theorem refines_swap (s t : Step) (hs : s.kind ≠ .equal) (ht : t.kind ≠ .equal)
    (h : s.kind ≠ t.kind) (ss : List Step) :
    Refines old new (s :: t :: ss) (t :: s :: ss) := by
  intro p q hp
  cases hp with
  | equal _ _ => exact absurd rfl hs
  | delete hin hrest =>
      cases hrest with
      | equal _ _ => exact absurd rfl ht
      | delete _ _ => exact absurd rfl h
      | insert hin' hrest => exact .insert hin' (.delete hin hrest)
  | insert hin hrest =>
      cases hrest with
      | equal _ _ => exact absurd rfl ht
      | delete hin' hrest => exact .delete hin' (.insert hin hrest)
      | insert _ _ => exact absurd rfl h

theorem refines_empty (s : Step) (hs : s.kind = .equal) (h : s.length = 0) (ss : List Step) :
    Refines old new (s :: ss) ss := by
  intro p q hp
  cases hp with
  | equal hagrees hrest =>
      subst h
      exact hrest
  | delete _ _ => cases hs
  | insert _ _ => cases hs

theorem refines_growUp (i j n : Nat) (s : Step) (hs : s.kind = .equal) (ss : List Step) :
    Refines old new (⟨.equal, i, j, n⟩ :: s :: ss) (s.growUp n :: ss) := by
  intro p q hp
  have hjoined := refines_join _ s hs ss p q hp
  cases hp with
  | equal _ hrest =>
      cases hrest with
      | equal _ _ =>
          simp only [Step.growUp, Nat.add_sub_cancel]
          rwa [Nat.add_comm]
      | delete _ _ => cases hs
      | insert _ _ => cases hs

/-! ## A step in focus -/

/-- The steps with the one in focus between the others. -/
def Focus.steps (f : Focus) : List Step := f.before.reverse ++ f.step :: f.after

/-- A kept stretch in front of steps, joined with one that stands there. -/
def keepBefore (i j n : Nat) : List Step → List Step
  | next :: following =>
      if next.kind = .equal then next.growUp n :: following
      else ⟨.equal, i, j, n⟩ :: next :: following
  | [] => [⟨.equal, i, j, n⟩]

/-- A kept stretch behind steps in reverse order, joined with one that stands there. -/
def keepBehind (i j n : Nat) : List Step → List Step
  | previous :: others =>
      if previous.kind = .equal then previous.growDown n :: others
      else ⟨.equal, i, j, n⟩ :: previous :: others
  | [] => [⟨.equal, i, j, n⟩]

theorem refines_keepBefore (i j n : Nat) (ss : List Step) :
    Refines old new (⟨.equal, i, j, n⟩ :: ss) (keepBefore i j n ss) := by
  cases ss with
  | nil => exact .refl _
  | cons next following =>
      rw [keepBefore]
      split
      · rename_i h
        exact refines_growUp i j n next h following
      · exact .refl _

theorem refines_keepBehind (i j n : Nat) (before ss : List Step) :
    Refines old new (before.reverse ++ ⟨.equal, i, j, n⟩ :: ss)
      ((keepBehind i j n before).reverse ++ ss) := by
  cases before with
  | nil => exact .refl _
  | cons previous others =>
      rw [keepBehind]
      split
      · rename_i h
        rw [List.reverse_cons, List.reverse_cons, List.append_assoc, List.append_assoc]
        exact (refines_join previous ⟨.equal, i, j, n⟩ h.symm ss).append_left _
      · rw [@List.reverse_cons _ _ (previous :: others), List.append_assoc]
        exact .refl _

/-! ## Slides -/

theorem length_stretch {xs : List α} {i n : Nat} (h : i + n ≤ xs.length) :
    (stretch xs i n).length = n := by
  rw [stretch, List.length_take, List.length_drop]
  omega

theorem getElem?_stretch {xs : List α} {i n k : Nat} (h : k < n) :
    (stretch xs i n)[k]? = xs[i + k]? := by
  rw [stretch, List.getElem?_take_of_lt h, List.getElem?_drop]

end Exchange

section Slide

variable [DecidableEq α] {old new : List α}

/-- Only insertions slide. -/
theorem commonLength_eq_zero_of_delete {s : Step} (hs : s.kind = .delete) (xs : List α) :
    commonLength xs (stretch new s.new s.newLength) = 0 ∧
      commonLength xs (stretch new s.new s.newLength).reverse = 0 := by
  have hnone : s.newLength = 0 := by simp [Step.newLength, hs]
  have hnil : commonLength xs [] = 0 := by cases xs <;> rfl
  rw [hnone, stretch, List.take_zero, List.reverse_nil]
  exact ⟨hnil, hnil⟩

theorem agrees_slideUp {i j L m k : Nat} (hagrees : Agrees old new i j L)
    (hin : j + L + m ≤ new.length) {n : Nat}
    (hn : n = slideUpLength old new ⟨.equal, i, j, L⟩ ⟨.insert, k, j + L, m⟩) (hpos : 0 < n)
    (hL : n ≤ L) : n ≤ m ∧ Agrees old new (i + L - n) (j + L + m - n) n := by
  have hi := hagrees.old_le (by omega)
  change n = commonLength (stretch old i L).reverse (stretch new (j + L) m).reverse at hn
  have hm : n ≤ m := by
    have hle := (commonLength_le (stretch old i L).reverse (stretch new (j + L) m).reverse).2
    rwa [← hn, List.length_reverse, length_stretch hin] at hle
  refine ⟨hm, fun x hx => by omega, fun x hx => ?_⟩
  have hlt : x < commonLength (stretch old i L).reverse (stretch new (j + L) m).reverse := by omega
  have hsame := getElem?_of_commonEnd hlt
  rw [← hn, length_stretch hi, length_stretch hin, getElem?_stretch (by omega),
    getElem?_stretch (by omega)] at hsame
  rwa [show i + (L - n + x) = i + L - n + x by omega,
    show j + L + (m - n + x) = j + L + m - n + x by omega] at hsame

theorem refines_slideUp (p s : Step) (hp : p.kind = .equal) (hs : s.kind ≠ .equal) (ss : List Step)
    {n : Nat} (hn : n = slideUpLength old new p s) (hpos : 0 < n) (hle : n ≤ p.length) :
    Refines old new (p :: s :: ss) (p.dropEnd n :: s.moveUp n ::
      ⟨.equal, p.old + p.length - n, s.new + s.newLength - n, n⟩ :: ss) := by
  intro x y h
  cases h with
  | delete _ _ => cases hp
  | insert _ _ => cases hp
  | @equal i j L _ _ hagrees hrest =>
      cases hrest with
      | equal _ _ => exact absurd rfl hs
      | delete _ _ =>
          rw [slideUpLength, (commonLength_eq_zero_of_delete rfl _).2] at hn
          omega
      | @insert _ _ k m _ _ hin hrest =>
          obtain ⟨hm, hslid⟩ := agrees_slideUp hagrees hin hn hpos hle
          change n ≤ L at hle
          refine .equal (hagrees.take (Nat.sub_le L n)) ?_
          rw [← Nat.add_sub_assoc hle, ← Nat.add_sub_assoc hle]
          have hback : j + L - n + m = j + L + m - n := by omega
          refine .insert (show j + L - n + m ≤ new.length by omega) ?_
          rw [hback]
          refine .equal hslid ?_
          rwa [Nat.sub_add_cancel (by omega), Nat.sub_add_cancel (by omega)]

theorem agrees_slideDown {i j L m k : Nat} (hagrees : Agrees old new i (j + m) L) {n : Nat}
    (hn : n = slideDownLength old new ⟨.equal, i, j + m, L⟩ ⟨.insert, k, j, m⟩) (hpos : 0 < n)
    (hL : n ≤ L) : Agrees old new i j n := by
  have hi := hagrees.old_le (by omega)
  have hj := hagrees.new_le (by omega)
  change n = commonLength (stretch old i L) (stretch new j m) at hn
  have hm := (commonLength_le (stretch old i L) (stretch new j m)).2
  rw [← hn, length_stretch (by omega)] at hm
  refine ⟨fun x hx => by omega, fun x hx => ?_⟩
  have hsame := getElem?_of_lt_commonLength (hn ▸ hx)
  rwa [getElem?_stretch (by omega), getElem?_stretch (by omega)] at hsame

theorem refines_slideDown (q s : Step) (hq : q.kind = .equal) (hs : s.kind ≠ .equal)
    (ss : List Step) {n : Nat} (hn : n = slideDownLength old new q s) (hpos : 0 < n)
    (hle : n ≤ q.length) :
    Refines old new (s :: q :: ss)
      (⟨.equal, q.old, s.new, n⟩ :: s.moveDown n :: q.dropStart n :: ss) := by
  intro x y h
  cases h with
  | equal _ _ => exact absurd rfl hs
  | delete _ _ =>
      rw [slideDownLength, (commonLength_eq_zero_of_delete rfl _).1] at hn
      omega
  | @insert i j k m _ _ hin hrest =>
      cases hrest with
      | delete _ _ => cases hq
      | insert _ _ => cases hq
      | @equal _ _ L _ _ hagrees hrest =>
          have hslid := agrees_slideDown hagrees hn hpos hle
          change n ≤ L at hle
          have hinNew := hagrees.new_le (by omega)
          refine .equal hslid ?_
          have hmoved : j + n + m = j + m + n := by omega
          refine .insert (show j + n + m ≤ new.length by omega) ?_
          rw [hmoved]
          refine .equal (hagrees.drop hle) ?_
          rwa [Nat.add_assoc i, Nat.add_assoc (j + m), Nat.add_sub_cancel' hle]

theorem slideUp_cons (p : Step) (rest : List Step) (s : Step) (after : List Step) :
    slideUp old new (p :: rest) s after =
      if p.kind = s.kind then slideUp old new rest (p.growDown s.length) after
      else if p.kind = .equal then
        let n := slideUpLength old new p s
        if 0 < n ∧ n ≤ p.length then
          let after := keepBefore (p.old + p.length - n) (s.new + s.newLength - n) n after
          if p.length = n then slideUp old new rest (s.moveUp n) after
          else slideUp old new (p.dropEnd n :: rest) (s.moveUp n) after
        else if p.length = 0 then slideUp old new rest s after
        else ⟨p :: rest, s, after⟩
      else slideUp old new rest s (p :: after) := by
  rw [slideUp]
  cases after <;> rfl

theorem slideUp_refines (before : List Step) (s : Step) (after : List Step) (hs : s.kind ≠ .equal) :
    Refines old new (before.reverse ++ s :: after) (slideUp old new before s after).steps ∧
      (slideUp old new before s after).step.kind = s.kind := by
  induction hw : stepsWeight before using Nat.strongRecOn generalizing before s after with
  | ind w ih =>
      subst hw
      cases before with
      | nil =>
          rw [slideUp]
          exact ⟨.refl _, rfl⟩
      | cons p rest =>
          rw [slideUp_cons, List.reverse_cons, List.append_assoc]
          -- One move of the step in focus, and the moves after it.
          have hmove {front back ss : List Step} {t : Step} (hsame : t.kind = s.kind)
              (hw : stepsWeight front < stepsWeight (p :: rest))
              (hss : Refines old new (p :: s :: after) (ss ++ t :: back))
              (hfront : front.reverse = rest.reverse ++ ss) :
              Refines old new (rest.reverse ++ ([p] ++ s :: after)) (slideUp old new front t back).steps ∧
                (slideUp old new front t back).step.kind = s.kind := by
            obtain ⟨hslid, hkind⟩ := ih _ hw front t back (hsame ▸ hs) rfl
            refine ⟨.trans ?_ hslid, hkind.trans hsame⟩
            rw [hfront, List.append_assoc]
            exact hss.append_left _
          have hrest : stepsWeight rest < stepsWeight (p :: rest) := by
            simp only [stepsWeight]
            omega
          split
          · rename_i hkind
            exact hmove hkind hrest (refines_join p s hkind.symm after) (List.append_nil _).symm
          rename_i hother
          split
          · rename_i hequal
            simp only
            split
            · rename_i hn
              have hslide := refines_slideUp p s hequal hs after rfl hn.1 hn.2
              have hkept := hslide.trans
                ((refines_keepBefore _ _ _ after).append_left [p.dropEnd _, s.moveUp _])
              split
              · rename_i hall
                refine hmove rfl hrest (.trans hkept ?_) (List.append_nil _).symm
                exact refines_empty (p.dropEnd _) hequal (Nat.sub_eq_zero_of_le (Nat.le_of_eq hall)) _
              · refine hmove rfl ?_ hkept List.reverse_cons
                simp only [stepsWeight, Step.dropEnd]
                omega
            split
            · rename_i hzero
              exact hmove rfl hrest (refines_empty p hequal hzero _) (List.append_nil _).symm
            · rw [Focus.steps, List.reverse_cons, List.append_assoc]
              exact ⟨.refl _, rfl⟩
          · rename_i hnotEqual
            exact hmove rfl hrest (refines_swap p s hnotEqual hs hother after) (List.append_nil _).symm

theorem slideDown_cons (before : List Step) (s q : Step) (rest : List Step) :
    slideDown old new before s (q :: rest) =
      if q.kind = s.kind then slideDown old new before (s.growDown q.length) rest
      else if q.kind = .equal then
        let n := slideDownLength old new q s
        if 0 < n ∧ n ≤ q.length then
          let before := keepBehind q.old s.new n before
          if q.length = n then slideDown old new before (s.moveDown n) rest
          else slideDown old new before (s.moveDown n) (q.dropStart n :: rest)
        else if q.length = 0 then slideDown old new before s rest
        else ⟨before, s, q :: rest⟩
      else slideDown old new (q :: before) s rest := by
  rw [slideDown]
  cases before <;> rfl

theorem slideDown_refines (before : List Step) (s : Step) (after : List Step)
    (hs : s.kind ≠ .equal) :
    Refines old new (before.reverse ++ s :: after) (slideDown old new before s after).steps ∧
      (slideDown old new before s after).step.kind = s.kind := by
  induction hw : stepsWeight after using Nat.strongRecOn generalizing before s after with
  | ind w ih =>
      subst hw
      cases after with
      | nil =>
          rw [slideDown]
          exact ⟨.refl _, rfl⟩
      | cons q rest =>
          rw [slideDown_cons]
          have hmove {front back : List Step} {t : Step} (hsame : t.kind = s.kind)
              (hw : stepsWeight back < stepsWeight (q :: rest))
              (hss : Refines old new (before.reverse ++ s :: q :: rest) (front.reverse ++ t :: back)) :
              Refines old new (before.reverse ++ s :: q :: rest) (slideDown old new front t back).steps ∧
                (slideDown old new front t back).step.kind = s.kind := by
            obtain ⟨hslid, hkind⟩ := ih _ hw front t back (hsame ▸ hs) rfl
            exact ⟨hss.trans hslid, hkind.trans hsame⟩
          have hrest : stepsWeight rest < stepsWeight (q :: rest) := by
            simp only [stepsWeight]
            omega
          split
          · rename_i hkind
            exact hmove rfl hrest ((refines_join s q hkind rest).append_left _)
          rename_i hother
          split
          · rename_i hequal
            simp only
            split
            · rename_i hn
              have hslide := (refines_slideDown q s hequal hs rest rfl hn.1 hn.2).append_left
                before.reverse
              have hkept := hslide.trans (refines_keepBehind _ _ _ before _)
              split
              · rename_i hall
                refine hmove rfl hrest (hkept.trans (.append_left ?_ _))
                exact .append_left
                  (refines_empty (q.dropStart _) hequal (Nat.sub_eq_zero_of_le (Nat.le_of_eq hall)) rest) [s.moveDown _]
              · refine hmove rfl ?_ hkept
                simp only [stepsWeight, Step.dropStart]
                omega
            split
            · rename_i hzero
              exact hmove rfl hrest
                (((refines_empty q hequal hzero rest).append_left [s]).append_left _)
            · exact ⟨.refl _, rfl⟩
          · rename_i hnotEqual
            refine hmove rfl hrest ?_
            rw [List.reverse_cons, List.append_assoc]
            exact (refines_swap s q hs hnotEqual (Ne.symm hother) rest).append_left _

theorem slideAll_refines (kind : StepKind) (hkind : kind ≠ .equal) (fuel : Nat)
    (before after : List Step) :
    Refines old new (before.reverse ++ after) (slideAll old new kind fuel before after) := by
  induction fuel generalizing before after with
  | zero =>
      rw [slideAll]
      exact .refl _
  | succ fuel ih =>
      cases after with
      | nil =>
          rw [slideAll, List.append_nil]
          · exact .refl _
          · simp
      | cons s after =>
          rw [slideAll]
          split
          · rename_i hs
            simp only
            obtain ⟨hup, hsame⟩ : Refines old new _ _ ∧ _ :=
              slideUp_refines before s after (hs ▸ hkind)
            generalize slideUp old new before s after = up at *
            obtain ⟨hdown, -⟩ : Refines old new _ _ ∧ _ :=
              slideDown_refines up.before up.step up.after (by rw [hsame, hs]; exact hkind)
            generalize slideDown old new up.before up.step up.after = down at *
            have hrest := ih (down.step :: down.before) down.after
            rw [List.reverse_cons, List.append_assoc] at hrest
            exact (hup.trans hdown).trans hrest
          · have hrest := ih (s :: before) after
            rwa [List.reverse_cons, List.append_assoc] at hrest

theorem compact_refines (steps : List Step) : Refines old new steps (compact old new steps) :=
  .trans (slideAll_refines .delete (by decide) _ [] steps)
    (slideAll_refines .insert (by decide) _ [] _)

/-- The script of two lists, made compact, leads from their start to their end. -/
theorem leads_compact_script (old new : List α) :
    Leads old new (0, 0) (compact old new (script old new)) (old.length, new.length) :=
  compact_refines _ _ _ (leads_script old new)

end Slide

end SchemaTidy
