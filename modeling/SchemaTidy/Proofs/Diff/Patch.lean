import SchemaTidy.Pipeline
import SchemaTidy.Proofs.Diff.Ranges
import SchemaTidy.Proofs.Diff.Reading

/-!
# Applying a unified diff

A diff that is read back turns the old text into the new one. Its hunks hold stretches of the old lines,
in order, and with these replaced the lines are the new ones. The ranges in their heads are the places
of these stretches, with one exception: an insertion in front of all old lines, or behind them, can
stand at a place where it was before it slid there.
-/

namespace SchemaTidy

section Stretch

variable {α : Type}

theorem stretch_append (xs : List α) (i n m : Nat) :
    stretch xs i n ++ stretch xs (i + n) m = stretch xs i (n + m) := by
  rw [stretch, stretch, stretch, List.take_add, List.drop_drop]

theorem stretch_append_drop (xs : List α) (i n : Nat) :
    stretch xs i n ++ xs.drop (i + n) = xs.drop i := by
  rw [stretch, ← List.drop_drop, List.take_append_drop]

theorem stretch_of_pos (xs : List α) {i j n : Nat} (h : 0 < n → i = j) :
    stretch xs i n = stretch xs j n := by
  cases n with
  | zero => rw [stretch, stretch, List.take_zero, List.take_zero]
  | succ n => rw [h (Nat.succ_pos n)]

theorem Skips.exists_append {old new : List α} {p q : Nat × Nat} (h : Skips old new p q) :
    ∃ pre, old.drop p.1 = pre ++ old.drop q.1 ∧ new.drop p.2 = pre ++ new.drop q.2 := by
  obtain ⟨n, hagrees, rfl⟩ := h
  refine ⟨stretch old p.1 n, (stretch_append_drop ..).symm, ?_⟩
  rw [hagrees.stretch_eq, stretch_append_drop]

end Stretch

namespace Patch

/-- The lines of a hunk in the old text: those kept and those removed. -/
def oldLines (lines : List (Char × Text)) : List Text := (lines.filter (·.1 != '+')).map (·.2)

/-- The lines of a hunk in the new text: those kept and those added. -/
def newLines (lines : List (Char × Text)) : List Text := (lines.filter (·.1 != '-')).map (·.2)

/-- Hunks, without their ranges, that turn some lines into others. -/
inductive Rewrites : List PatchHunk → List Text → List Text → Prop
  | nil (xs : List Text) : Rewrites [] xs xs
  | cons (pre : List Text) {h : PatchHunk} {hs : List PatchHunk} {xs ys : List Text}
      (hrest : Rewrites hs xs ys) :
      Rewrites (h :: hs) (pre ++ oldLines h.lines ++ xs) (pre ++ newLines h.lines ++ ys)

/-- Replaces the ranges of hunks in the lines from `i` on. There is no result if a range starts in front
of these lines, ends behind them, or does not hold exactly the old lines of its hunk. -/
def replaceFrom (i : Nat) : List PatchHunk → List Text → Option (List Text)
  | [], lines => some lines
  | h :: hs, lines =>
      let gap := h.old - i
      if i ≤ h.old ∧ gap + h.oldLength ≤ lines.length ∧
          stretch lines gap h.oldLength = oldLines h.lines then
        (replaceFrom (h.old + h.oldLength) hs (lines.drop (gap + h.oldLength))).map
          (lines.take gap ++ newLines h.lines ++ ·)
      else none

def patched? (hunks : List PatchHunk) (text : Text) : Option Text :=
  (replaceFrom 0 hunks (Text.lines text)).map List.flatten

/-! ## The lines of a hunk -/

theorem oldLines_append (xs ys : List (Char × Text)) :
    oldLines (xs ++ ys) = oldLines xs ++ oldLines ys := by
  simp only [oldLines, List.filter_append, List.map_append]

theorem newLines_append (xs ys : List (Char × Text)) :
    newLines (xs ++ ys) = newLines xs ++ newLines ys := by
  simp only [newLines, List.filter_append, List.map_append]

theorem oldLines_map (mark : Char) (xs : List Text) :
    oldLines (xs.map (mark, ·)) = if mark = '+' then [] else xs := by
  unfold oldLines
  rw [List.filter_map, List.map_map]
  split
  · rename_i hmark
    simp [Function.comp_def, hmark]
  · rename_i hmark
    simp [Function.comp_def, hmark]

theorem newLines_map (mark : Char) (xs : List Text) :
    newLines (xs.map (mark, ·)) = if mark = '-' then [] else xs := by
  unfold newLines
  rw [List.filter_map, List.map_map]
  split
  · rename_i hmark
    simp [Function.comp_def, hmark]
  · rename_i hmark
    simp [Function.comp_def, hmark]

variable {old new : List Text}

theorem oldLines_changeLines (c : Change) :
    oldLines (changeLines old new c) = stretch old c.old c.oldLength := by
  unfold changeLines
  split
  · rw [oldLines_map]
    rfl
  · rw [oldLines_append, oldLines_map, oldLines_map]
    exact List.append_nil _

theorem newLines_changeLines (c : Change) :
    newLines (changeLines old new c) =
      if c.isEqual then stretch old c.old c.oldLength else stretch new c.new c.newLength := by
  unfold changeLines
  split
  · rw [newLines_map]
    rfl
  · rw [newLines_append, newLines_map, newLines_map]
    rfl

theorem oldLines_of_spans {p q : Nat × Nat} {cs : List Change} (h : Spans old new p cs q) :
    ∃ n, q.1 = p.1 + n ∧ (0 < n → p.1 + n ≤ old.length) ∧
      oldLines (cs.flatMap (changeLines old new)) = stretch old p.1 n := by
  induction h with
  | nil p => exact ⟨0, rfl, nofun, rfl⟩
  | @equal i j n cs q hagrees _ ih =>
      obtain ⟨m, hm, hin, hlines⟩ := ih
      refine ⟨n + m, by rw [hm, Nat.add_assoc], fun hpos => ?_, ?_⟩
      · by_cases hzero : m = 0
        · rw [hzero]
          exact hagrees.old_le (by omega)
        · rw [← Nat.add_assoc]
          exact hin (by omega)
      · rw [List.flatMap_cons, oldLines_append, hlines, oldLines_changeLines]
        exact stretch_append old i n m
  | @replace i j c cs q _ hold _ _ ih =>
      obtain ⟨m, hm, hin, hlines⟩ := ih
      refine ⟨c.oldLength + m, by rw [hm, Nat.add_assoc], fun hpos => ?_, ?_⟩
      · by_cases hzero : m = 0
        · rw [hzero]
          exact (hold (by omega)).2
        · rw [← Nat.add_assoc]
          exact hin (by omega)
      · rw [List.flatMap_cons, oldLines_append, hlines, oldLines_changeLines]
        rw [stretch_of_pos old fun hpos => (hold hpos).1]
        exact stretch_append old i c.oldLength m

theorem newLines_of_spans {p q : Nat × Nat} {cs : List Change} (h : Spans old new p cs q) :
    ∃ n, q.2 = p.2 + n ∧ newLines (cs.flatMap (changeLines old new)) = stretch new p.2 n := by
  induction h with
  | nil p => exact ⟨0, rfl, rfl⟩
  | @equal i j n cs q hagrees _ ih =>
      obtain ⟨m, hm, hlines⟩ := ih
      refine ⟨n + m, by rw [hm, Nat.add_assoc], ?_⟩
      rw [List.flatMap_cons, newLines_append, hlines, newLines_changeLines]
      simp only [Change.equal, if_true]
      rw [hagrees.stretch_eq, stretch_append]
  | @replace i j c cs q hkind _ hnew _ ih =>
      obtain ⟨m, hm, hlines⟩ := ih
      refine ⟨c.newLength + m, by rw [hm, Nat.add_assoc], ?_⟩
      rw [List.flatMap_cons, newLines_append, hlines, newLines_changeLines, hkind,
        if_neg Bool.false_ne_true, stretch_of_pos new fun hpos => (hnew hpos).1]
      exact stretch_append new j c.newLength m

theorem lines_hunkOf (hunk : List Change) :
    (hunkOf old new hunk).lines = hunk.flatMap (changeLines old new) := by
  by_cases hne : hunk = []
  · rw [hne]
    rfl
  · rw [hunkOf, List.head?_eq_some_head hne, List.getLast?_eq_some_getLast hne]

theorem range_hunkOf (old new : List Text) {hunk : List Change} {first last : Change} (hfirst : first ∈ hunk.head?)
    (hlast : last ∈ hunk.getLast?) :
    (hunkOf old new hunk).old = first.old ∧
      (hunkOf old new hunk).oldLength = last.old + last.oldLength - first.old := by
  rw [hunkOf, Option.mem_def.mp hfirst, Option.mem_def.mp hlast]
  exact ⟨rfl, rfl⟩

theorem length_oldLines_hunkOf {p q : Nat × Nat} {hunk : List Change}
    (h : Spans old new p hunk q) :
    (oldLines (hunkOf old new hunk).lines).length = oldCount hunk := by
  obtain ⟨n, hn, hin, hlines⟩ := oldLines_of_spans h
  have hcount := h.old_eq
  rw [lines_hunkOf, hlines]
  by_cases hzero : n = 0
  · rw [hzero, stretch, List.take_zero, List.length_nil]
    omega
  · rw [length_stretch (hin (by omega))]
    omega

/-! ## Patches that are applied -/

theorem rewrites_of_covers {placed : Prop} {p : Nat × Nat} {hs : List (List Change)}
    (h : Covers old new placed p hs) :
    Rewrites (hs.map (hunkOf old new)) (old.drop p.1) (new.drop p.2) := by
  induction h with
  | nil hskip =>
      obtain ⟨pre, hold, hnew⟩ := hskip.exists_append
      rw [List.drop_length, List.append_nil] at hold hnew
      rw [hold, hnew]
      exact .nil pre
  | @cons p q r hunk hs hskip _ hspan _ _ ih =>
      obtain ⟨pre, hold, hnew⟩ := hskip.exists_append
      obtain ⟨n, hn, -, holdLines⟩ := oldLines_of_spans hspan
      obtain ⟨m, hm, hnewLines⟩ := newLines_of_spans hspan
      rw [hold, hnew, ← stretch_append_drop old q.1 n, ← stretch_append_drop new q.2 m, ← hn, ← hm,
        ← holdLines, ← hnewLines, ← lines_hunkOf, ← List.append_assoc, ← List.append_assoc]
      exact .cons pre ih

theorem replaceFrom_of_covers {p : Nat × Nat} {hs : List (List Change)}
    (h : Covers old new True p hs) :
    replaceFrom p.1 (hs.map (hunkOf old new)) (old.drop p.1) = some (new.drop p.2) := by
  induction h with
  | nil hskip =>
      obtain ⟨pre, hold, hnew⟩ := hskip.exists_append
      rw [List.drop_length, List.append_nil] at hold hnew
      rw [hold, hnew]
      rfl
  | @cons p q r hunk hs hskip hne hspan hplaced _ ih =>
      obtain ⟨hstart, hstop⟩ := hplaced trivial
      obtain ⟨gap, hagrees, rfl⟩ := hskip
      obtain ⟨n, hn, hin, holdLines⟩ := oldLines_of_spans hspan
      obtain ⟨m, hm, hnewLines⟩ := newLines_of_spans hspan
      have hhead := List.head?_eq_some_head hne
      have hlast := List.getLast?_eq_some_getLast hne
      obtain ⟨hfirst, hlength⟩ := range_hunkOf old new hhead hlast
      rw [hstart _ hhead] at hfirst
      rw [hstart _ hhead, hstop _ hlast, hn, Nat.add_sub_cancel_left] at hlength
      have hfits : gap + n ≤ (old.drop p.1).length := by
        rw [List.length_drop]
        by_cases hzero : n = 0
        · by_cases hgap : gap = 0
          · omega
          · have := hagrees.old_le (by omega)
            omega
        · have := hin (by omega)
          simp only at this
          omega
      have hstretch : stretch (old.drop p.1) gap n = stretch old (p.1 + gap) n := by
        rw [stretch, List.drop_drop, stretch]
      have htake : (old.drop p.1).take gap ++ stretch new (p.2 + gap) m ++ new.drop r.2 =
          new.drop p.2 := by
        have hkept : (old.drop p.1).take gap = stretch new p.2 gap := hagrees.stretch_eq
        rw [hkept, hm, List.append_assoc, stretch_append_drop, stretch_append_drop]
      rw [List.map_cons, replaceFrom, hfirst, hlength, lines_hunkOf, holdLines, hnewLines]
      simp only [Nat.add_sub_cancel_left]
      rw [if_pos ⟨Nat.le_add_right _ _, hfits, hstretch⟩, List.drop_drop, ← Nat.add_assoc]
      have hr : p.1 + gap + n = r.1 := hn.symm
      rw [hr, ih, Option.map_some, htake]

/-- The ranges of hunks that can be applied hold as many lines as their hunks. -/
theorem fits_of_replaceFrom {placed : Prop} {p : Nat × Nat} {hs : List (List Change)}
    (h : Covers old new placed p hs) {i : Nat} (hi : i ≤ old.length) {ys : List Text}
    (hys : replaceFrom i (hs.map (hunkOf old new)) (old.drop i) = some ys) :
    ∀ hunk ∈ hs, Fits old.length hunk := by
  induction h generalizing i ys with
  | nil _ => exact List.forall_mem_nil _
  | @cons p q r hunk hs _ _ hspan _ _ ih =>
      rw [List.map_cons, replaceFrom] at hys
      split at hys
      · rename_i hrange
        obtain ⟨hbehind, hin, hlines⟩ := hrange
        obtain ⟨rest, hrest, -⟩ := Option.map_eq_some_iff.mp hys
        have hlength := congrArg List.length hlines
        rw [length_stretch hin, length_oldLines_hunkOf hspan] at hlength
        rw [List.length_drop] at hin
        refine List.forall_mem_cons.mpr ⟨fun first hfirst last hlast => ?_, ?_⟩
        · obtain ⟨hold, holdLength⟩ := range_hunkOf old new hfirst hlast
          rw [← holdLength, ← hlength, ← hold]
          exact ⟨rfl, by omega⟩
        · have hstop : i + ((hunkOf old new hunk).old - i + (hunkOf old new hunk).oldLength) =
              (hunkOf old new hunk).old + (hunkOf old new hunk).oldLength := by omega
          rw [List.drop_drop, hstop] at hrest
          exact ih (by omega) hrest
      · cases hys

end Patch

/-! ## The diff of two texts -/

def textChanges (old new : Text) : List Change :=
  Change.ofSteps (compact (Text.lines old) (Text.lines new) (script (Text.lines old) (Text.lines new)))

theorem spans_textChanges (old new : Text) :
    Spans (Text.lines old) (Text.lines new) (0, 0) (textChanges old new)
      ((Text.lines old).length, (Text.lines new).length) :=
  spans_ofSteps (leads_compact_script _ _)

theorem covers_textChanges (old new : Text) (placed : Prop)
    (hstart : placed → StartsAt 0 (textChanges old new))
    (hstop : placed → EndsAt (Text.lines old).length (textChanges old new)) :
    Covers (Text.lines old) (Text.lines new) placed (0, 0) (hunks (textChanges old new)) :=
  covers_hunks (spans_textChanges old new) hstart hstop

theorem Covers.ne_nil {α : Type} {old new : List α} {placed : Prop} {p : Nat × Nat}
    {hs : List (List Change)} (h : Covers old new placed p hs) : ∀ hunk ∈ hs, hunk ≠ [] := by
  induction h with
  | nil => nofun
  | cons _ hne _ _ _ ih => exact List.forall_mem_cons.mpr ⟨hne, ih⟩

theorem eq_of_lines_eq {old new : Text} (h : Text.lines old = Text.lines new) : old = new := by
  rw [← Text.flatten_lines old, h, Text.flatten_lines]

theorem hunks_textChanges_ne_nil {old new : Text} (hne : old ≠ new) :
    hunks (textChanges old new) ≠ [] := by
  intro hnil
  have hcovers := covers_textChanges old new False nofun nofun
  have hrewrites := Patch.rewrites_of_covers hcovers
  rw [hnil] at hrewrites
  generalize hold : (Text.lines old).drop 0 = xs at hrewrites
  generalize hnew : (Text.lines new).drop 0 = ys at hrewrites
  cases hrewrites
  exact hne (eq_of_lines_eq (hold.trans hnew.symm))

theorem unifiedDiff_of_ne {old new : Text} (hne : old ≠ new) (fromLabel toLabel : Text) :
    unifiedDiff old new fromLabel toLabel =
      "--- ".toList ++ fromLabel ++ "\n+++ ".toList ++ toLabel ++ ['\n'] ++
        (hunks (textChanges old new)).flatMap (hunkText (Text.lines old) (Text.lines new)) := by
  have hhunks := hunks_textChanges_ne_nil hne
  rw [unifiedDiff, if_neg hne]
  rw [textChanges] at hhunks ⊢
  cases h : hunks (Change.ofSteps (compact old.lines new.lines (script old.lines new.lines))) with
  | nil => exact absurd h hhunks
  | cons hunk hs => simp only [h]

theorem unifiedDiff_eq_nil_iff (old new fromLabel toLabel : Text) :
    unifiedDiff old new fromLabel toLabel = [] ↔ old = new := by
  refine ⟨fun h => ?_, fun h => if_pos h⟩
  by_cases hne : old = new
  · exact hne
  · rw [unifiedDiff_of_ne hne] at h
    cases h

theorem changed_of_run {config : Config} {source : Text} {r : RunResult}
    (h : run config source = .ok r) : r.changed = (r.text != source) := by
  unfold run at h
  split at h
  · cases h
  · split at h
    · cases h
    · cases h
      rfl

theorem runDiff_eq_nil_iff (config : Config) (source label : Text) :
    runDiff config source label = .ok [] ↔ ∃ r, run config source = .ok r ∧ r.changed = false := by
  unfold runDiff
  cases hrun : run config source with
  | error e => simp [Except.map]
  | ok r =>
      simp only [Except.map, Except.ok.injEq, unifiedDiff_eq_nil_iff, exists_eq_left']
      rw [changed_of_run hrun, bne_eq_false_iff_eq, eq_comm]

/-- The hunks of a diff can be applied to the old text exactly when the changes that they are made of say
that they start and end where the old text does. -/
theorem patched?_hunks_iff (old new : Text) :
    Patch.patched? ((hunks (textChanges old new)).map (Patch.hunkOf (Text.lines old) (Text.lines new)))
        old = some new ↔
      StartsAt 0 (textChanges old new) ∧ EndsAt (Text.lines old).length (textChanges old new) := by
  constructor
  · intro h
    obtain ⟨lines, hlines, -⟩ := Option.map_eq_some_iff.mp h
    have hcovers := covers_textChanges old new False nofun nofun
    have hkeeps := keepsLines_ofSteps (keepsEntries_compact_script (Text.lines old) (Text.lines new))
    refine placed_of_fits_hunks (spans_textChanges old new) hkeeps ?_
    exact Patch.fits_of_replaceFrom hcovers (Nat.zero_le _) hlines
  · rintro ⟨hstart, hstop⟩
    have happly := Patch.replaceFrom_of_covers
      (covers_textChanges old new True (fun _ => hstart) fun _ => hstop)
    rw [List.drop_zero, List.drop_zero] at happly
    rw [Patch.patched?, happly, Option.map_some, Text.flatten_lines]

/-- Unified diffs are faithful: they are empty exactly when both texts are equal, and otherwise are read
as hunks whose lines turn the old text into the new one. Their ranges are those of these lines in the
old text, unless an insertion at one of its ends says that it stands elsewhere. -/
theorem unifiedDiff_faithful (config : Config) (old new fromLabel toLabel : Text)
    (hfrom : Text.IsRow fromLabel) (hto : Text.IsRow toLabel) :
    (unifiedDiff old new fromLabel toLabel = [] ↔ old = new) ∧
      (old ≠ new → ∃ hunks, Patch.read? (unifiedDiff old new fromLabel toLabel) =
          some ⟨fromLabel, toLabel, hunks⟩ ∧
        Patch.Rewrites hunks (Text.lines old) (Text.lines new) ∧
        (Patch.patched? hunks old = some new ↔ StartsAt 0 (textChanges old new) ∧
          EndsAt (Text.lines old).length (textChanges old new))) ∧
      ∀ source label, runDiff config source label = .ok [] ↔
        ∃ r, run config source = .ok r ∧ r.changed = false := by
  refine ⟨unifiedDiff_eq_nil_iff .., fun hne => ?_, runDiff_eq_nil_iff config⟩
  have hcovers := covers_textChanges old new False nofun nofun
  refine ⟨_, ?_, Patch.rewrites_of_covers hcovers, patched?_hunks_iff old new⟩
  rw [unifiedDiff_of_ne hne]
  exact Patch.read?_printed hfrom hto hcovers.ne_nil

theorem unifiedDiff_faithful_changedLine :
    let old := "x = 1\ny = 2\n".toList
    let new := "x = 1\ny = 3".toList
    Text.IsRow "a/m.py".toList ∧ Text.IsRow "b/m.py".toList ∧ old ≠ new ∧
      StartsAt 0 (textChanges old new) ∧ EndsAt (Text.lines old).length (textChanges old new) ∧
      ∃ hunks, Patch.read? (unifiedDiff old new "a/m.py".toList "b/m.py".toList) =
          some ⟨"a/m.py".toList, "b/m.py".toList, hunks⟩ ∧ Patch.patched? hunks old = some new := by
  intro old new
  obtain ⟨-, hne, -⟩ :=
    unifiedDiff_faithful {} old new "a/m.py".toList "b/m.py".toList (by decide) (by decide)
  obtain ⟨hunks, hread, -, happly⟩ := hne (by decide)
  have hstart : StartsAt 0 (textChanges old new) := by decide +kernel
  have hstop : EndsAt (Text.lines old).length (textChanges old new) := by decide +kernel
  exact ⟨by decide, by decide, by decide, hstart, hstop, hunks, hread, happly.mpr ⟨hstart, hstop⟩⟩

/-- The insertion slid behind the line that is kept, and its place in the old text stayed. -/
example : unifiedDiff "a\nb\n".toList "b\nb\n".toList "a".toList "b".toList =
    "--- a\n+++ b\n@@ -1 +2 @@\n-a\n b\n+b\n".toList := by decide +kernel

end SchemaTidy
