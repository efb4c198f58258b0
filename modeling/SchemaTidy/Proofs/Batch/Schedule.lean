import Mathlib.Data.List.Nodup
import Mathlib.Data.List.Permutation
import SchemaTidy.Proofs.Batch.Parts
import SchemaTidy.Proofs.Batch.Turn

/-!
# Batches in any order

Each file of a batch is read once and written at most once, and nothing says in which order the files
get their turns. Main statement: as long as no two paths lead to one file, every schedule ends with the
volume and the summary of the sequential run.
-/

namespace SchemaTidy

/-- A batch on its way. -/
structure Batch where
  volume : Volume
  files : List (Text × Progress)

namespace Batch

def start (root : Volume) (paths : List Text) : Batch := ⟨root, paths.map (·, .waiting)⟩

/-- The outcomes of a batch all of whose files are done. -/
def outcomes? (b : Batch) : Option (List FileOutcome) := b.files.mapM (·.2.outcome?)

def turn (r : Refusals) (config : Config) (action : Action) (b : Batch) (i : Nat) : Batch :=
  match b.files[i]? with
  | none => b
  | some (path, progress) =>
      let (progress', volume) :=
        (progress.advance (Volume.guarded r) config action path).run b.volume
      ⟨volume, b.files.set i (path, progress')⟩

end Batch

def Volume.NoAliases (root : Volume) (paths : List Text) : Prop :=
  paths.Pairwise fun p q => ∀ location, root.locate p = .ok location → root.locate q ≠ .ok location

theorem Volume.NoAliases.locate_ne {root : Volume} {paths : List Text} (h : root.NoAliases paths)
    {i j : Nat} {p q : Text} (hij : i ≠ j) (hp : paths[i]? = some p) (hq : paths[j]? = some q)
    {location : List Text} (hlocation : root.locate p = .ok location) :
    root.locate q ≠ .ok location := by
  obtain ⟨hi, rfl⟩ := List.getElem?_eq_some_iff.mp hp
  obtain ⟨hj, rfl⟩ := List.getElem?_eq_some_iff.mp hq
  have hpairs := List.pairwise_iff_getElem.mp h
  rcases Nat.lt_or_gt_of_ne hij with hlt | hgt
  · exact hpairs i j hi hj hlt location hlocation
  · intro hq'
    exact hpairs j i hj hi hgt location hq' hlocation

/-! ## A batch on its way -/

theorem filterMap_set_perm {α β : Type} {f : α → Option β} {xs : List α} {i : Nat} {x : α}
    (hx : xs[i]? = some x) (hnone : f x = none) (y : α) :
    ((xs.set i y).filterMap f).Perm (xs.filterMap f ++ (f y).toList) := by
  induction xs generalizing i with
  | nil => cases hx
  | cons x' xs ih =>
      cases i with
      | zero =>
          obtain rfl : x' = x := by simpa using hx
          rw [List.set_cons_zero, List.filterMap_cons_none hnone]
          cases hy : f y with
          | none => simp [List.filterMap_cons_none hy]
          | some b =>
              rw [List.filterMap_cons_some hy]
              exact (List.perm_append_singleton b _).symm
      | succ i =>
          have hrest := ih (by simpa using hx)
          rw [List.set_cons_succ]
          cases hx' : f x' with
          | none => rwa [List.filterMap_cons_none hx', List.filterMap_cons_none hx']
          | some b =>
              rw [List.filterMap_cons_some hx', List.filterMap_cons_some hx']
              exact hrest.cons b

section Batch

variable (r : Refusals) (config : Config) (action : Action) (root : Volume)

/-- What has been found out about a file agrees with the volume `root`. -/
def Progress.Fits (path : Text) : Progress → Prop
  | .waiting => True
  | .pending outcome text => r.intended config action root path = (outcome, some text)
  | .done outcome => outcome = r.outcome config action root path

def Progress.made (path : Text) : Progress → Option (List Text × Text)
  | .done _ => r.write? config action root path
  | _ => none

def Batch.made (b : Batch) : List (List Text × Text) :=
  b.files.filterMap fun x => x.2.made r config action root x.1

/-- A batch on its way from the volume `root`: what is known of each file agrees with `root`, and the
volume is `root` after the writes of the files that are done. -/
structure Batch.Follows (paths : List Text) (b : Batch) : Prop where
  paths : b.files.map Prod.fst = paths
  fits : ∀ x ∈ b.files, x.2.Fits r config action root x.1
  volume : ∃ writes : List (List Text × Text), b.volume = writes.foldl Volume.commit root ∧
    writes.Perm (b.made r config action root)

variable {r config action root} {paths : List Text} {b : Batch} {i : Nat} {path : Text}
  {progress progress' : Progress}

theorem Batch.follows_start (root : Volume) (paths : List Text) :
    (start root paths).Follows r config action root paths := by
  refine ⟨by simp [start, Function.comp_def], ?_, [], rfl, ?_⟩
  · intro x hx
    obtain ⟨path, -, rfl⟩ := List.mem_map.mp hx
    trivial
  · simp [start, Batch.made, Progress.made]

theorem Batch.Follows.apart (h : b.Follows r config action root paths)
    (hpaths : root.NoAliases paths) (hx : b.files[i]? = some (path, progress))
    (hnone : progress.made r config action root path = none) {writes : List (List Text × Text)}
    (hperm : writes.Perm (b.made r config action root)) : Apart root writes path := by
  have hmade : ∀ w ∈ writes, ∃ j q, i ≠ j ∧ paths[j]? = some q ∧
      r.write? config action root q = some w := by
    intro w hw
    obtain ⟨x, hmem, hmade⟩ := List.mem_filterMap.mp (hperm.mem_iff.mp hw)
    obtain ⟨j, hj⟩ := List.getElem?_of_mem hmem
    obtain ⟨q, progress'⟩ := x
    refine ⟨j, q, ?_, ?_, ?_⟩
    · rintro rfl
      obtain ⟨rfl, rfl⟩ : path = q ∧ progress = progress' := by simpa using hx.symm.trans hj
      simp [hnone] at hmade
    · rw [← h.paths, List.getElem?_map, hj]
      rfl
    · cases progress' with
      | waiting => cases hmade
      | pending outcome text => cases hmade
      | done outcome => exact hmade
  refine ⟨fun w hw => ?_, fun w hw hlocation => ?_⟩
  · obtain ⟨j, q, -, -, hwrite⟩ := hmade w hw
    exact Refusals.isFile_of_write? hwrite
  · obtain ⟨j, q, hij, hq, hwrite⟩ := hmade w hw
    have hp : paths[i]? = some path := by
      rw [← h.paths, List.getElem?_map, hx]
      rfl
    exact hpaths.locate_ne hij hp hq hlocation (Refusals.write?_eq_some.mp hwrite).2.2

theorem Batch.Follows.set (h : b.Follows r config action root paths)
    (hx : b.files[i]? = some (path, progress))
    (hnone : progress.made r config action root path = none)
    (hfits : progress'.Fits r config action root path) :
    Batch.Follows r config action root paths
      ⟨(progress'.made r config action root path).toList.foldl Volume.commit b.volume,
        b.files.set i (path, progress')⟩ := by
  obtain ⟨writes, hvolume, hperm⟩ := h.volume
  refine ⟨?_, ?_, writes ++ (progress'.made r config action root path).toList, ?_, ?_⟩
  · have hp : (b.files.map Prod.fst)[i]? = some path := by
      rw [List.getElem?_map, hx]
      rfl
    obtain ⟨hi, hget⟩ := List.getElem?_eq_some_iff.mp hp
    rw [← h.paths, List.map_set, ← hget]
    exact List.set_getElem_self hi
  · intro x hmem
    rcases List.mem_or_eq_of_mem_set hmem with hmem | rfl
    · exact h.fits x hmem
    · exact hfits
  · rw [List.foldl_append, hvolume]
  · have hset := filterMap_set_perm (f := fun x => x.2.made r config action root x.1) hx hnone
      (path, progress')
    exact (hperm.append_right _).trans hset.symm

/-- Every turn keeps a batch on its way. -/
theorem Batch.Follows.turn (h : b.Follows r config action root paths)
    (hpaths : root.NoAliases paths) (i : Nat) :
    (b.turn r config action i).Follows r config action root paths := by
  unfold Batch.turn
  split
  · exact h
  · rename_i path progress hx
    obtain ⟨writes, hvolume, hperm⟩ := h.volume
    cases progress with
    | waiting =>
        rw [hvolume, (h.apart hpaths hx rfl hperm).advance_waiting, ← hvolume]
        simp only
        rcases hintended : r.intended config action root path with ⟨outcome, text?⟩
        cases text? with
        | none =>
            have hdone : (Progress.done outcome).Fits r config action root path := by
              simp [Progress.Fits, Refusals.outcome, hintended]
            have hset := h.set hx rfl hdone
            simpa [Progress.made, Refusals.write?, hintended] using hset
        | some text =>
            have hpending : (Progress.pending outcome text).Fits r config action root path :=
              hintended
            exact h.set hx rfl hpending
    | pending outcome text =>
        have hfits := h.fits _ (List.mem_of_getElem? hx)
        obtain ⟨rfl, htext⟩ : (r.intended config action root path).1 = outcome ∧
            (r.intended config action root path).2 = some text := by
          simpa [Progress.Fits] using Prod.ext_iff.mp hfits
        have hdone : (Progress.done (r.outcome config action root path)).Fits r config action root
            path := rfl
        rw [hvolume, (h.apart hpaths hx rfl hperm).advance_pending htext, ← hvolume]
        exact h.set hx rfl hdone
    | done outcome =>
        obtain ⟨hi, hget⟩ := List.getElem?_eq_some_iff.mp hx
        have hsame : b.files.set i (path, .done outcome) = b.files := by
          rw [← hget]
          exact List.set_getElem_self hi
        show Batch.Follows r config action root paths ⟨b.volume, b.files.set i (path, .done outcome)⟩
        rw [hsame]
        exact h

theorem Batch.follows_turns (hpaths : root.NoAliases paths) (schedule : List Nat) :
    (schedule.foldl (Batch.turn r config action) (start root paths)).Follows r config action root
      paths := by
  have hturns (b : Batch) (h : b.Follows r config action root paths) :
      (schedule.foldl (Batch.turn r config action) b).Follows r config action root paths := by
    induction schedule generalizing b with
    | nil => exact h
    | cons i schedule ih => exact ih _ (h.turn hpaths i)
  exact hturns _ (follows_start root paths)

/-- Files that are all done have their outcomes and have made their writes. -/
theorem outcomes_of_done {files : List (Text × Progress)} {outcomes : List FileOutcome}
    (hfits : ∀ x ∈ files, x.2.Fits r config action root x.1)
    (h : files.mapM (·.2.outcome?) = some outcomes) :
    outcomes = (files.map Prod.fst).map (r.outcome config action root) ∧
      files.filterMap (fun x => x.2.made r config action root x.1) =
        (files.map Prod.fst).filterMap (r.write? config action root) := by
  induction files generalizing outcomes with
  | nil =>
      obtain rfl : [] = outcomes := by simpa using h
      exact ⟨rfl, rfl⟩
  | cons x files ih =>
      obtain ⟨path, progress⟩ := x
      obtain ⟨hx, hfiles⟩ := List.forall_mem_cons.mp hfits
      simp only [List.mapM_cons, Option.bind_eq_bind, Option.bind_eq_some_iff, Option.pure_def,
        Option.some.injEq] at h
      obtain ⟨outcome, houtcome, rest, hrest, rfl⟩ := h
      obtain ⟨hrest, hwrites⟩ := ih hfiles hrest
      cases progress with
      | waiting => cases houtcome
      | pending outcome' text => cases houtcome
      | done outcome' =>
          obtain rfl : outcome' = outcome := Option.some.inj houtcome
          obtain rfl : outcome' = r.outcome config action root path := hx
          refine ⟨by rw [List.map_cons, List.map_cons, hrest], ?_⟩
          rw [List.map_cons, List.filterMap_cons, List.filterMap_cons, hwrites]
          rfl

theorem nodup_writes (hpaths : root.NoAliases paths) :
    ((paths.filterMap (r.write? config action root)).map Prod.fst).Nodup := by
  rw [List.Nodup, List.pairwise_map, List.pairwise_filterMap]
  refine hpaths.imp fun {p q} hpq w hw u hu heq => ?_
  have hw := (Refusals.write?_eq_some.mp hw).2.2
  have hu := (Refusals.write?_eq_some.mp hu).2.2
  exact hpq w.1 hw (heq ▸ hu)

theorem isFile_of_mem_writes {w : List Text × Text}
    (hw : w ∈ paths.filterMap (r.write? config action root)) : root.IsFile w.1 := by
  obtain ⟨path, -, hwrite⟩ := List.mem_filterMap.mp hw
  exact Refusals.isFile_of_write? hwrite

/-- Writes of a batch can be made in any order. -/
theorem foldl_commit_perm (hpaths : root.NoAliases paths) {writes : List (List Text × Text)}
    (h : writes.Perm (paths.filterMap (r.write? config action root))) :
    writes.foldl Volume.commit root =
      (paths.filterMap (r.write? config action root)).foldl Volume.commit root := by
  refine (h.symm.foldl_eq' (fun x hx y hy z => ?_) root).symm
  by_cases hxy : x.1 = y.1
  · rw [List.inj_on_of_nodup_map (nodup_writes hpaths) hx hy hxy]
  · exact Volume.commit_comm (isFile_of_mem_writes hx) (isFile_of_mem_writes hy) hxy z

theorem Batch.Follows.finished (h : b.Follows r config action root paths)
    (hpaths : root.NoAliases paths) {outcomes : List FileOutcome}
    (houtcomes : b.outcomes? = some outcomes) :
    outcomes = paths.map (r.outcome config action root) ∧
      b.volume = (paths.filterMap (r.write? config action root)).foldl Volume.commit root := by
  obtain ⟨writes, hvolume, hperm⟩ := h.volume
  obtain ⟨hall, hmade⟩ := outcomes_of_done h.fits houtcomes
  rw [h.paths] at hall hmade
  rw [Batch.made, hmade] at hperm
  exact ⟨hall, hvolume.trans (foldl_commit_perm hpaths hperm)⟩

theorem processFiles_run (hpaths : root.NoAliases paths) :
    (processFiles (Volume.guarded r) config action paths).run root =
      (paths.map (r.outcome config action root),
        (paths.filterMap (r.write? config action root)).foldl Volume.commit root) := by
  have hfrom (before rest : List Text) (h : root.NoAliases (before ++ rest)) :
      (rest.mapM (processFile (Volume.guarded r) config action)).run
          ((before.filterMap (r.write? config action root)).foldl Volume.commit root) =
        (rest.map (r.outcome config action root),
          ((before ++ rest).filterMap (r.write? config action root)).foldl Volume.commit root) := by
    induction rest generalizing before with
    | nil =>
        rw [List.append_nil]
        rfl
    | cons path rest ih =>
        have happart : Apart root (before.filterMap (r.write? config action root)) path := by
          refine ⟨fun w hw => isFile_of_mem_writes hw, fun w hw hlocation => ?_⟩
          obtain ⟨q, hq, hwrite⟩ := List.mem_filterMap.mp hw
          have hpair := (List.pairwise_append.mp h).2.2 q hq path (List.mem_cons_self)
          exact hpair w.1 (Refusals.write?_eq_some.mp hwrite).2.2 hlocation
        have hstep := ih (before ++ [path]) (by simpa using h)
        have hsplit : (before ++ [path]).filterMap (r.write? config action root) =
            before.filterMap (r.write? config action root) ++
              (r.write? config action root path).toList := by
          rw [List.filterMap_append]
          cases hwrite : r.write? config action root path <;> simp [hwrite]
        rw [hsplit, List.foldl_append, List.append_assoc, List.singleton_append] at hstep
        rw [List.mapM_cons, StateM.run_bind, happart.processFile_run, StateM.run_bind, hstep]
        rfl
  exact hfrom [] paths hpaths

/-! ## Turns that suffice -/

theorem Progress.left_advance (progress : Progress) (v : Volume) :
    ((progress.advance (Volume.guarded r) config action path).run v).1.left ≤
      progress.left - 1 := by
  cases progress with
  | waiting =>
      rw [Progress.advance, StateM.run_bind]
      generalize ((Volume.guarded r).read path).run v = content
      rcases outcomeOf config action path content.1 with ⟨outcome, text?⟩
      cases text? with
      | none => exact Nat.zero_le _
      | some text => exact Nat.le_refl 1
  | pending outcome text =>
      rw [Progress.advance, StateM.run_bind]
      generalize ((Volume.guarded r).write path text).run v = written
      obtain ⟨written, v'⟩ := written
      cases written <;> exact Nat.le_refl 0
  | done outcome => exact Nat.le_refl 0

theorem Batch.left_turn {j : Nat} {x : Text × Progress}
    (hx : (b.turn r config action i).files[j]? = some x) :
    ∃ y, b.files[j]? = some y ∧ x.2.left ≤ y.2.left - if i = j then 1 else 0 := by
  unfold Batch.turn at hx
  split at hx
  · rename_i hnone
    refine ⟨x, hx, ?_⟩
    have hij : i ≠ j := by
      rintro rfl
      rw [hx] at hnone
      cases hnone
    simp [hij]
  · rename_i path progress hi
    have hset : (b.files.set i (path,
        ((progress.advance (Volume.guarded r) config action path).run b.volume).1))[j]? = some x := hx
    rw [List.getElem?_set] at hset
    split at hset
    · rename_i hij
      subst hij
      split at hset
      · obtain rfl := Option.some.inj hset
        exact ⟨_, hi, by simpa using Progress.left_advance progress b.volume⟩
      · cases hset
    · rename_i hij
      exact ⟨x, hset, by simp [hij]⟩

theorem Batch.left_turns (schedule : List Nat) {j : Nat} {x : Text × Progress}
    (hx : (schedule.foldl (Batch.turn r config action) b).files[j]? = some x) :
    ∃ y, b.files[j]? = some y ∧ x.2.left ≤ y.2.left - schedule.count j := by
  induction schedule generalizing b with
  | nil => exact ⟨x, hx, by simp⟩
  | cons i schedule ih =>
      obtain ⟨y, hy, hle⟩ := ih hx
      obtain ⟨z, hz, hle'⟩ := Batch.left_turn hy
      refine ⟨z, hz, ?_⟩
      rw [List.count_cons]
      by_cases hij : i = j
      · simp only [hij, if_true, beq_self_eq_true] at hle' ⊢
        omega
      · simp only [hij, if_false, beq_iff_eq] at hle' ⊢
        omega

theorem isSome_outcomes {files : List (Text × Progress)} (h : ∀ x ∈ files, x.2.left = 0) :
    (files.mapM fun x : Text × Progress => x.2.outcome?).isSome = true := by
  induction files with
  | nil => rfl
  | cons x files ih =>
      obtain ⟨hx, hfiles⟩ := List.forall_mem_cons.mp h
      obtain ⟨outcomes, houtcomes⟩ := Option.isSome_iff_exists.mp (ih hfiles)
      obtain ⟨path, progress⟩ := x
      cases progress with
      | waiting => cases hx
      | pending outcome text => cases hx
      | done outcome =>
          rw [List.mapM_cons, houtcomes]
          rfl

/-- Two turns for each file finish a batch. -/
theorem Batch.isSome_outcomes_turns (root : Volume) {paths : List Text} {schedule : List Nat}
    (h : ∀ i < paths.length, 2 ≤ schedule.count i) :
    (schedule.foldl (Batch.turn r config action) (start root paths)).outcomes?.isSome = true := by
  refine isSome_outcomes fun x hx => ?_
  obtain ⟨j, hj⟩ := List.getElem?_of_mem hx
  obtain ⟨y, hy, hle⟩ := Batch.left_turns schedule hj
  rw [start, List.getElem?_map] at hy
  obtain ⟨path, hpath, rfl⟩ := Option.map_eq_some_iff.mp hy
  have hcount := h j (List.getElem?_eq_some_iff.mp hpath).1
  have hwaiting : x.2.left ≤ 2 - schedule.count j := hle
  omega

end Batch

/-- A batch in which no two paths lead to one file ends like the sequential run, whichever file gets its
turns when and however its outcomes are cut into parts. Only files that are to be written change, each
to the text that has been made from its own. -/
theorem batch_sequential (r : Refusals) (config : Config) (action : Action) {root : Volume}
    {paths : List Text} (hpaths : root.NoAliases paths) (schedule : List Nat) :
    let sequential := (processFiles (Volume.guarded r) config action paths).run root
    let batch := schedule.foldl (Batch.turn r config action) (.start root paths)
    ((∀ i < paths.length, 2 ≤ schedule.count i) → batch.outcomes?.isSome = true) ∧
      (∀ part s, Reduces part s → s.changed + s.failed ≤ s.processed) ∧
      ∀ outcomes, batch.outcomes? = some outcomes →
        batch.volume = sequential.2 ∧ outcomes = sequential.1 ∧
          (∀ total, Reduces outcomes total →
            total = Summary.ofOutcomes sequential.1 ∧ total.files = outcomes ∧
              total.files.map (·.path) = paths ∧ total.processed = paths.length ∧
              total.changed + total.failed ≤ total.processed ∧
              (paths.length ≤ 0xFFFFFFFFFFFFFFFF →
                total.unchanged = total.processed - total.changed - total.failed ∧
                  Summary.countSub total.processed total.failed =
                    total.processed - total.failed)) ∧
          ∀ location, batch.volume.node? location = root.node? location ∨
            ∃ path ∈ paths, ∃ source result, action = .write ∧
              root.locate path = .ok location ∧ r.readText root path = .ok source ∧
              run config source = .ok result ∧ result.text ≠ source ∧
              batch.volume.node? location = some (.file (some result.text)) := by
  intro sequential batch
  refine ⟨Batch.isSome_outcomes_turns root, fun _ _ h => h.accounted, fun outcomes houtcomes => ?_⟩
  obtain ⟨hall, hvolume⟩ := (Batch.follows_turns hpaths schedule).finished hpaths houtcomes
  have hsequential : sequential = _ := processFiles_run hpaths
  rw [hsequential]
  refine ⟨hvolume, hall, fun total htotal => ?_, fun location => ?_⟩
  · have haccounted := htotal.accounted
    obtain rfl := htotal.eq_ofOutcomes
    obtain ⟨hfiles, hprocessed⟩ := Summary.ofOutcomes_files outcomes
    have hlength : outcomes.length = paths.length := by rw [hall, List.length_map]
    refine ⟨by rw [hall], hfiles, ?_, by rw [hprocessed, hlength], haccounted, fun hsize => ?_⟩
    · rw [hfiles, hall, List.map_map]
      exact List.map_id'' (fun path => Refusals.path_outcome) paths
    · exact Summary.unchanged_eq haccounted (by rw [hprocessed, hlength]; exact hsize)
  · by_cases hlocation : ∃ w ∈ paths.filterMap (r.write? config action root), w.1 = location
    · obtain ⟨w, hw, rfl⟩ := hlocation
      obtain ⟨path, hpath, hwrite⟩ := List.mem_filterMap.mp hw
      obtain ⟨htext, -, hlocation⟩ := Refusals.write?_eq_some.mp hwrite
      obtain ⟨source, result, location, haction, -, -, hread, hrun, hne, hresult⟩ :=
        Refusals.exists_of_intended htext
      refine .inr ⟨path, hpath, source, result, haction, hlocation, hread, hrun, hne, ?_⟩
      rw [hvolume, hresult]
      exact Volume.node?_foldl_commit_mem (fun u hu => isFile_of_mem_writes hu)
        (nodup_writes hpaths) hw
    · left
      rw [hvolume]
      exact Volume.node?_foldl_commit (fun w hw => isFile_of_mem_writes hw)
        fun w hw heq => hlocation ⟨w, hw, heq⟩

/-- A file to change, one whose bytes are not UTF-8, a link to the root, and a directory with a file to
change and one that cannot be parsed. -/
def mixedVolume : Volume :=
  .directory [
    ("a".toList, .file (some "# todo  \n".toList)),
    ("b".toList, .file none),
    ("l".toList, .link "d/..".toList),
    ("d".toList, .directory [
      ("c".toList, .file (some "# note".toList)),
      ("e".toList, .file (some "(".toList))])]

def mixedPaths : List Text := ["a".toList, "l/b".toList, "d/c".toList, "./d/e".toList]

def protectedFile : Refusals where
  write path := if path = "d/c".toList then some .notFound else none

theorem noAliases_mixedVolume : mixedVolume.NoAliases mixedPaths := by
  have ha : mixedVolume.locate "a".toList = .ok ["a".toList] := by cbv
  have hb : mixedVolume.locate "l/b".toList = .ok ["b".toList] := by cbv
  have hc : mixedVolume.locate "d/c".toList = .ok ["d".toList, "c".toList] := by cbv
  have he : mixedVolume.locate "./d/e".toList = .ok ["d".toList, "e".toList] := by cbv
  simp only [Volume.NoAliases, mixedPaths, List.pairwise_cons, List.mem_cons, forall_eq_or_imp,
    ha, hb, hc, he]
  simp

theorem batch_sequential_mixedVolume :
    mixedVolume.NoAliases mixedPaths ∧
      let sequential := (processFiles (Volume.guarded protectedFile) {} .write mixedPaths).run mixedVolume
      let batch := [2, 0, 1, 2, 3, 1, 0, 3].foldl (Batch.turn protectedFile {} .write)
        (.start mixedVolume mixedPaths)
      ∃ outcomes, batch.outcomes? = some outcomes ∧ batch.volume = sequential.2 ∧
        batch.volume.node? ["a".toList] = some (.file (some "# todo\n".toList)) ∧
        ∀ left right, left ++ right = outcomes →
          (Summary.ofOutcomes left).merge (Summary.ofOutcomes right) =
            Summary.ofOutcomes sequential.1 := by
  have hall := batch_sequential protectedFile {} .write noAliases_mixedVolume [2, 0, 1, 2, 3, 1, 0, 3]
  obtain ⟨hdone, -, hsame⟩ := hall
  obtain ⟨outcomes, houtcomes⟩ := Option.isSome_iff_exists.mp (hdone (by decide))
  obtain ⟨hvolume, -, hparts, -⟩ := hsame outcomes houtcomes
  refine ⟨noAliases_mixedVolume, outcomes, houtcomes, hvolume, ?_, fun left right hsplit => ?_⟩
  · have hread : protectedFile.readText mixedVolume "a".toList = .ok "# todo  \n".toList := by cbv
    have hlocate : mixedVolume.locate "a".toList = .ok ["a".toList] := by cbv
    have hwrite : protectedFile.write? {} .write mixedVolume "a".toList =
        some (["a".toList], "# todo\n".toList) := by
      refine Refusals.write?_eq_some.mpr ⟨?_, by decide, hlocate⟩
      rw [Refusals.intended, hread]
      decide +kernel
    rw [hvolume, processFiles_run noAliases_mixedVolume]
    exact Volume.node?_foldl_commit_mem (fun w hw => isFile_of_mem_writes hw)
      (nodup_writes noAliases_mixedVolume)
      (List.mem_filterMap.mpr ⟨"a".toList, by decide, hwrite⟩)
  · exact (hparts _ (hsplit ▸ .merge (.fold left) (.fold right))).1

end SchemaTidy
