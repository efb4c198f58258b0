import SchemaTidy.Batch.Outcome
import SchemaTidy.Proofs.Files.Volume

/-!
# The turns of one file

A file of a batch is read in one turn and, if it gets a new text, written in another. What comes of it
depends on its own text only: writes to other files in between change nothing.
-/

namespace SchemaTidy

/-- What a system refuses to read and to write, with the reasons. -/
structure Refusals where
  read : Text → Option FileError := fun _ => none
  write : Text → Option FileError := fun _ => none

/-- Access to a volume through a system that refuses some of it. -/
def Volume.guarded (r : Refusals) : Storage (StateM Volume) where
  lookup := Volume.storage.lookup
  read path :=
    match r.read path with
    | some e => return .error e
    | none => Volume.storage.read path
  write path text :=
    match r.write path with
    | some e => return .error e
    | none => Volume.storage.write path text

theorem Volume.guarded_nothing : Volume.guarded {} = Volume.storage := rfl

/-- How far a file has come. -/
inductive Progress where
  | waiting
  /-- The file has been read, and a new text is to be written. -/
  | pending (outcome : FileOutcome) (text : Text)
  | done (outcome : FileOutcome)

namespace Progress

def outcome? : Progress → Option FileOutcome
  | done outcome => some outcome
  | _ => none

def left : Progress → Nat
  | waiting => 2
  | pending .. => 1
  | done _ => 0

section
variable {m : Type → Type} [Monad m]

/-- The next operation on a file: reading it, or writing its new text. -/
def advance (s : Storage m) (config : Config) (action : Action) (path : Text) :
    Progress → m Progress
  | waiting => do
      match outcomeOf config action path (← s.read path) with
      | (outcome, none) => return done outcome
      | (outcome, some text) => return pending outcome text
  | pending outcome text => do
      match ← s.write path text with
      | .ok _ => return done outcome
      | .error e => return done ⟨path, .error (.write e)⟩
  | done outcome => return done outcome

/-- Processing a file is two turns without a pause. -/
theorem processFile_eq [LawfulMonad m] (s : Storage m) (config : Config) (action : Action)
    (path : Text) :
    some <$> processFile s config action path =
      outcome? <$> (waiting.advance s config action path >>= advance s config action path) := by
  simp only [processFile, advance, map_bind, bind_assoc]
  congr 1
  funext content
  rcases outcomeOf config action path content with ⟨outcome, text?⟩
  cases text? with
  | none => simp [outcome?]
  | some text =>
      simp only [pure_bind, map_bind]
      congr 1
      funext written
      cases written <;> simp [outcome?]

end

end Progress

/-! ## One file by itself -/

namespace Refusals

variable (r : Refusals)

/-- The text of the file at a path, if reading it is not refused. -/
def readText (v : Volume) (path : Text) : Except FileError Text :=
  match r.read path with
  | some e => .error e
  | none => v.read path

variable (config : Config) (action : Action)

/-- What a file is to become, by its text in `root`. -/
def intended (root : Volume) (path : Text) : FileOutcome × Option Text :=
  outcomeOf config action path (r.readText root path)

/-- The write that processing a file comes to, by the volume `root`. -/
def write? (root : Volume) (path : Text) : Option (List Text × Text) :=
  match (r.intended config action root path).2, r.write path, root.locate path with
  | some text, none, .ok location => some (location, text)
  | _, _, _ => none

def outcome (root : Volume) (path : Text) : FileOutcome :=
  match (r.intended config action root path).2, r.write path with
  | some _, some e => ⟨path, .error (.write e)⟩
  | _, _ => (r.intended config action root path).1

variable {r config action} {root : Volume} {path : Text}

theorem outcomeOf_path (content : Except FileError Text) :
    (outcomeOf config action path content).1.path = path := by
  unfold outcomeOf
  split
  · rfl
  · split <;> rfl

/-- A text is written only in place of another one, from which it has been made. -/
theorem outcomeOf_write {content : Except FileError Text} {text : Text}
    (h : (outcomeOf config action path content).2 = some text) :
    ∃ source result, content = .ok source ∧ run config source = .ok result ∧ action = .write ∧
      result.changed = true ∧ result.text = text := by
  unfold outcomeOf at h
  split at h
  · cases h
  · rename_i source
    split at h
    · cases h
    · rename_i result hresult
      simp only [Option.ite_none_right_eq_some, Bool.and_eq_true, beq_iff_eq,
        Option.some.injEq] at h
      exact ⟨source, result, rfl, hresult, h.1.1, h.1.2, h.2⟩

theorem text_ne_of_changed {source : Text} {result : RunResult} (h : run config source = .ok result)
    (hchanged : result.changed = true) : result.text ≠ source := by
  unfold run at h
  split at h
  · cases h
  · split at h
    · cases h
    · cases h
      simpa using hchanged

theorem path_outcome : (r.outcome config action root path).path = path := by
  unfold outcome
  split
  · rfl
  · exact outcomeOf_path _

/-- A file that is to be written is there, and its text is the source. -/
theorem exists_of_intended {text : Text} (h : (r.intended config action root path).2 = some text) :
    ∃ source result location, action = .write ∧ root.locate path = .ok location ∧
      root.at? location = some (.file (some source)) ∧ r.readText root path = .ok source ∧
      run config source = .ok result ∧ result.text ≠ source ∧ result.text = text := by
  obtain ⟨source, result, hread, hrun, haction, hchanged, htext⟩ := outcomeOf_write h
  have hroot : root.read path = .ok source := by
    unfold readText at hread
    split at hread
    · cases hread
    · exact hread
  obtain ⟨location, hlocation, hfile⟩ := Volume.read_eq_ok hroot
  exact ⟨source, result, location, haction, hlocation, hfile, hread, hrun,
    text_ne_of_changed hrun hchanged, htext⟩

theorem write?_eq_some {w : List Text × Text} :
    r.write? config action root path = some w ↔
      (r.intended config action root path).2 = some w.2 ∧ r.write path = none ∧
        root.locate path = .ok w.1 := by
  unfold write?
  constructor
  · intro h
    split at h
    · rename_i text location htext hwrite hlocation
      cases h
      exact ⟨htext, hwrite, hlocation⟩
    · cases h
  · rintro ⟨htext, hwrite, hlocation⟩
    simp only [htext, hwrite, hlocation]

theorem isFile_of_write? {w : List Text × Text} (h : r.write? config action root path = some w) :
    root.IsFile w.1 := by
  obtain ⟨htext, -, hlocation⟩ := write?_eq_some.mp h
  obtain ⟨source, -, location, -, hlocation', hfile, -⟩ := exists_of_intended htext
  obtain rfl : location = w.1 := Except.ok.inj (hlocation'.symm.trans hlocation)
  exact ⟨some source, hfile⟩

end Refusals

theorem StateM.run_bind {σ α β : Type} (x : StateM σ α) (f : α → StateM σ β) (s : σ) :
    (x >>= f).run s = (f (x.run s).1).run (x.run s).2 := rfl

theorem StateM.run_map {σ α β : Type} (f : α → β) (x : StateM σ α) (s : σ) :
    (f <$> x).run s = (f (x.run s).1, (x.run s).2) := rfl

theorem Volume.run_storage_write {v v' : Volume} {path text : Text}
    (h : v.write path text = .ok v') : (Volume.storage.write path text).run v = (.ok (), v') := by
  have hget : (get : StateM Volume Volume).run v = (v, v) := rfl
  simp only [Volume.storage, StateM.run_bind, hget, h]
  rfl

/-- Writes to files of a volume, none of which is the one that a path leads to. -/
structure Apart (root : Volume) (writes : List (List Text × Text)) (path : Text) : Prop where
  isFile : ∀ w ∈ writes, root.IsFile w.1
  locate_ne : ∀ w ∈ writes, root.locate path ≠ .ok w.1

section Turn

variable {r : Refusals} {config : Config} {action : Action} {root : Volume}
  {writes : List (List Text × Text)} {path : Text}

theorem Apart.locate_eq (h : Apart root writes path) :
    (writes.foldl Volume.commit root).locate path = root.locate path :=
  Volume.locate_congr (Volume.shape?_foldl_commit h.isFile) path

theorem Apart.readText_eq (h : Apart root writes path) :
    r.readText (writes.foldl Volume.commit root) path = r.readText root path := by
  have hread : (writes.foldl Volume.commit root).read path = root.read path := by
    cases hlocation : root.locate path with
    | error e => rw [Volume.read, Volume.read, h.locate_eq, hlocation]
    | ok location =>
        rw [Volume.read_of_locate (h.locate_eq.trans hlocation), Volume.read_of_locate hlocation,
          Volume.node?_foldl_commit h.isFile]
        rintro w hw rfl
        exact h.locate_ne w hw hlocation
  rw [Refusals.readText, Refusals.readText, hread]

theorem Apart.advance_waiting (h : Apart root writes path) :
    (Progress.waiting.advance (Volume.guarded r) config action path).run
        (writes.foldl Volume.commit root) =
      ((match r.intended config action root path with
        | (outcome, none) => .done outcome
        | (outcome, some text) => .pending outcome text), writes.foldl Volume.commit root) := by
  have hread : ((Volume.guarded r).read path).run (writes.foldl Volume.commit root) =
      (r.readText root path, writes.foldl Volume.commit root) := by
    rw [← h.readText_eq, Refusals.readText, Volume.guarded]
    simp only
    split <;> rfl
  rw [Progress.advance, StateM.run_bind, hread, Refusals.intended]
  simp only
  rcases outcomeOf config action path (r.readText root path) with ⟨outcome, text?⟩
  cases text? <;> rfl

theorem Apart.advance_pending (h : Apart root writes path) {text : Text}
    (htext : (r.intended config action root path).2 = some text) :
    ((Progress.pending (r.intended config action root path).1 text).advance (Volume.guarded r)
        config action path).run (writes.foldl Volume.commit root) =
      (.done (r.outcome config action root path),
        (r.write? config action root path).toList.foldl Volume.commit
          (writes.foldl Volume.commit root)) := by
  cases hrefused : r.write path with
  | some e =>
      simp only [Progress.advance, Volume.guarded, hrefused, Refusals.outcome, Refusals.write?, htext]
      rfl
  | none =>
      obtain ⟨source, result, location, -, hlocation, hfile, -⟩ :=
        Refusals.exists_of_intended htext
      have hthere : (writes.foldl Volume.commit root).IsFile location := by
        rw [Volume.isFile_iff_shape?, Volume.shape?_foldl_commit h.isFile,
          ← Volume.isFile_iff_shape?]
        exact ⟨_, hfile⟩
      have hwrite := Volume.write_of_isFile (h.locate_eq.trans hlocation) hthere text
      have hrun : ((Volume.guarded r).write path text).run (writes.foldl Volume.commit root) =
          (.ok (), (writes.foldl Volume.commit root).commit (location, text)) := by
        simp only [Volume.guarded, hrefused]
        exact Volume.run_storage_write hwrite
      rw [Progress.advance, StateM.run_bind, hrun]
      simp only [Refusals.outcome, Refusals.write?, htext, hrefused, hlocation]
      rfl

/-- Processing a file after writes to others gives its outcome and makes its write. -/
theorem Apart.processFile_run (h : Apart root writes path) :
    (processFile (Volume.guarded r) config action path).run (writes.foldl Volume.commit root) =
      (r.outcome config action root path, (r.write? config action root path).toList.foldl Volume.commit
        (writes.foldl Volume.commit root)) := by
  have hturns := congrArg (StateT.run · (writes.foldl Volume.commit root))
    (Progress.processFile_eq (Volume.guarded r) config action path)
  simp only [StateM.run_map, StateM.run_bind, h.advance_waiting] at hturns
  rcases hintended : r.intended config action root path with ⟨outcome, text?⟩
  rw [hintended] at hturns
  cases text? with
  | none =>
      have hwrite : r.write? config action root path = none := by
        simp [Refusals.write?, hintended]
      have houtcome : r.outcome config action root path = outcome := by
        simp [Refusals.outcome, hintended]
      obtain ⟨hfirst, hvolume⟩ := Prod.mk.inj hturns
      rw [hwrite, houtcome]
      exact Prod.ext (Option.some.inj hfirst) hvolume
  | some text =>
      have hpending := h.advance_pending (congrArg Prod.snd hintended)
      rw [hintended] at hpending
      rw [hpending] at hturns
      obtain ⟨hfirst, hvolume⟩ := Prod.mk.inj hturns
      exact Prod.ext (Option.some.inj hfirst) hvolume

end Turn

end SchemaTidy
