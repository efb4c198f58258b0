import SchemaTidy.Diff.Script

/-!
# Compact scripts

Slides insertions over kept stretches that repeat their entries and joins steps of one kind that come
to stand beside each other, first for deletions and then for insertions.
-/

namespace SchemaTidy

namespace Step

/-- The step moved towards the start by `n` entries. -/
def moveUp (s : Step) (n : Nat) : Step := { s with old := s.old - n, new := s.new - n }

/-- The step moved towards the end by `n` entries. -/
def moveDown (s : Step) (n : Nat) : Step := { s with old := s.old + n, new := s.new + n }

def growUp (s : Step) (n : Nat) : Step :=
  { s with old := s.old - n, new := s.new - n, length := s.length + n }

def growDown (s : Step) (n : Nat) : Step := { s with length := s.length + n }

def dropEnd (s : Step) (n : Nat) : Step := { s with length := s.length - n }

def dropStart (s : Step) (n : Nat) : Step :=
  { s with old := s.old + n, new := s.new + n, length := s.length - n }

end Step

/-- A script with one of its steps in focus. The steps before it are in reverse order. -/
structure Focus where
  before : List Step
  step : Step
  after : List Step

def stepsWeight : List Step → Nat
  | [] => 0
  | s :: steps => s.length + 1 + stepsWeight steps

variable {α : Type} [DecidableEq α]

def stretch (xs : List α) (start length : Nat) : List α := (xs.drop start).take length

/-- Length of the common end of the old entries of `kept` and the new entries of `s`. -/
def slideUpLength (old new : List α) (kept s : Step) : Nat :=
  commonLength (stretch old kept.old kept.oldLength).reverse
    (stretch new s.new s.newLength).reverse

/-- Length of the common start of the old entries of `kept` and the new entries of `s`. -/
def slideDownLength (old new : List α) (kept s : Step) : Nat :=
  commonLength (stretch old kept.old kept.oldLength) (stretch new s.new s.newLength)

/-- Slides the step in focus towards the start as far as possible. -/
def slideUp (old new : List α) (before : List Step) (s : Step) (after : List Step) : Focus :=
  match before with
  | [] => ⟨[], s, after⟩
  | p :: rest =>
      if p.kind = s.kind then slideUp old new rest (p.growDown s.length) after
      else if p.kind = .equal then
        let n := slideUpLength old new p s
        if _ : 0 < n ∧ n ≤ p.length then
          let after := match after with
            | next :: following =>
                if next.kind = .equal then next.growUp n :: following
                else ⟨.equal, p.old + p.length - n, s.new + s.newLength - n, n⟩ :: after
            | [] => [⟨.equal, p.old + p.length - n, s.new + s.newLength - n, n⟩]
          if p.length = n then slideUp old new rest (s.moveUp n) after
          else slideUp old new (p.dropEnd n :: rest) (s.moveUp n) after
        else if p.length = 0 then slideUp old new rest s after
        else ⟨before, s, after⟩
      else slideUp old new rest s (p :: after)
termination_by stepsWeight before
decreasing_by all_goals simp [stepsWeight, Step.dropEnd]; try omega

/-- Slides the step in focus towards the end as far as possible. -/
def slideDown (old new : List α) (before : List Step) (s : Step) (after : List Step) : Focus :=
  match after with
  | [] => ⟨before, s, []⟩
  | q :: rest =>
      if q.kind = s.kind then slideDown old new before (s.growDown q.length) rest
      else if q.kind = .equal then
        let n := slideDownLength old new q s
        if _ : 0 < n ∧ n ≤ q.length then
          let before := match before with
            | previous :: others =>
                if previous.kind = .equal then previous.growDown n :: others
                else ⟨.equal, q.old, s.new, n⟩ :: before
            | [] => [⟨.equal, q.old, s.new, n⟩]
          if q.length = n then slideDown old new before (s.moveDown n) rest
          else slideDown old new before (s.moveDown n) (q.dropStart n :: rest)
        else if q.length = 0 then slideDown old new before s rest
        else ⟨before, s, after⟩
      else slideDown old new (q :: before) s rest
termination_by stepsWeight after
decreasing_by all_goals simp [stepsWeight, Step.dropStart]; try omega

/-- Slides every step of one kind, from the start to the end, for at most `fuel` steps. -/
def slideAll (old new : List α) (kind : StepKind) : Nat → List Step → List Step → List Step
  | 0, before, after => before.reverse ++ after
  | _, before, [] => before.reverse
  | fuel + 1, before, s :: after =>
      if s.kind = kind then
        let up := slideUp old new before s after
        let down := slideDown old new up.before up.step up.after
        slideAll old new kind fuel (down.step :: down.before) down.after
      else slideAll old new kind fuel (s :: before) after

/-- Slides and joins the steps of a script. Sliding down makes up for sliding up, so no more steps
come into focus than the script has entries. -/
def compact (old new : List α) (steps : List Step) : List Step :=
  let pass (kind : StepKind) (steps : List Step) : List Step :=
    slideAll old new kind ((stepsWeight steps + 1) * (stepsWeight steps + 1)) [] steps
  pass .insert (pass .delete steps)

end SchemaTidy
