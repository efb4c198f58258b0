import SchemaTidy.Text.Basic

/-!
# Edit scripts

A script turns one list into another by keeping, deleting and inserting stretches. `script` finds one
by splitting both lists at a point on a shortest path through their edit graph, searched from both
ends at once.
-/

namespace SchemaTidy

inductive StepKind where
  | equal
  | delete
  | insert
deriving DecidableEq, Repr

/-- A step of a script, with the places in both lists where it starts and the number of entries. -/
structure Step where
  kind : StepKind
  old : Nat
  new : Nat
  length : Nat
deriving DecidableEq, Repr

namespace Step

/-- Number of entries of the old list that a step covers. -/
def oldLength (s : Step) : Nat := if s.kind = .insert then 0 else s.length

/-- Number of entries of the new list that a step covers. -/
def newLength (s : Step) : Nat := if s.kind = .delete then 0 else s.length

def equals (old new length : Nat) : List Step :=
  if length = 0 then [] else [⟨.equal, old, new, length⟩]

end Step

variable {α : Type} [DecidableEq α]

/-- Length of the longest common start of two lists. -/
def commonLength : List α → List α → Nat
  | a :: as, b :: bs => if a = b then commonLength as bs + 1 else 0
  | _, _ => 0

/-- How far each diagonal of the edit graph has been followed. Diagonals count from `-size` up. -/
structure Frontier where
  size : Nat
  reach : Array Nat

namespace Frontier

def empty (size : Nat) : Frontier := ⟨size, Array.replicate (2 * size + 1) 0⟩

def get (f : Frontier) (k : Int) : Nat := f.reach.getD (k + f.size).toNat 0

/-- Records how far the diagonal `k` has been followed. -/
def set (f : Frontier) (k : Int) (x : Nat) : Frontier :=
  { f with reach := f.reach.setIfInBounds (k + f.size).toNat x }

/-- Where the path of cost `d` enters the diagonal `k`. -/
def enter (f : Frontier) (d : Nat) (k : Int) : Nat :=
  if k = -d ∨ (k ≠ d ∧ f.get (k - 1) < f.get (k + 1)) then f.get (k + 1) else f.get (k - 1) + 1

end Frontier

/-- Number of entries that agree from the places `i` and `j` on. -/
def commonFrom (old new : Array α) (i j : Nat) : Nat :=
  if h : i < old.size ∧ j < new.size then
    if old[i] = new[j] then commonFrom old new (i + 1) (j + 1) + 1 else 0
  else 0
termination_by old.size - i

/-- Follows the diagonal `k` from `x` as long as entries agree. -/
def follow (old new : Array α) (x : Nat) (k : Int) : Nat :=
  let y := (x : Int) - k
  if 0 ≤ y then x + commonFrom old new x y.toNat else x

/-- Moves the forward frontier to cost `d` over some diagonals. Stops where it meets the backward
frontier, with the point at which the diagonal was entered. -/
def forward (old new : Array α) (d : Nat) (back : Frontier) :
    List Int → Frontier → Frontier ⊕ (Nat × Nat)
  | [], f => .inl f
  | k :: ks, f =>
      let delta : Int := old.size - new.size
      let x := f.enter d k
      let x' := follow old new x k
      let f := f.set k x'
      if delta % 2 = 1 ∧ (k - delta).natAbs + 1 ≤ d ∧ old.size ≤ x' + back.get (delta - k) then
        .inr (x, ((x : Int) - k).toNat)
      else forward old new d back ks f

/-- Moves the backward frontier to cost `d` over some diagonals. The arrays are in reverse order.
Stops where it meets the forward frontier, with the point that was reached. -/
def backward (old new : Array α) (d : Nat) (front : Frontier) :
    List Int → Frontier → Frontier ⊕ (Nat × Nat)
  | [], f => .inl f
  | k :: ks, f =>
      let delta : Int := old.size - new.size
      let x := follow old new (f.enter d k) k
      let f := f.set k x
      if delta % 2 = 0 ∧ (k - delta).natAbs ≤ d ∧ old.size ≤ x + front.get (delta - k) then
        .inr (old.size - x, new.size - ((x : Int) - k).toNat)
      else backward old new d front ks f

/-- The diagonals that a path of cost `d` can end on, from the highest. -/
def diagonals (d : Nat) : List Int := (List.range (d + 1)).map fun i : Nat => (d : Int) - 2 * (i : Int)

/-- Searches for a point on a shortest path, from cost `d` on through `count` further costs. -/
def searchFrom (old new oldReversed newReversed : Array α) :
    Nat → Nat → Frontier → Frontier → Option (Nat × Nat)
  | 0, _, _, _ => none
  | count + 1, d, front, back =>
      match forward old new d back (diagonals d) front with
      | .inr point => some point
      | .inl front =>
          match backward oldReversed newReversed d front (diagonals d) back with
          | .inr point => some point
          | .inl back => searchFrom old new oldReversed newReversed count (d + 1) front back

/-- A point on a shortest path through the edit graph of two lists. -/
def middle? (old new : List α) : Option (Nat × Nat) :=
  let count := (old.length + new.length + 1) / 2 + 1
  searchFrom old.toArray new.toArray old.reverse.toArray new.reverse.toArray count 0
    (.empty (count + 1)) (.empty (count + 1))

/-- The script of two lists that start at the places `i` and `j` of larger ones. A point that would
not divide the lists is not used. -/
def scriptFrom (i j : Nat) (old new : List α) : List Step :=
  let p := commonLength old new
  let old₁ := old.drop p
  let new₁ := new.drop p
  let s := commonLength old₁.reverse new₁.reverse
  let old₂ := old₁.take (old₁.length - s)
  let new₂ := new₁.take (new₁.length - s)
  let inner :=
    if old₂.isEmpty && new₂.isEmpty then []
    else if new₂.isEmpty then [⟨.delete, i + p, j + p, old₂.length⟩]
    else if old₂.isEmpty then [⟨.insert, i + p, j + p, new₂.length⟩]
    else
      let replacement :=
        [⟨.delete, i + p, j + p, old₂.length⟩, ⟨.insert, i + p, j + p, new₂.length⟩]
      match middle? old₂ new₂ with
      | none => replacement
      | some (x, y) =>
          if _ : (old₂.take x).length + (new₂.take y).length < old.length + new.length ∧
              (old₂.drop x).length + (new₂.drop y).length < old.length + new.length then
            scriptFrom (i + p) (j + p) (old₂.take x) (new₂.take y) ++
              scriptFrom (i + p + x) (j + p + y) (old₂.drop x) (new₂.drop y)
          else replacement
  Step.equals i j p ++ inner ++ Step.equals (i + p + old₂.length) (j + p + new₂.length) s
termination_by old.length + new.length
decreasing_by
  all_goals rename_i h
  · exact h.1
  · exact h.2

def script (old new : List α) : List Step := scriptFrom 0 0 old new

end SchemaTidy
