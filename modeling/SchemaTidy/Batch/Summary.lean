import SchemaTidy.Batch.Outcome
import SchemaTidy.Edit.Account
import SchemaTidy.Text.Ratio

/-!
# Summaries

The counts of a batch with the outcomes of its files. Summaries of consecutive parts of a batch merge
to the summary of the whole.
-/

namespace SchemaTidy

structure Summary where
  processed : Nat := 0
  changed : Nat := 0
  failed : Nat := 0
  /-- Changed field calls in all files. -/
  edits : Nat := 0
  warnings : Nat := 0
  files : List FileOutcome := []

namespace Summary

def record (s : Summary) (o : FileOutcome) : Summary where
  processed := s.processed + 1
  changed := s.changed + if o.changed then 1 else 0
  failed := s.failed + if o.failed then 1 else 0
  edits := s.edits + (o.result?.map (·.report.edits.length)).getD 0
  warnings := s.warnings + (o.result?.map (·.report.warnings.length)).getD 0
  files := s.files ++ [o]

/-- The summary of one part of a batch and then another. -/
def merge (a b : Summary) : Summary where
  processed := a.processed + b.processed
  changed := a.changed + b.changed
  failed := a.failed + b.failed
  edits := a.edits + b.edits
  warnings := a.warnings + b.warnings
  files := a.files ++ b.files

def ofOutcomes (outcomes : List FileOutcome) : Summary := outcomes.foldl record {}

def success (s : Summary) : Bool := s.failed == 0

/-- The difference of two counts as words of 64 bits. The summary of a batch never counts more
changed and failed files than processed ones, so there it is the plain difference. -/
def countSub (a b : Nat) : Nat := (a + 0x10000000000000000 - b) % 0x10000000000000000

theorem countSub_of_le {a b : Nat} (hb : b ≤ a) (ha : a ≤ 0xFFFFFFFFFFFFFFFF) :
    countSub a b = a - b := by
  have h : a + 0x10000000000000000 - b = a - b + 0x10000000000000000 := by omega
  rw [countSub, h, Nat.add_mod_right]
  exact Nat.mod_eq_of_lt (by omega)

/-- The number of files that neither changed nor failed. -/
def unchanged (s : Summary) : Nat := countSub (countSub s.processed s.changed) s.failed

/-- The share of files that did not fail, with six decimals. -/
def successRate (s : Summary) : String := Ratio.text (countSub s.processed s.failed) s.processed

/-- The exit status: 2 if a file failed, 1 if a check found changes, and 0 otherwise. -/
def exitCode (s : Summary) (action : Action) : Nat :=
  if !s.success then 2 else if action == .check && 0 < s.changed then 1 else 0

def fileCount (n : Nat) : String := if n == 1 then "1 file" else toString n ++ " files"

/-- What is said of a number of files, nothing of none. -/
def clause (n : Nat) (text : String) : List String := if n = 0 then [] else [fileCount n ++ text]

/-- The counts of edits and warnings, in parentheses. -/
def remarks (s : Summary) : String :=
  let edits := if s.edits = 0 then [] else [toString s.edits ++ " field calls migrated"]
  let warnings := if s.warnings = 0 then [] else [toString s.warnings ++ " warnings"]
  match edits ++ warnings with
  | [] => ""
  | texts => " (" ++ ", ".intercalate texts ++ ")"

def line (s : Summary) (action : Action) : String :=
  let would := if action == .write then "" else "would be "
  let clauses :=
    clause s.changed (" " ++ would ++ "reformatted") ++
      clause s.unchanged (" " ++ would ++ "left unchanged") ++
      clause s.failed " failed"
  if clauses.isEmpty then "No Python files found" else ", ".intercalate clauses ++ s.remarks

end Summary

def FileOutcome.toValue (o : FileOutcome) : Value :=
  .ofFields (
    [("path", .text o.path), ("changed", .bool o.changed), ("written", .bool o.written)] ++
    (o.result?.map fun r => ("report", r.report.toValue)).toList ++
    (o.error?.map fun e => ("error", .text e.toList)).toList)

def Summary.toValue (s : Summary) : Value :=
  .ofFields
    [("files_processed", .ofNat s.processed), ("files_changed", .ofNat s.changed),
     ("files_failed", .ofNat s.failed), ("edits", .ofNat s.edits),
     ("warnings", .ofNat s.warnings), ("files", .list (s.files.map FileOutcome.toValue))]

end SchemaTidy
