import SchemaTidy.Batch.Summary

/-!
# Summaries of parts

A batch may be cut into parts that are recorded apart and merged. Which cuts are made does not matter,
and no summary that can arise counts more changed and failed files than processed ones.
-/

namespace SchemaTidy

/-- The summaries that come out of a batch which is cut into parts: each part is recorded from an empty
summary, and the summaries of neighbours are merged. -/
inductive Reduces : List FileOutcome → Summary → Prop where
  | fold (outcomes : List FileOutcome) : Reduces outcomes (outcomes.foldl Summary.record {})
  | merge {left right : List FileOutcome} {a b : Summary} (ha : Reduces left a)
      (hb : Reduces right b) : Reduces (left ++ right) (a.merge b)

theorem FileOutcome.changed_of_failed (o : FileOutcome) (h : o.failed = true) : o.changed = false := by
  rw [changed, Option.isNone_iff_eq_none.mp h]
  rfl

namespace Summary

theorem merge_assoc (a b c : Summary) : (a.merge b).merge c = a.merge (b.merge c) := by
  simp [merge, Nat.add_assoc]

theorem record_eq_merge (s : Summary) (o : FileOutcome) : s.record o = s.merge (record {} o) := by
  simp [record, merge]

theorem foldl_record (s : Summary) (outcomes : List FileOutcome) :
    outcomes.foldl record s = s.merge (ofOutcomes outcomes) := by
  induction outcomes generalizing s with
  | nil => simp [ofOutcomes, merge]
  | cons o outcomes ih =>
      have hcons : ofOutcomes (o :: outcomes) = (record {} o).merge (ofOutcomes outcomes) := ih _
      rw [List.foldl_cons, ih, hcons, record_eq_merge, merge_assoc]

theorem ofOutcomes_cons (o : FileOutcome) (outcomes : List FileOutcome) :
    ofOutcomes (o :: outcomes) = (record {} o).merge (ofOutcomes outcomes) :=
  foldl_record (record {} o) outcomes

theorem ofOutcomes_append (left right : List FileOutcome) :
    ofOutcomes (left ++ right) = (ofOutcomes left).merge (ofOutcomes right) := by
  rw [ofOutcomes, List.foldl_append, foldl_record]
  rfl

theorem record_accounted {s : Summary} (h : s.changed + s.failed ≤ s.processed) (o : FileOutcome) :
    (s.record o).changed + (s.record o).failed ≤ (s.record o).processed := by
  have hfailed := o.changed_of_failed
  cases hf : o.failed <;> cases hc : o.changed <;> simp_all [record] <;> omega

theorem ofOutcomes_accounted (outcomes : List FileOutcome) :
    (ofOutcomes outcomes).changed + (ofOutcomes outcomes).failed ≤ (ofOutcomes outcomes).processed := by
  have hfold (s : Summary) (h : s.changed + s.failed ≤ s.processed) :
      (outcomes.foldl record s).changed + (outcomes.foldl record s).failed ≤
        (outcomes.foldl record s).processed := by
    induction outcomes generalizing s with
    | nil => exact h
    | cons o outcomes ih => exact ih _ (record_accounted h o)
  exact hfold {} (Nat.le_refl 0)

theorem ofOutcomes_files (outcomes : List FileOutcome) :
    (ofOutcomes outcomes).files = outcomes ∧ (ofOutcomes outcomes).processed = outcomes.length := by
  induction outcomes with
  | nil => exact ⟨rfl, rfl⟩
  | cons o outcomes ih =>
      rw [ofOutcomes_cons]
      simp [merge, record, ih.1, ih.2, Nat.add_comm]

theorem unchanged_eq {s : Summary} (h : s.changed + s.failed ≤ s.processed)
    (hsize : s.processed ≤ 0xFFFFFFFFFFFFFFFF) :
    s.unchanged = s.processed - s.changed - s.failed ∧
      countSub s.processed s.failed = s.processed - s.failed := by
  have hchanged : countSub s.processed s.changed = s.processed - s.changed :=
    countSub_of_le (by omega) (by omega)
  rw [unchanged, hchanged]
  exact ⟨countSub_of_le (by omega) (by omega), countSub_of_le (by omega) (by omega)⟩

end Summary

/-- However a batch is cut, its summary is the one of recording all its outcomes in order. -/
theorem Reduces.eq_ofOutcomes {outcomes : List FileOutcome} {s : Summary}
    (h : Reduces outcomes s) : s = Summary.ofOutcomes outcomes := by
  induction h with
  | fold outcomes => rfl
  | merge _ _ iha ihb => rw [iha, ihb, Summary.ofOutcomes_append]

theorem Reduces.accounted {outcomes : List FileOutcome} {s : Summary} (h : Reduces outcomes s) :
    s.changed + s.failed ≤ s.processed :=
  h.eq_ofOutcomes ▸ Summary.ofOutcomes_accounted outcomes

end SchemaTidy
