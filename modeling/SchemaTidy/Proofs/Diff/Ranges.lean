import SchemaTidy.Proofs.Diff.Kept

/-!
# Ranges of hunks

A hunk names a range of old lines: from where its first change says that it starts to where its last one
says that it ends. When these ranges have as many lines as their hunks hold and lie in the old list, then
all of them are right.
-/

namespace SchemaTidy

def oldCount : List Change → Nat
  | [] => 0
  | c :: cs => c.oldLength + oldCount cs

/-- A hunk whose range holds as many entries as the hunk does, and ends within a list of `n` entries. -/
def Fits (n : Nat) (hunk : List Change) : Prop :=
  ∀ first ∈ hunk.head?, ∀ last ∈ hunk.getLast?,
    last.old + last.oldLength - first.old = oldCount hunk ∧ first.old + oldCount hunk ≤ n

section

variable {α : Type} {old new : List α} {p q r : Nat × Nat}

theorem oldCount_append (cs ds : List Change) : oldCount (cs ++ ds) = oldCount cs + oldCount ds := by
  induction cs with
  | nil => exact (Nat.zero_add _).symm
  | cons c cs ih => rw [List.cons_append, oldCount, oldCount, ih, Nat.add_assoc]

theorem Spans.old_eq {cs : List Change} (h : Spans old new p cs q) : q.1 = p.1 + oldCount cs := by
  induction h with
  | nil => rfl
  | equal hagrees _ ih =>
      rw [ih, oldCount, Nat.add_assoc]
      rfl
  | replace hkind hold hnew _ ih => rw [ih, oldCount, Nat.add_assoc]

theorem Spans.start_of_isEqual {c : Change} {cs : List Change} (h : Spans old new p (c :: cs) q)
    (hkeeps : KeepsLines (c :: cs)) (hc : c.isEqual = true) :
    c.old = p.1 ∧ 0 < oldCount (c :: cs) := by
  obtain ⟨m, hc', -⟩ := h.split_cons
  have hpos := (keepsLines_cons.mp hkeeps).1 hc
  refine ⟨(hc'.place_of_isEqual hc).1, ?_⟩
  rw [oldCount]
  omega

theorem Spans.stop_of_isEqual {c : Change} {cs : List Change} (h : Spans old new p (cs ++ [c]) q)
    (hkeeps : KeepsLines (cs ++ [c])) (hc : c.isEqual = true) :
    c.old + c.oldLength = q.1 ∧ 0 < oldCount (cs ++ [c]) := by
  obtain ⟨m, -, hc'⟩ := h.split
  have hpos := (keepsLines_cons.mp (keepsLines_append.mp hkeeps).2).1 hc
  refine ⟨(hc'.place_of_isEqual hc).2, ?_⟩
  rw [oldCount_append, oldCount]
  omega

/-- A hunk that fits is placed right if only kept stretches are cut off in front of it and behind it. -/
theorem Spans.placed_of_fits {hunk : List Change} (h : Spans old new p hunk q)
    (hkeeps : KeepsLines hunk) (hfits : Fits old.length hunk)
    (hfirst : ∀ c ∈ hunk.head?, c.isEqual = false → p.1 = 0)
    (hlast : ∀ c ∈ hunk.getLast?, c.isEqual = false → q.1 = old.length) :
    StartsAt p.1 hunk ∧ EndsAt q.1 hunk := by
  have hcount := h.old_eq
  cases hunk with
  | nil => simp [StartsAt, EndsAt]
  | cons c cs =>
      obtain ⟨ds, d, hds⟩ : ∃ ds d, c :: cs = ds ++ [d] := by
        rcases List.eq_nil_or_concat (c :: cs) with hnil | ⟨ds, d, hds⟩
        · cases hnil
        · exact ⟨ds, d, by rw [hds, List.concat_eq_append]⟩
      have hend : d ∈ (c :: cs).getLast? := by rw [hds, List.getLast?_concat]; rfl
      obtain ⟨hlength, hin⟩ := hfits c rfl d hend
      have hstart (hc : c.isEqual = true) := h.start_of_isEqual hkeeps hc
      have hstop (hd : d.isEqual = true) : d.old + d.oldLength = q.1 ∧ 0 < oldCount (c :: cs) := by
        rw [hds] at h hkeeps ⊢
        exact h.stop_of_isEqual hkeeps hd
      have hplaced : c.old = p.1 ∧ d.old + d.oldLength = q.1 := by
        cases hc : c.isEqual with
        | true =>
            obtain ⟨hold, hpos⟩ := hstart hc
            omega
        | false =>
            have hzero := hfirst c rfl hc
            cases hd : d.isEqual with
            | true =>
                obtain ⟨hold, hpos⟩ := hstop hd
                omega
            | false =>
                have hall := hlast d hend hd
                omega
      refine ⟨startsAt_cons.mpr hplaced.1, ?_⟩
      rw [hds]
      exact endsAt_concat.mpr hplaced.2

/-- When all hunks fit, they are placed right, and so are the changes that they are made of. -/
theorem placed_of_fits_hunksFrom {hunk cs : List Change} (hhunk : Spans old new p hunk q)
    (hcs : Spans old new q cs r) (hkeeps : KeepsLines (hunk ++ cs))
    (hfirst : ∀ c ∈ (hunk ++ cs).head?, c.isEqual = false → p.1 = 0)
    (hlast : ∀ c ∈ (hunk ++ cs).getLast?, c.isEqual = false → r.1 = old.length)
    (hfits : ∀ h ∈ hunksFrom hunk cs, Fits old.length h) :
    StartsAt p.1 (hunk ++ cs) ∧ EndsAt r.1 (hunk ++ cs) := by
  induction cs generalizing hunk p q with
  | nil =>
      obtain rfl := hcs.eq_of_nil
      rw [List.append_nil] at hkeeps hfirst hlast ⊢
      rw [hunksFrom] at hfits
      split at hfits
      · rename_i hshort
        obtain rfl | ⟨c, rfl, hc⟩ := eq_nil_or_kept hshort
        · simp [StartsAt, EndsAt]
        · have hplace := hhunk.place_of_isEqual hc
          simpa [StartsAt, EndsAt] using hplace
      · exact hhunk.placed_of_fits hkeeps (hfits hunk (List.mem_singleton_self _)) hfirst hlast
  | cons c cs ih =>
      obtain ⟨q', hc, hcs⟩ := hcs.split_cons
      rw [hunksFrom] at hfits
      split at hfits
      · rename_i hlong
        rw [Bool.and_eq_true, decide_eq_true_iff] at hlong
        obtain ⟨hequal, hlong⟩ := hlong
        obtain ⟨p₁, q₁, hend, -, hrest⟩ := spans_trim_both hc hequal hlong
        obtain ⟨hkeepsHunk, hkeepsRest⟩ := keepsLines_append.mp hkeeps
        obtain ⟨hkeepsHead, hkeepsTail⟩ := keepsLines_cons.mp hkeepsRest
        obtain ⟨hfitsHunk, hfitsRest⟩ := List.forall_mem_cons.mp hfits
        have hplace := hc.place_of_isEqual hequal
        have hstart : StartsAt p.1 (hunk ++ [c.trimEnd]) := by
          refine ((hhunk.append hend).placed_of_fits ?_ hfitsHunk ?_ ?_).1
          · exact keepsLines_append.mpr
              ⟨hkeepsHunk, keepsLines_cons.mpr ⟨Change.oldLength_trimEnd hkeepsHead, by simp [KeepsLines]⟩⟩
          · cases hunk with
            | nil => simp [c.isEqual_trimEnd, hequal]
            | cons d hunk => exact hfirst
          · simp [c.isEqual_trimEnd, hequal]
        have hstop : EndsAt r.1 ([c.trimStart] ++ cs) := by
          refine (ih hrest hcs ?_ ?_ ?_ hfitsRest).2
          · exact keepsLines_cons.mpr ⟨Change.oldLength_trimStart hkeepsHead, hkeepsTail⟩
          · simp [c.isEqual_trimStart, hequal]
          · cases cs with
            | nil => simp [c.isEqual_trimStart, hequal]
            | cons d cs => simpa using hlast
        constructor
        · cases hunk with
          | nil =>
              obtain rfl := hhunk.eq_of_nil
              exact startsAt_cons.mpr hplace.1
          | cons d hunk => exact hstart
        · cases cs with
          | nil =>
              obtain rfl := hcs.eq_of_nil
              exact endsAt_concat.mpr hplace.2
          | cons d cs =>
              rw [endsAt_append (List.cons_ne_nil d cs)] at hstop
              rwa [List.append_cons, endsAt_append (List.cons_ne_nil d cs)]
      · rw [List.append_cons] at hkeeps hfirst hlast ⊢
        exact ih (hhunk.append hc) hcs hkeeps hfirst hlast hfits

theorem placed_of_fits_hunks {cs : List Change}
    (h : Spans old new (0, 0) cs (old.length, new.length)) (hkeeps : KeepsLines cs)
    (hfits : ∀ hunk ∈ hunks cs, Fits old.length hunk) : StartsAt 0 cs ∧ EndsAt old.length cs := by
  obtain ⟨p', q', -, hspan, -, hstart, hstop, hfirst, hlast⟩ := spans_trimContext h
  have hplaced := placed_of_fits_hunksFrom (.nil p') hspan (keepsLines_trimContext hkeeps)
    (fun c hc hother => by rw [hfirst c hc hother]) (fun c hc hother => by rw [hlast c hc hother]) hfits
  exact ⟨hstart.mpr hplaced.1, hstop.mpr hplaced.2⟩

end

end SchemaTidy
