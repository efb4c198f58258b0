import SchemaTidy.Proofs.Print.BracketComments
import SchemaTidy.Proofs.Text.Order

/-!
# Sorting by keys

Keyword arguments and mapping entries are sorted within runs. An entry without a key, such as an unpacked
mapping, stays where it is and nothing moves across it. Sorting is stable, so of several entries with one
key the last one stays the last, and a call or mapping means what it did.
-/

namespace SchemaTidy

section Runs

variable {α : Type} (key : α → Option Text)

def keyLe (a b : α) : Bool := Text.le ((key a).getD []) ((key b).getD [])

theorem keyLe_trans (a b c : α) (hab : keyLe key a b = true) (hbc : keyLe key b c = true) :
    keyLe key a c = true :=
  Text.le_trans hab hbc

theorem keyLe_total (a b : α) : (keyLe key a b || keyLe key b a) = true := Text.le_total _ _

/-- Whether a list is a maximal run of keyed entries between two others. -/
structure IsRun (before run after : List α) : Prop where
  keyed : ∀ x ∈ run, (key x).isSome = true
  opens : ∀ x, before.getLast? = some x → key x = none
  ends : ∀ x, after.head? = some x → key x = none

/-- Whether `ys` is `xs` with every maximal run of keyed entries in order. -/
structure SortsRuns (xs ys : List α) : Prop where
  perm : ys.Perm xs
  /-- Entries without a key stay where they are. -/
  unkeyed : ∀ (i : Nat) (x : α), key x = none → (ys[i]? = some x ↔ xs[i]? = some x)
  /-- A run is permuted within itself, in the order of its keys. -/
  run : ∀ before run after, xs = before ++ (run ++ after) → IsRun key before run after →
    ∃ before' run' after', ys = before' ++ (run' ++ after') ∧ before'.length = before.length ∧
      run'.Perm run ∧ run'.Pairwise (keyLe key · ·)
  /-- Entries keep their order among each other when those of them that have a key have the same. -/
  stable : ∀ p : α → Bool, (∀ x ∈ xs, ∀ y ∈ xs, p x = true → p y = true → (key x).isSome = true →
    (key y).isSome = true → key x = key y) → ys.filter p = xs.filter p

/-- A list is a run of keyed entries, or has an entry without a key behind the first run. -/
theorem runs_induction {motive : List α → Prop}
    (run : ∀ ks, (∀ x ∈ ks, (key x).isSome = true) → motive ks)
    (stop : ∀ ks x xs, (∀ x ∈ ks, (key x).isSome = true) → key x = none → motive xs →
      motive (ks ++ x :: xs)) (xs : List α) : motive xs := by
  have hbehind : ∀ ks, (∀ x ∈ ks, (key x).isSome = true) → motive (ks ++ xs) := by
    induction xs with
    | nil =>
        intro ks hks
        rw [List.append_nil]
        exact run ks hks
    | cons x xs ih =>
        intro ks hks
        cases hx : key x with
        | none => exact stop ks x xs hks hx (ih [] (by simp))
        | some k =>
            have hnext := ih (ks ++ [x]) (by
              intro y hy
              rcases List.mem_append.mp hy with hy | hy
              · exact hks y hy
              · rw [List.mem_singleton.mp hy, hx]
                rfl)
            rwa [List.append_assoc] at hnext
  exact hbehind [] (by simp)

variable {key}

theorem sortRunsFrom_keyed {ks : List α} (hks : ∀ x ∈ ks, (key x).isSome = true) (run xs : List α) :
    sortRunsFrom key run (ks ++ xs) = sortRunsFrom key (run ++ ks) xs := by
  induction ks generalizing run with
  | nil => simp
  | cons k ks ih =>
      rw [List.cons_append, sortRunsFrom, if_pos (hks k (by simp)), ih fun x hx => hks x (by simp [hx])]
      simp

theorem sortRuns_keyed {ks : List α} (hks : ∀ x ∈ ks, (key x).isSome = true) :
    sortRuns key ks = ks.mergeSort (keyLe key) := by
  have hrun := sortRunsFrom_keyed hks [] []
  rw [List.append_nil] at hrun
  exact hrun

theorem sortRuns_stop {ks : List α} (hks : ∀ x ∈ ks, (key x).isSome = true) {x : α}
    (hx : key x = none) (xs : List α) :
    sortRuns key (ks ++ x :: xs) = ks.mergeSort (keyLe key) ++ x :: sortRuns key xs := by
  rw [sortRuns, sortRunsFrom_keyed hks, sortRunsFrom, if_neg (by simp [hx])]
  rfl

/-- Nothing moves across an entry without a key. -/
theorem sortRuns_append_stop (before : List α) {x : α} (hx : key x = none) (after : List α) :
    sortRuns key (before ++ x :: after) = sortRuns key before ++ x :: sortRuns key after := by
  induction before using runs_induction key with
  | run ks hks => rw [sortRuns_stop hks hx, sortRuns_keyed hks]
  | stop ks y ys hks hy ih =>
      rw [List.append_assoc, List.cons_append, sortRuns_stop hks hy, ih, sortRuns_stop hks hy]
      simp

theorem sortRuns_nil : sortRuns key [] = [] := by simp [sortRuns, sortRunsFrom]

theorem sortRuns_append_run {before run after : List α} (h : IsRun key before run after) :
    sortRuns key (before ++ (run ++ after)) =
      sortRuns key before ++ (run.mergeSort (keyLe key) ++ sortRuns key after) := by
  have hbehind : sortRuns key (run ++ after) = run.mergeSort (keyLe key) ++ sortRuns key after := by
    cases after with
    | nil => simp [sortRuns_keyed h.keyed, sortRuns_nil]
    | cons y after =>
        have hy := h.ends y rfl
        have hstop := sortRuns_append_stop [] hy after
        rw [sortRuns_nil, List.nil_append, List.nil_append] at hstop
        rw [sortRuns_stop h.keyed hy, hstop]
  rcases List.eq_nil_or_concat before with rfl | ⟨before, x, rfl⟩
  · rw [sortRuns_nil]
    exact hbehind
  · rw [List.concat_eq_append] at h ⊢
    have hx := h.opens x (by simp)
    rw [List.append_assoc, List.singleton_append, sortRuns_append_stop _ hx, hbehind,
      sortRuns_append_stop _ hx, sortRuns_nil]
    simp

theorem sortRuns_perm (xs : List α) : (sortRuns key xs).Perm xs := sortRunsFrom_perm key [] xs

theorem filter_mergeSort {ks : List α} {p : α → Bool} (hp : ∀ x ∈ ks, ∀ y ∈ ks, p x = true →
    p y = true → key x = key y) : (ks.mergeSort (keyLe key)).filter p = ks.filter p := by
  have hsorted : (ks.filter p).Pairwise fun a b => keyLe key a b = true := by
    refine List.pairwise_of_forall_mem_list fun a ha b hb => ?_
    rw [List.mem_filter] at ha hb
    rw [keyLe, hp a ha.1 b hb.1 ha.2 hb.2]
    exact Text.le_refl _
  have hsub := List.sublist_mergeSort (keyLe_trans key) (keyLe_total key) hsorted List.filter_sublist
  have hfiltered := hsub.filter p
  simp only [List.filter_filter, Bool.and_self] at hfiltered
  exact (hfiltered.eq_of_length ((List.mergeSort_perm ks _).filter p).length_eq.symm).symm

/-- Entries keep their order when those of them that have a key have the same. -/
theorem filter_sortRuns {xs : List α} {p : α → Bool} (hp : ∀ x ∈ xs, ∀ y ∈ xs, p x = true →
    p y = true → (key x).isSome = true → (key y).isSome = true → key x = key y) :
    (sortRuns key xs).filter p = xs.filter p := by
  induction xs using runs_induction key with
  | run ks hks =>
      rw [sortRuns_keyed hks]
      exact filter_mergeSort fun x hx y hy hpx hpy => hp x hx y hy hpx hpy (hks x hx) (hks y hy)
  | stop ks x xs hks hx ih =>
      have hrun : (ks.mergeSort (keyLe key)).filter p = ks.filter p :=
        filter_mergeSort fun y hy z hz hpy hpz =>
          hp y (by simp [hy]) z (by simp [hz]) hpy hpz (hks y hy) (hks z hz)
      have hrest := ih fun y hy z hz => hp y (by simp [hy]) z (by simp [hz])
      rw [sortRuns_stop hks hx, List.filter_append, List.filter_cons, hrun, hrest, List.filter_append,
        List.filter_cons]

theorem getElem?_sortRuns {xs : List α} {i : Nat} {x : α} (hx : key x = none) :
    (sortRuns key xs)[i]? = some x ↔ xs[i]? = some x := by
  induction xs using runs_induction key generalizing i with
  | run ks hks =>
      have hnot : ∀ ys : List α, ys.Perm ks → ys[i]? ≠ some x := by
        intro ys hys hget
        have hsome := hks x (hys.mem_iff.mp (List.mem_of_getElem? hget))
        simp [hx] at hsome
      rw [sortRuns_keyed hks]
      exact iff_of_false (hnot _ (List.mergeSort_perm ..)) (hnot _ (.refl _))
  | stop ks y ys hks hy ih =>
      have hnot : ∀ zs : List α, zs.Perm ks → zs[i]? ≠ some x := by
        intro zs hzs hget
        have hsome := hks x (hzs.mem_iff.mp (List.mem_of_getElem? hget))
        simp [hx] at hsome
      rw [sortRuns_stop hks hy]
      have hlength : (ks.mergeSort (keyLe key)).length = ks.length := List.length_mergeSort ks
      rcases Nat.lt_or_ge i ks.length with hlt | hge
      · rw [List.getElem?_append_left (by rwa [hlength]), List.getElem?_append_left hlt]
        exact iff_of_false (hnot _ (List.mergeSort_perm ..)) (hnot _ (.refl _))
      · rw [List.getElem?_append_right (by rwa [hlength]), List.getElem?_append_right hge, hlength]
        cases i - ks.length with
        | zero => simp
        | succ j => simpa using ih

variable (key)

theorem sortsRuns_sortRuns (xs : List α) : SortsRuns key xs (sortRuns key xs) where
  perm := sortRuns_perm xs
  unkeyed _ _ hx := getElem?_sortRuns hx
  run before run after hxs hrun :=
    ⟨sortRuns key before, run.mergeSort (keyLe key), sortRuns key after,
      by rw [hxs, sortRuns_append_run hrun], (sortRuns_perm before).length_eq,
      List.mergeSort_perm .., List.pairwise_mergeSort (keyLe_trans key) (keyLe_total key) run⟩
  stable _ hp := filter_sortRuns hp

theorem sortRuns_sortRuns (xs : List α) : sortRuns key (sortRuns key xs) = sortRuns key xs := by
  have hsorted (ks : List α) : (ks.mergeSort (keyLe key)).mergeSort (keyLe key) =
      ks.mergeSort (keyLe key) :=
    List.mergeSort_of_pairwise (List.pairwise_mergeSort (keyLe_trans key) (keyLe_total key) ks)
  have hkeyed {ks : List α} (hks : ∀ x ∈ ks, (key x).isSome = true) :
      ∀ x ∈ ks.mergeSort (keyLe key), (key x).isSome = true :=
    fun x hx => hks x (List.mem_mergeSort.mp hx)
  induction xs using runs_induction key with
  | run ks hks => rw [sortRuns_keyed hks, sortRuns_keyed (hkeyed hks), hsorted]
  | stop ks x xs hks hx ih => rw [sortRuns_stop hks hx, sortRuns_stop (hkeyed hks) hx, hsorted, ih]

theorem sortRuns_map {β : Type} (f : β → α) (xs : List β) :
    sortRuns key (xs.map f) = (sortRuns (fun x => key (f x)) xs).map f := by
  have hrun (ks : List β) : (ks.map f).mergeSort (keyLe key) =
      (ks.mergeSort (keyLe fun x => key (f x))).map f :=
    (List.map_mergeSort (f := f) fun _ _ _ _ => rfl).symm
  induction xs using runs_induction (fun x => key (f x)) with
  | run ks hks =>
      rw [sortRuns_keyed hks, sortRuns_keyed (by simpa using hks), hrun]
  | stop ks x xs hks hx ih =>
      rw [List.map_append, List.map_cons, sortRuns_stop (by simpa using hks) hx, ih,
        sortRuns_stop hks hx, hrun, List.map_append, List.map_cons]

end Runs

/-! ## Elements of a group -/

/-- The elements before a closing bracket, each with the trivia behind it. -/
def withFollowing (closing : Text) : List Element → List (Element × Text)
  | [] => []
  | e :: es => (e, triviaAfter closing es) :: withFollowing closing es

theorem map_fst_withFollowing (closing : Text) (es : List Element) :
    (withFollowing closing es).map Prod.fst = es := by
  induction es with
  | nil => rfl
  | cons e es ih => rw [withFollowing, List.map_cons, ih]

theorem slotsOf_eq_map (style : Style) (kind : GroupKind) (closing : Text) (es : List Element) :
    slotsOf style kind closing es =
      (withFollowing closing es).map fun p => p.1.slot style kind p.2 := by
  induction es with
  | nil => rfl
  | cons e es ih => rw [slotsOf, ih, withFollowing, List.map_cons]

theorem Element.sortKey_slot (style : Style) (kind : GroupKind) (following : Text) (e : Element) :
    (e.slot style kind following).sortKey = sortKey? kind e := by
  cases e
  rfl

/-- The comments of a slot are those of its element: above it and between its items, and behind its comma
and on the rest of its line. -/
theorem Element.comments_slot (style : Style) (kind : GroupKind) (following : Text) (e : Element) :
    (e.slot style kind following).leading =
        Trivia.ownLineComments e.leadingTrivia ++ innerComments e.items ∧
      (e.slot style kind following).trailing =
        (e.comma.elim [] fun comma => Trivia.comments comma.trivia) ++
          (Trivia.sameLineComment? following).toList := by
  obtain ⟨items, comma⟩ := e
  cases comma <;> exact ⟨rfl, rfl⟩

namespace Group

/-- The elements of a group in the order in which they are printed, each with the trivia that stands
behind it in the source. -/
def printOrder (style : Style) (g : Group) : List (Element × Text) :=
  if style.sortKeys && g.sortable then
    sortRuns (fun p => sortKey? g.kind p.1) (withFollowing g.closing.trivia g.elements)
  else withFollowing g.closing.trivia g.elements

theorem slots_bracket (style : Style) (spaced : Bool) (g : Group) :
    (g.bracket style spaced).slots =
      (g.printOrder style).map fun p => p.1.slot style g.kind p.2 := by
  rw [bracket_eq, slotsOf_eq_map]
  simp only [bracketOf, printOrder]
  split
  · rw [sortRuns_map]
    simp only [Element.sortKey_slot]
  · rfl

theorem printOrder_perm (style : Style) (g : Group) :
    (g.printOrder style).Perm (withFollowing g.closing.trivia g.elements) := by
  unfold printOrder
  split
  · exact sortRuns_perm _
  · exact .refl _

end Group

/-- The last entry with a key, which is the one that counts. -/
def lastWithKey {α : Type} (key : α → Option Text) (k : Text) (xs : List α) : Option α :=
  (xs.filter fun x => key x == some k).getLast?

theorem lastWithKey_map {α β : Type} (key : α → Option Text) (k : Text) (f : β → α) (xs : List β) :
    lastWithKey key k (xs.map f) = (lastWithKey (fun x => key (f x)) k xs).map f := by
  rw [lastWithKey, List.filter_map, List.getLast?_map]
  rfl

theorem lastWithKey_sortRuns {α : Type} (key : α → Option Text) (k : Text) (xs : List α) :
    lastWithKey key k (sortRuns key xs) = lastWithKey key k xs := by
  have hsame : (sortRuns key xs).filter (fun x => key x == some k) =
      xs.filter fun x => key x == some k :=
    filter_sortRuns fun x _ y _ hx hy _ _ => (eq_of_beq hx).trans (eq_of_beq hy).symm
  rw [lastWithKey, hsame, lastWithKey]

/-- Sorting does not change which element counts for a key. -/
theorem Group.lastWithKey_printOrder (style : Style) (g : Group) (k : Text) :
    lastWithKey (sortKey? g.kind) k ((g.printOrder style).map Prod.fst) =
      lastWithKey (sortKey? g.kind) k g.elements := by
  have hsource := lastWithKey_map (sortKey? g.kind) k Prod.fst
    (withFollowing g.closing.trivia g.elements)
  rw [map_fst_withFollowing] at hsource
  rw [hsource, lastWithKey_map]
  unfold printOrder
  split
  · rw [lastWithKey_sortRuns]
  · rfl

/-- Sorting by keys is a stable reordering within the runs of keyed entries that changes nothing the
second time. The elements of a group are printed in that order if the style sorts and the group may be
sorted, else in the order of the source. Either way the last element of each keyword or literal key stays
the last, and every element keeps the comments above it, behind its comma and on the rest of its line. -/
theorem sortRuns_reorders_within_runs :
    (∀ (α : Type) (key : α → Option Text) (xs : List α),
      SortsRuns key xs (sortRuns key xs) ∧ sortRuns key (sortRuns key xs) = sortRuns key xs) ∧
    ∀ (style : Style) (spaced : Bool) (g : Group),
      (g.bracket style spaced).slots =
        (g.printOrder style).map (fun p => p.1.slot style g.kind p.2) ∧
      (g.printOrder style).Perm (withFollowing g.closing.trivia g.elements) ∧
      ((style.sortKeys && g.sortable) = true →
        SortsRuns (fun p => sortKey? g.kind p.1) (withFollowing g.closing.trivia g.elements)
          (g.printOrder style)) ∧
      ((style.sortKeys && g.sortable) = false →
        g.printOrder style = withFollowing g.closing.trivia g.elements) ∧
      (∀ k, lastWithKey (sortKey? g.kind) k ((g.printOrder style).map Prod.fst) =
        lastWithKey (sortKey? g.kind) k g.elements) ∧
      ∀ (e : Element) (following : Text),
        (e.slot style g.kind following).leading =
          Trivia.ownLineComments e.leadingTrivia ++ innerComments e.items ∧
        (e.slot style g.kind following).trailing =
          (e.comma.elim [] fun comma => Trivia.comments comma.trivia) ++
            (Trivia.sameLineComment? following).toList := by
  refine ⟨fun α key xs => ⟨sortsRuns_sortRuns key xs, sortRuns_sortRuns key xs⟩,
    fun style spaced g => ⟨g.slots_bracket style spaced, g.printOrder_perm style, fun hsorts => ?_,
      fun hkeeps => ?_, g.lastWithKey_printOrder style,
      fun e following => e.comments_slot style g.kind following⟩⟩
  · rw [Group.printOrder, if_pos hsorts]
    exact sortsRuns_sortRuns _ _
  · rw [Group.printOrder, hkeeps]
    rfl

/-- A call that may be sorted, with a keyword given twice around an unpacked mapping. -/
def repeatedKeywords : Group :=
  let value (n : String) : List Item := [.token ⟨.number, n.toList, [], .nowhere⟩]
  { Group.ofElements .call
      [.ofKeyword "b".toList (value "1"), .ofKeyword "a".toList (value "2"),
        .ofItems (.token (.ofOp "**") :: value "3"), .ofKeyword "b".toList (value "4"),
        .ofKeyword "a".toList (value "5"), .ofKeyword "b".toList (value "6")] with
    sortable := true }

theorem sortRuns_reorders_within_runs_repeatedKeywords :
    SortsRuns (fun p => sortKey? .call p.1) (withFollowing [] repeatedKeywords.elements)
        (repeatedKeywords.printOrder { sortKeys := true }) ∧
      (lastWithKey (sortKey? .call) "b".toList
          ((repeatedKeywords.printOrder { sortKeys := true }).map Prod.fst)).map
        (fun e => spell (tokensOfItems e.value)) = some "6".toList ∧
      repeatedKeywords.printOrder {} = withFollowing [] repeatedKeywords.elements := by
  obtain ⟨-, hgroups⟩ := sortRuns_reorders_within_runs
  obtain ⟨-, -, hsorts, -, hlast, -⟩ := hgroups { sortKeys := true } false repeatedKeywords
  obtain ⟨-, -, -, hkeeps, -⟩ := hgroups {} false repeatedKeywords
  refine ⟨hsorts rfl, ?_, hkeeps rfl⟩
  have hsame := hlast "b".toList
  rw [show repeatedKeywords.kind = .call from rfl] at hsame
  rw [hsame]
  decide +kernel

end SchemaTidy
