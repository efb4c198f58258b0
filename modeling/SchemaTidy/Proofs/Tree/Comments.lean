import SchemaTidy.Proofs.Token.Comments
import SchemaTidy.Proofs.Tree.Reparse

/-!
# Comments outside of brackets

Comments that move onto a closing marker keep their place among the others, and a well-formed item
has no comment outside of brackets but the one in front of it. So the comments of a source outside of
brackets are those that its tree holds between the items of its lines.
-/

namespace SchemaTidy

def Token.depthAfter (t : Token) (depth : Nat) : Nat :=
  if t.isOpening then depth + 1 else if t.isClosing then depth - 1 else depth

/-- The comments in front of tokens outside of all brackets, when `depth` brackets are open before
them. -/
def outerCommentsFrom (depth : Nat) : List Token → List Text
  | [] => []
  | t :: ts =>
      (if depth = 0 then Trivia.physicalComments t.trivia else []) ++
        outerCommentsFrom (t.depthAfter depth) ts

/-- The comments in front of tokens outside of all brackets. -/
def outerComments (ts : List Token) : List Text := outerCommentsFrom 0 ts

theorem Token.depthAfter_of_ne_op {t : Token} (h : t.kind ≠ .op) (depth : Nat) :
    t.depthAfter depth = depth := by
  simp [Token.depthAfter, Token.isOpening, Token.isClosing, Token.isOp, h]

theorem Token.depthAfter_of_isLeaf {t : Token} (h : t.IsLeaf) (depth : Nat) :
    t.depthAfter depth = depth := by
  obtain ⟨-, -, hopening, hclosing⟩ := h
  simp [Token.depthAfter, hopening, hclosing]

theorem Token.depthAfter_of_comma {t : Token} (h : t.isOp "," = true) (depth : Nat) :
    t.depthAfter depth = depth := by
  obtain ⟨hkind, htext⟩ : t.kind = .op ∧ t.text = [','] := by simpa [Token.isOp] using h
  simp [Token.depthAfter, Token.isOpening, Token.isClosing, Token.isOp, htext]

theorem MatchingBrackets.depthAfter {opening closing : Token} (h : MatchingBrackets opening closing)
    (depth : Nat) :
    opening.depthAfter depth = depth + 1 ∧ closing.depthAfter (depth + 1) = depth := by
  have hopening := h.isOpening (t := opening) rfl
  have hclosing := h.isClosing (t := closing) rfl
  have hother : closing.isOpening = false := by
    obtain ⟨-, -, c, hc, -, htext⟩ := h
    rcases hc with rfl | rfl | rfl <;>
      simp [Token.isOpening, Token.isOp, htext, Cursor.matching]
  simp [Token.depthAfter, hopening, hclosing, hother]

theorem outerCommentsFrom_append {us : List Token} (h : ∀ t ∈ us, t.kind ≠ .op) (depth : Nat)
    (ts : List Token) : outerCommentsFrom depth (us ++ ts) =
      (if depth = 0 then commentsOf us else []) ++ outerCommentsFrom depth ts := by
  induction us with
  | nil => simp
  | cons t us ih =>
      have hrest := ih fun u hu => h u (by simp [hu])
      rw [List.cons_append, outerCommentsFrom, Token.depthAfter_of_ne_op (h t (by simp)), hrest]
      split <;> simp

/-! ## Comments that trail a block -/

theorem trailer_ends (column : Nat) (trivia : Text) :
    trailer column trivia = [] ∨ (trailer column trivia).getLast? = some '\n' := by
  have hlines : ∀ l ∈ (((Text.splitAfter (· == '\n') trivia).takeWhile fun line =>
      isBlankLine line || isCommentLine column line).reverse.dropWhile isBlankLine).reverse,
      l.getLast? = some '\n' := by
    intro l hl
    have hmem := (List.dropWhile_suffix _).subset (List.mem_reverse.mp hl)
    have htaken : isBlankLine l = true ∨ isCommentLine column l = true := by
      simpa using List.mem_takeWhile_imp (List.mem_reverse.mp hmem)
    rcases htaken with hblank | hcomment
    · simp only [isBlankLine, Bool.and_eq_true, beq_iff_eq] at hblank
      exact hblank.1
    · simp only [isCommentLine, Bool.and_eq_true, beq_iff_eq] at hcomment
      exact hcomment.1.1
  unfold trailer
  simp only
  rcases List.eq_nil_or_concat (((Text.splitAfter (· == '\n') trivia).takeWhile fun line =>
      isBlankLine line || isCommentLine column line).reverse.dropWhile isBlankLine).reverse with
    hnil | ⟨init, l, hconcat⟩
  · exact .inl (by rw [hnil]; rfl)
  · have hl := hlines l (by simp [hconcat])
    rw [hconcat, List.concat_eq_append, List.flatten_append, List.flatten_singleton,
      List.getLast?_append, hl]
    exact .inr rfl

namespace Trivia

theorem closed_trailer (column : Nat) (trivia : Text) : Closed (trailer column trivia) := by
  rcases trailer_ends column trivia with hnil | hends
  · rw [hnil]
    exact closed_nil
  · exact closed_of_getLast? hends

end Trivia

/-- Closing markers that wait for the comments they get. -/
def IsClosingRun (run : List (Nat × Token)) : Prop :=
  ∀ r ∈ run, r.2.kind = .dedent ∧ r.2.source = []

namespace IsClosingRun

variable {run : List (Nat × Token)}

theorem concat (h : IsClosingRun run) {t : Token} (hkind : t.kind = .dedent) (hsource : t.source = [])
    (column : Nat) : IsClosingRun (run ++ [(column, t)]) := by
  intro r hr
  rcases List.mem_append.mp hr with hr | hr
  · exact h r hr
  · rw [List.mem_singleton.mp hr]
    exact ⟨hkind, hsource⟩

theorem kind_fillDedents (h : IsClosingRun run) (trivia : Text) :
    ∀ t ∈ (fillDedents run trivia).1, t.kind = .dedent := by
  intro t ht
  have hmem := List.mem_map_of_mem (f := Token.kind) ht
  rw [map_kind_fillDedents] at hmem
  obtain ⟨r, hr, hkind⟩ := List.mem_map.mp hmem
  rw [← hkind, (h r hr).1]

theorem comments_fillDedents (h : IsClosingRun run) (trivia : Text) :
    commentsOf (fillDedents run trivia).1 ++ Trivia.physicalComments (fillDedents run trivia).2 =
      Trivia.physicalComments trivia := by
  induction run generalizing trivia with
  | nil => rfl
  | cons r run ih =>
      obtain ⟨column, t⟩ := r
      have ht : t.trivia = [] := (List.append_eq_nil_iff.mp (h (column, t) (by simp)).2).1
      have htail := ih (fun r hr => h r (by simp [hr])) (trivia.drop (trailer column trivia).length)
      have hhead : Token.trivia (if (trailer column trivia).isEmpty then t
          else { t with trivia := trailer column trivia }) = trailer column trivia := by
        split
        · simp_all
        · rfl
      -- The first marker takes whole lines, so no comment is cut in two.
      have hsplit := Trivia.closed_trailer column trivia
        (trivia.drop (trailer column trivia).length)
      rw [trailer_append] at hsplit
      simp only [fillDedents, commentsOf_cons, hhead, List.append_assoc, htail, hsplit]

theorem comments_eq_nil (h : IsClosingRun run) : commentsOf (run.map Prod.snd) = [] := by
  simp only [commentsOf, List.flatMap_eq_nil_iff, List.mem_map]
  rintro t ⟨r, hr, rfl⟩
  rw [(List.append_eq_nil_iff.mp (h r hr).2).1, Trivia.physicalComments_nil]

end IsClosingRun

theorem outerCommentsFrom_attachTrailersFrom (columns : List Nat) {run : List (Nat × Token)}
    {ts : List Token} (depth : Nat) (hrun : IsClosingRun run)
    (hts : ∀ t ∈ ts, t.kind = .dedent → t.source = []) :
    outerCommentsFrom depth (attachTrailersFrom columns run ts) = outerCommentsFrom depth ts := by
  induction ts generalizing columns run depth with
  | nil =>
      have hkinds : ∀ t ∈ run.map Prod.snd, t.kind ≠ .op := by
        intro t ht
        obtain ⟨r, hr, rfl⟩ := List.mem_map.mp ht
        simp [(hrun r hr).1]
      have hall := outerCommentsFrom_append hkinds depth []
      simpa [attachTrailersFrom, hrun.comments_eq_nil] using hall
  | cons t ts ih =>
      have htail : ∀ u ∈ ts, u.kind = .dedent → u.source = [] := fun u hu => hts u (by simp [hu])
      rw [attachTrailersFrom]
      split
      · rename_i hkind
        have hdedent : t.kind = .dedent := by simpa using hkind
        have hsource := hts t (by simp) hdedent
        rw [ih _ _ (hrun.concat hdedent hsource _) htail, outerCommentsFrom,
          (List.append_eq_nil_iff.mp hsource).1, Token.depthAfter_of_ne_op (by simp [hdedent])]
        simp
      · have hkinds : ∀ u ∈ (fillDedents run t.trivia).1, u.kind ≠ .op := by
          intro u hu
          simp [hrun.kind_fillDedents t.trivia u hu]
        have hrest (columns : List Nat) (depth : Nat) :
            outerCommentsFrom depth (attachTrailersFrom columns [] ts) =
              outerCommentsFrom depth ts :=
          ih columns depth (by simp [IsClosingRun]) htail
        simp only
        rw [outerCommentsFrom_append hkinds, outerCommentsFrom, outerCommentsFrom, hrest,
          ← List.append_assoc]
        congr 1
        split
        · exact hrun.comments_fillDedents t.trivia
        · rfl

theorem outerComments_attachTrailers {ts : List Token}
    (hts : ∀ t ∈ ts, t.kind = .dedent → t.source = []) :
    outerComments (attachTrailers ts) = outerComments ts :=
  outerCommentsFrom_attachTrailersFrom [] 0 (by simp [IsClosingRun]) hts

theorem trivia_attachTrailersFrom (columns : List Nat) {run : List (Nat × Token)} {ts : List Token}
    (hrun : IsClosingRun run)
    (hts : ∀ t ∈ ts, t.kind = .indent ∨ t.kind = .dedent → t.source = []) :
    ∀ t ∈ attachTrailersFrom columns run ts, t.kind = .indent → t.trivia = [] := by
  induction ts generalizing columns run with
  | nil =>
      intro t ht hkind
      obtain ⟨r, hr, rfl⟩ := List.mem_map.mp ht
      rw [(hrun r hr).1] at hkind
      cases hkind
  | cons t ts ih =>
      have htail : ∀ u ∈ ts, u.kind = .indent ∨ u.kind = .dedent → u.source = [] :=
        fun u hu => hts u (by simp [hu])
      rw [attachTrailersFrom]
      split
      · rename_i hkind
        have hdedent : t.kind = .dedent := by simpa using hkind
        exact ih _ (hrun.concat hdedent (hts t (by simp) (.inr hdedent)) _) htail
      · intro u hu hindent
        rcases List.mem_append.mp hu with hu | hu
        · rw [hrun.kind_fillDedents t.trivia u hu] at hindent
          cases hindent
        rcases List.mem_cons.mp hu with rfl | hu
        · have htrivia := (List.append_eq_nil_iff.mp (hts t (by simp) (.inl hindent))).1
          have hspell := spell_fillDedents t.trivia fun r hr => (hrun r hr).2
          exact (List.append_eq_nil_iff.mp (hspell.trans htrivia)).2
        · exact ih _ (by simp [IsClosingRun]) htail u hu hindent

/-- The comments of a source outside of brackets are found in its tree, and no comment stands before a
marker that opens a block. -/
theorem outerComments_parse {source : Text} {m : Module} (h : parse source = .ok m) :
    ∃ ts, tokenize source = .ok ts ∧ outerComments ts = outerComments m.tokens ∧
      ∀ t ∈ m.tokens, t.kind = .indent → t.trivia = [] := by
  obtain ⟨ts, hts, htokens⟩ := tokens_parse h
  have hmarkers : ∀ t ∈ ts, t.kind = .indent ∨ t.kind = .dedent → t.source = [] := by
    obtain ⟨init, last, rfl, hlast, hinit⟩ := tokenize_ends hts
    intro t ht hkind
    rcases List.mem_append.mp ht with ht | ht
    · exact (hinit t ht).2 hkind
    · rw [List.mem_singleton.mp ht, hlast] at hkind
      simp at hkind
  refine ⟨ts, hts, ?_, ?_⟩
  · rw [htokens, outerComments_attachTrailers fun t ht hkind => hmarkers t ht (.inr hkind)]
  · rw [htokens]
    exact trivia_attachTrailersFrom [] (by simp [IsClosingRun]) hmarkers

/-! ## Items -/

mutual

theorem outerCommentsFrom_item : ∀ {i : Item}, i.WellFormed → ∀ (depth : Nat) (rest : List Token),
    outerCommentsFrom depth (i.tokens ++ rest) =
      (if depth = 0 then Trivia.physicalComments i.firstToken.trivia else []) ++
        outerCommentsFrom depth rest
  | .token t, hi, depth, rest => by
      have hleaf : t.IsLeaf := hi
      rw [tokens_token, List.singleton_append, outerCommentsFrom, Token.depthAfter_of_isLeaf hleaf]
      rfl
  | .group ⟨opening, elements, closing, kind, sortable⟩, hi, depth, rest => by
      obtain ⟨hbrackets, helements, -⟩ := hi
      obtain ⟨hopening, hclosing⟩ := hbrackets.depthAfter depth
      rw [tokens_group, Group.tokens, List.cons_append, outerCommentsFrom, hopening,
        List.append_assoc, outerCommentsFrom_elements helements, List.singleton_append,
        outerCommentsFrom, hclosing]
      simp [Item.firstToken]

/-- Inside of a bracket the depth does not come back to zero before the bracket closes. -/
theorem outerCommentsFrom_elements : ∀ {es : List Element} {s : Scope}, ElementsWellFormed s es →
    ∀ (depth : Nat) (rest : List Token),
    outerCommentsFrom (depth + 1) (tokensOfElements es ++ rest) = outerCommentsFrom (depth + 1) rest
  | [], _, _, _, _ => rfl
  | ⟨items, none⟩ :: es, s, hes, depth, rest => by
      obtain ⟨⟨-, -, hitems⟩, rfl⟩ := hes
      rw [tokensOfElements, Element.tokens, tokensOfElements, List.append_nil, List.append_assoc,
        outerCommentsFrom_items hitems]
      rfl
  | ⟨items, some comma⟩ :: es, s, hes, depth, rest => by
      obtain ⟨⟨-, -, hitems⟩, hcomma, hrest⟩ := hes
      have hop : comma.isOp "," = true := by
        simp only [Scope.separates, Bool.and_eq_true] at hcomma
        exact hcomma.1.1
      rw [tokensOfElements, Element.tokens, List.append_assoc, List.append_assoc,
        outerCommentsFrom_items hitems, Option.toList_some, List.singleton_append,
        outerCommentsFrom, Token.depthAfter_of_comma hop, outerCommentsFrom_elements hrest]
      rfl

theorem outerCommentsFrom_items : ∀ {items : List Item}, ItemsWellFormed items →
    ∀ (depth : Nat) (rest : List Token), outerCommentsFrom depth (tokensOfItems items ++ rest) =
      (if depth = 0 then items.flatMap fun i => Trivia.physicalComments i.firstToken.trivia
        else []) ++ outerCommentsFrom depth rest
  | [], _, depth, rest => by simp
  | i :: is, his, depth, rest => by
      rw [tokensOfItems_cons, List.append_assoc, outerCommentsFrom_item his.1,
        outerCommentsFrom_items his.2]
      split <;> simp

end

end SchemaTidy
