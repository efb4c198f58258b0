import Mathlib.Data.List.Perm.Basic
import SchemaTidy.Proofs.Edit.Fixpoint
import SchemaTidy.Proofs.Migration.Call
import SchemaTidy.Proofs.Token.Comments
import SchemaTidy.Proofs.Tree.Groups

/-!
# Comments through a migration

A comment that ends the line of an argument stands in the trivia of the token behind it, so whoever
moves, replaces or appends arguments has to hand comments from token to token. The comments of a call
are counted here before and after each step of a migration: the arguments are split, the keywords go
into the mapping one after another, and the commas are derived anew.
-/

namespace SchemaTidy

open Trivia

namespace Trivia

theorem splitSameLine_rest (t : Text) :
    splitSameLine (splitSameLine t).2 = ([], (splitSameLine t).2) := by
  have hfirst : ((splitSameLine t).2.takeWhile (!Text.isLineBreak ·)).contains '#' = false := by
    simp only [splitSameLine]
    split
    · have hhead := List.head?_dropWhile_not (!Text.isLineBreak ·) t
      cases hrest : t.dropWhile (!Text.isLineBreak ·) with
      | nil => rfl
      | cons c rest =>
          rw [hrest] at hhead
          have hc : Text.isLineBreak c = true := by simpa using hhead
          simp [hc]
    · rename_i hnone
      simpa using hnone
  rw [splitSameLine]
  simp only [hfirst, Bool.false_eq_true, if_false]

theorem splitSameLine_append (t : Text) : (splitSameLine t).1 ++ (splitSameLine t).2 = t := by
  simp only [splitSameLine]
  split
  · exact List.takeWhile_append_dropWhile
  · rfl

theorem splitSameLine_own (t : Text) :
    splitSameLine (splitSameLine t).1 = ((splitSameLine t).1, []) := by
  cases hfirst : (t.takeWhile (!Text.isLineBreak ·)).contains '#' with
  | false => simp only [splitSameLine, hfirst, Bool.false_eq_true, if_false]; rfl
  | true =>
      have hall : ∀ c ∈ t.takeWhile (!Text.isLineBreak ·), (!Text.isLineBreak c) = true := by
        intro c hc
        exact (List.mem_takeWhile_imp hc :)
      have hown : (splitSameLine t).1 = t.takeWhile (!Text.isLineBreak ·) := by
        simp only [splitSameLine, hfirst, if_true]
      rw [hown, splitSameLine]
      simp only [List.takeWhile_eq_self_iff.mpr hall, List.dropWhile_eq_nil_iff.mpr hall, hfirst,
        if_true]

theorem flatMap_ownLineComments_rest (t : Text) :
    (ownLineComments (splitSameLine t).2).flatMap physicalComments =
      physicalComments (splitSameLine t).2 := by
  rw [flatMap_ownLineComments, splitSameLine_rest]

theorem flatMap_sameLineComment?_own (t : Text) :
    (sameLineComment? (splitSameLine t).1).toList.flatMap physicalComments =
      physicalComments (splitSameLine t).1 := by
  rw [sameLineComment?, splitSameLine_own, flatMap_comment?]

/-- The first row of a text is blank, so that a comment in front of it stays as it is. -/
def StartsBlank (t : Text) : Prop := ∀ c ∈ t.takeWhile (!Text.isLineBreak ·), Text.isBlank c = true

theorem physicalComments_append_of_startsBlank (a : Text) {t : Text} (h : StartsBlank t) :
    physicalComments (a ++ t) = physicalComments a ++ physicalComments t := by
  have hblank {row : Text} (hrow : ∀ c ∈ row, Text.isBlank c = true) (a : Text) :
      physicalComments (a ++ row) = physicalComments a := by
    induction row generalizing a with
    | nil => rw [List.append_nil]
    | cons c row ih =>
        have hrest := ih (fun d hd => hrow d (by simp [hd])) (a ++ [c])
        rw [List.append_assoc, List.singleton_append] at hrest
        rw [hrest, physicalComments_concat (hrow c (by simp))]
  have hsplit := List.takeWhile_append_dropWhile (p := (!Text.isLineBreak ·)) (l := t)
  have hrow := hblank h
  generalize t.takeWhile (!Text.isLineBreak ·) = row at hsplit hrow
  have hhead := List.head?_dropWhile_not (!Text.isLineBreak ·) t
  cases hrest : t.dropWhile (!Text.isLineBreak ·) with
  | nil =>
      rw [hrest, List.append_nil] at hsplit
      rw [← hsplit, hrow a, ← List.nil_append row, hrow [], physicalComments_nil, List.append_nil]
  | cons c rest =>
      rw [hrest] at hhead hsplit
      have hc : Text.isLineBreak c = true := by simpa using hhead
      rw [← hsplit, ← List.append_assoc, physicalComments_append_break _ hc, hrow a,
        physicalComments_append_break row hc, ← List.nil_append row, hrow [], physicalComments_nil,
        List.nil_append]

end Trivia

theorem physicalComments_commentLines (sameLine : Text) (comments : List Text) :
    physicalComments (commentLines sameLine comments) =
      physicalComments sameLine ++ comments.flatMap physicalComments := by
  have hlines : physicalComments (sameLine ++ comments.flatMap ('\n' :: ·)) =
      physicalComments sameLine ++ comments.flatMap physicalComments := by
    induction comments generalizing sameLine with
    | nil => simp
    | cons c comments ih =>
        have hrest := ih (sameLine ++ '\n' :: c)
        rw [physicalComments_append_break sameLine (by decide)] at hrest
        simpa using hrest
  unfold commentLines
  simp only
  split
  · rename_i hempty
    rw [← hlines, List.isEmpty_iff.mp hempty]
  · rw [physicalComments_concat (by decide), hlines]

theorem physicalComments_afterComment (sameLine rest : Text) :
    physicalComments (afterComment sameLine rest) =
      physicalComments sameLine ++ physicalComments rest := by
  unfold afterComment
  split
  · rename_i h
    rw [Bool.or_eq_true] at h
    rcases h with hempty | hbreak
    · rw [List.isEmpty_iff.mp hempty]
      rfl
    · apply physicalComments_append_of_startsBlank
      cases rest with
      | nil => simp [StartsBlank]
      | cons c rest =>
          have hc : Text.isLineBreak c = true := by simpa using hbreak
          simp [StartsBlank, hc]
  · exact physicalComments_append_break sameLine (by decide) rest

/-! ## Elements -/

namespace Element

/-- The comment on the line of the token before an element. -/
def commentBefore (e : Element) : List Text := physicalComments (splitSameLine e.leadingTrivia).1

/-- The comments of an element: on the lines above it and between its tokens. -/
def ownComments (e : Element) : List Text :=
  commentsOf (e.mapFirst (·.withTrivia (splitSameLine e.leadingTrivia).2)).tokens

theorem comments_mapFirst {e : Element} (he : e.items ≠ []) (trivia : Text) :
    commentsOf (e.mapFirst (·.withTrivia trivia)).tokens =
      physicalComments trivia ++ commentsOf e.tokens.tail := by
  obtain ⟨items, comma⟩ := e
  match items with
  | [] => exact absurd rfl he
  | .token t :: is =>
      simp [mapFirst, Item.mapFirst, Element.tokens, Token.withTrivia, tokensOfItems, Item.tokens]
  | .group g :: is =>
      obtain ⟨opening, elements, closing, kind, sortable⟩ := g
      simp [mapFirst, Item.mapFirst, Element.tokens, Token.withTrivia, Group.tokens, tokensOfItems,
        Item.tokens]

theorem comments_eq_leading {e : Element} (he : e.items ≠ []) :
    commentsOf e.tokens = physicalComments e.leadingTrivia ++ commentsOf e.tokens.tail := by
  obtain ⟨items, comma⟩ := e
  match items with
  | [] => exact absurd rfl he
  | .token t :: is => simp [leadingTrivia, Item.firstToken, Element.tokens, tokensOfItems, Item.tokens]
  | .group g :: is =>
      obtain ⟨opening, elements, closing, kind, sortable⟩ := g
      simp [leadingTrivia, Item.firstToken, Element.tokens, Group.tokens, tokensOfItems, Item.tokens]

theorem comments_eq (e : Element) : commentsOf e.tokens = e.commentBefore ++ e.ownComments := by
  by_cases he : e.items = []
  · obtain ⟨items, comma⟩ := e
    subst he
    simp [commentBefore, ownComments, leadingTrivia, mapFirst, splitSameLine]
  · rw [commentBefore, ownComments, comments_mapFirst he, comments_eq_leading he,
      ← physicalComments_splitSameLine e.leadingTrivia, List.append_assoc]

end Element

def finalComma (es : List Element) : Option Token := es.getLast?.bind Element.comma

@[simp] theorem finalComma_concat (es : List Element) (e : Element) :
    finalComma (es ++ [e]) = e.comma := by
  simp [finalComma]

theorem finalComma_congr {e e' : Element} (h : e'.comma = e.comma) (pre post : List Element) :
    finalComma (pre ++ e' :: post) = finalComma (pre ++ e :: post) := by
  cases hpost : post.getLast? <;>
    simp [finalComma, List.getLast?_append, List.getLast?_cons, hpost, h]

/-- Deriving commas anew costs the comments before a final comma that is taken away. -/
theorem comments_punctuate (trailing : Bool) (es : List Element) :
    commentsOf (tokensOfElements es) =
      commentsOf (tokensOfElements (punctuate trailing es)) ++
        if trailing then [] else commentsOf (finalComma es).toList := by
  have hcomma (comma : Option Token) :
      commentsOf (some (comma.getD (.ofOp ","))).toList = commentsOf comma.toList := by
    cases comma <;> rfl
  fun_induction punctuate trailing es with
  | case1 => cases trailing <;> rfl
  | case2 e =>
      obtain ⟨items, comma⟩ := e
      cases trailing
      · simp [tokensOfElements, Element.tokens, finalComma]
      · simp only [tokensOfElements, Element.tokens, if_true, commentsOf_append, hcomma]
        simp
  | case3 e es hne ih =>
      obtain ⟨items, comma⟩ := e
      have hlast : finalComma (⟨items, comma⟩ :: es) = finalComma es := by
        obtain ⟨init, last, rfl⟩ := List.eq_nil_or_concat es |>.resolve_left (by simpa using hne)
        simp [finalComma, List.getLast?_cons]
      rw [hlast]
      simp only [tokensOfElements, Element.tokens, commentsOf_append, ih, hcomma, List.append_assoc]

/-! ## The arguments are split -/

def MovedKeyword.allComments (k : MovedKeyword) : List Text :=
  k.comments.flatMap physicalComments ++ commentsOf (tokensOfItems k.value) ++
    k.trailing.toList.flatMap physicalComments

theorem comments_keyword {e : Element} (he : e.keyword?.isSome = true) (name : Text)
    (trailing : Option Text) :
    (MovedKeyword.allComments
      { name
        value := e.items.drop 2
        comments := keywordComments (splitSameLine e.leadingTrivia).2 e
        trailing }).Perm (e.ownComments ++ trailing.toList.flatMap physicalComments) := by
  obtain ⟨name', hname⟩ := Option.isSome_iff_exists.mp he
  obtain ⟨key, eq, value, values, hitems, -⟩ := Element.exists_of_keyword? hname
  obtain ⟨items, comma⟩ := e
  subst hitems
  refine List.perm_iff_count.mpr fun w => ?_
  cases comma <;>
    simp only [MovedKeyword.allComments, keywordComments, Element.ownComments,
      Element.leadingTrivia, Item.firstToken, Element.mapFirst, Item.mapFirst, Element.tokens,
      tokensOfItems, Item.tokens, Token.withTrivia, List.flatMap_append,
      flatMap_ownLineComments_rest, flatMap_comments, commentsOf_append, commentsOf_cons,
      commentsOf_nil, List.count_append, List.drop_succ_cons, List.drop_zero, List.append_nil,
      List.cons_append, List.nil_append, Option.toList_none, Option.toList_some] <;>
    omega

section Partition

variable {moves : Element → Bool} (closing : Text) (carry : Option Text) {e : Element}
  (es : List Element)

/-- A keyword that moves takes the comment on its line along and passes on the one before it. -/
theorem partitionFrom_moves (h : moves e = true) :
    partitionFrom moves closing carry carry.isSome (e :: es) =
      let p := partitionFrom moves closing (some (carry.getD (splitSameLine e.leadingTrivia).1))
        true es
      let keyword : MovedKeyword :=
        { name := e.keyword?.getD []
          value := e.items.drop 2
          comments := keywordComments (splitSameLine e.leadingTrivia).2 e
          trailing := sameLineComment? (splitSameLine (triviaAfter closing es)).1 }
      { p with moved := keyword :: p.moved } := by
  cases carry <;> simp [partitionFrom, h]

theorem partitionFrom_stays (h : moves e = false) :
    partitionFrom moves closing carry carry.isSome (e :: es) =
      let p := partitionFrom moves closing none false es
      let trivia := carry.elim e.leadingTrivia (· ++ (splitSameLine e.leadingTrivia).2)
      { p with kept := e.mapFirst (·.withTrivia trivia) :: p.kept } := by
  cases carry <;> simp [partitionFrom, h, splitSameLine_append, Token.withTrivia]

end Partition

/-- The comments that are carried to arguments which stay, each with the trivia that it is put in front
of. -/
def carriedFrom (moves : Element → Bool) (carry : Option Text) : List Element → List (Text × Text)
  | [] => []
  | e :: es =>
      let (own, rest) := splitSameLine e.leadingTrivia
      if moves e then carriedFrom moves (some (carry.getD own)) es
      else (carry.map (·, rest)).toList ++ carriedFrom moves none es

/-- A carried comment goes in front of a blank row. -/
def CarriesToBlank (carried : List (Text × Text)) : Prop :=
  ∀ x ∈ carried, x.1 = [] ∨ StartsBlank x.2

/-- Splitting the arguments loses no comment. With a comment on its way from a moved argument, the one
on the line of the last token read has been handed to that argument. -/
theorem comments_partitionFrom {moves : Element → Bool} {closing : Text} {carry : Option Text}
    {es : List Element} (hmoves : ∀ e ∈ es, moves e = true → e.keyword?.isSome = true)
    (hitems : ∀ e ∈ es, e.items ≠ []) (hcarried : CarriesToBlank (carriedFrom moves carry es)) :
    let p := partitionFrom moves closing carry carry.isSome es
    let before := physicalComments (splitSameLine (triviaAfter closing es)).1
    (carry.elim before physicalComments ++ commentsOf (tokensOfElements es) ++
        physicalComments (splitSameLine closing).1).Perm
      (before ++ commentsOf (tokensOfElements p.kept) ++ p.moved.flatMap (·.allComments) ++
        physicalComments p.owed) := by
  induction es generalizing carry with
  | nil =>
      refine List.perm_iff_count.mpr fun w => ?_
      cases carry
      · simp [partitionFrom, triviaAfter, tokensOfElements]
      · simp [partitionFrom, triviaAfter, tokensOfElements]
        omega
  | cons e es ih =>
      have hes : ∀ e ∈ es, e.items ≠ [] := fun e he => hitems e (by simp [he])
      have hesm : ∀ e ∈ es, moves e = true → e.keyword?.isSome = true :=
        fun e he => hmoves e (by simp [he])
      have hbefore := e.comments_eq
      rw [Element.commentBefore] at hbefore
      have he : e.items ≠ [] := hitems e (by simp)
      rw [carriedFrom] at hcarried
      cases hm : moves e with
      | true =>
          have hkeyword := comments_keyword (hmoves e (by simp) hm) (e.keyword?.getD [])
            (sameLineComment? (splitSameLine (triviaAfter closing es)).1)
          rw [flatMap_sameLineComment?_own] at hkeyword
          simp only [hm, if_true] at hcarried
          have hrest := ih hesm hes hcarried
          have hcarry : carry.elim (physicalComments (splitSameLine e.leadingTrivia).1)
              physicalComments = physicalComments (carry.getD (splitSameLine e.leadingTrivia).1) := by
            cases carry <;> rfl
          refine List.perm_iff_count.mpr fun w => ?_
          have hkeyword := hkeyword.count_eq w
          have hrest := hrest.count_eq w
          simp only [partitionFrom_moves closing carry es hm, Option.isSome_some, Option.elim_some,
            tokensOfElements, commentsOf_append, List.count_append, List.flatMap_cons, triviaAfter,
            hbefore, hcarry] at hrest hkeyword ⊢
          omega
      | false =>
          simp only [hm, Bool.false_eq_true, if_false] at hcarried
          obtain ⟨hhead, htail⟩ := List.forall_mem_append.mp hcarried
          have hrest := ih hesm hes htail
          refine List.perm_iff_count.mpr fun w => ?_
          have hrest := hrest.count_eq w
          have hown := Element.comments_mapFirst he (splitSameLine e.leadingTrivia).2
          rw [← Element.ownComments] at hown
          have hleading := Element.comments_eq_leading he
          simp only [partitionFrom_stays closing carry es hm, Option.isSome_none, Option.elim_none,
            tokensOfElements, commentsOf_append, List.count_append, triviaAfter,
            Element.comments_mapFirst he] at hrest ⊢
          cases carry with
          | none =>
              simp only [Option.elim_none, hleading, List.count_append]
              omega
          | some c =>
              have hjoined : physicalComments (c ++ (splitSameLine e.leadingTrivia).2) =
                  physicalComments c ++ physicalComments (splitSameLine e.leadingTrivia).2 := by
                rcases hhead (c, (splitSameLine e.leadingTrivia).2) (by simp) with hnil | hblank
                · obtain rfl : c = [] := hnil
                  rfl
                · exact physicalComments_append_of_startsBlank c hblank
              simp only [Option.elim_some, hjoined, hbefore, hown, List.count_append]
              omega

/-! ## The keywords go into the mapping -/

theorem comments_mapFirst_blank (i : Item) :
    commentsOf (i.mapFirst fun t =>
      if t.hasComment then t else { t with trivia := [' '] }).tokens = commentsOf i.tokens := by
  have htrivia (t : Token) : physicalComments (if t.hasComment then t
      else { t with trivia := [' '] }).trivia = physicalComments t.trivia := by
    split
    · rfl
    · rename_i hnone
      have hfree : ∀ c ∈ t.trivia, c ≠ '#' := by
        rintro c hc rfl
        simp [Token.hasComment, hc] at hnone
      rw [← List.append_nil t.trivia, physicalComments_append_of_forall hfree]
      rfl
  cases i with
  | token t => simp [Item.mapFirst, Item.tokens, htrivia]
  | group g =>
      obtain ⟨opening, elements, closing, kind, sortable⟩ := g
      simp [Item.mapFirst, Item.tokens, Group.tokens, htrivia]

theorem comments_entry (d : Destination) (keyword : MovedKeyword) (trivia : Text) :
    commentsOf (d.entry keyword trivia).tokens =
      physicalComments trivia ++ commentsOf (tokensOfItems keyword.value) := by
  obtain ⟨name, value, comments, trailing⟩ := keyword
  unfold Destination.entry
  cases d <;> cases value <;>
    simp [Element.ofItems, Element.tokens, tokensOfItems, Item.tokens, Token.withTrivia, Token.ofOp,
      Token.synthetic, comments_mapFirst_blank]

namespace Merge

/-- The entries that keywords replace, one keyword after another. -/
def replaced (d : Destination) (destination : Text) (site : Site) :
    Merge → List MovedKeyword → List Element
  | _, [] => []
  | m, keyword :: moved =>
      m.entries.filter (d.keyOf? · == some keyword.name) ++
        replaced d destination site (m.push d destination site keyword) moved

theorem owed_push (d : Destination) (destination : Text) (site : Site) (m : Merge)
    (keyword : MovedKeyword) : (m.push d destination site keyword).owed =
      keyword.trailing.elim [] (' ' :: ' ' :: ·) := by
  cases h : keyword.trailing <;> simp [push, h]

theorem comments_filter (p : Element → Bool) (es : List Element) :
    (commentsOf (tokensOfElements es)).Perm
      (commentsOf (tokensOfElements (es.filter fun e => !p e)) ++
        (es.filter p).flatMap (commentsOf ·.tokens)) := by
  induction es with
  | nil => exact List.Perm.refl _
  | cons e es ih =>
      refine List.perm_iff_count.mpr fun w => ?_
      have hrest := ih.count_eq w
      cases hp : p e <;>
        simp only [tokensOfElements, hp, List.filter_cons, Bool.not_true, Bool.not_false, if_true,
          Bool.false_eq_true, if_false, List.flatMap_cons, commentsOf_append,
          List.count_append] at hrest ⊢ <;>
        omega

theorem comments_push (d : Destination) (destination : Text) (site : Site) (m : Merge)
    (keyword : MovedKeyword) :
    (commentsOf (tokensOfElements m.entries) ++ physicalComments m.owed ++
        keyword.allComments).Perm
      (commentsOf (tokensOfElements (m.push d destination site keyword).entries) ++
        physicalComments (m.push d destination site keyword).owed ++
        (m.entries.filter (d.keyOf? · == some keyword.name)).flatMap (commentsOf ·.tokens)) := by
  have howed : physicalComments (m.push d destination site keyword).owed =
      keyword.trailing.toList.flatMap physicalComments := by
    rw [owed_push]
    cases keyword.trailing with
    | none => rfl
    | some comment => simp [physicalComments_cons]
  have hentries : (m.push d destination site keyword).entries =
      m.entries.filter (fun e => !(d.keyOf? e == some keyword.name)) ++
        [d.entry keyword (commentLines m.owed keyword.comments)] := rfl
  have hfilter := comments_filter (d.keyOf? · == some keyword.name) m.entries
  refine List.perm_iff_count.mpr fun w => ?_
  have hfilter := hfilter.count_eq w
  rw [howed, hentries]
  simp only [tokensOfElements_append, tokensOfElements, List.append_nil, commentsOf_append,
    comments_entry, physicalComments_commentLines, MovedKeyword.allComments,
    List.count_append] at hfilter ⊢
  omega

/-- Moving keywords into a mapping loses the comments of the entries that they replace, and no other. -/
theorem comments_foldl (d : Destination) (destination : Text) (site : Site)
    (moved : List MovedKeyword) (m : Merge) :
    let m' := moved.foldl (push d destination site) m
    (commentsOf (tokensOfElements m.entries) ++ physicalComments m.owed ++
        moved.flatMap (·.allComments)).Perm
      (commentsOf (tokensOfElements m'.entries) ++ physicalComments m'.owed ++
        (replaced d destination site m moved).flatMap (commentsOf ·.tokens)) := by
  induction moved generalizing m with
  | nil => exact List.Perm.refl _
  | cons keyword moved ih =>
      refine List.perm_iff_count.mpr fun w => ?_
      have hpush := (comments_push d destination site m keyword).count_eq w
      have hrest := (ih (m.push d destination site keyword)).count_eq w
      simp only [List.foldl_cons, replaced, List.flatMap_cons, List.flatMap_append,
        List.count_append] at hpush hrest ⊢
      omega

theorem finalComma_foldl (d : Destination) (destination : Text) (site : Site)
    (moved : List MovedKeyword) {m : Merge} (h : finalComma m.entries = none) :
    finalComma (moved.foldl (push d destination site) m).entries = none := by
  induction moved generalizing m with
  | nil => exact h
  | cons keyword moved ih =>
      apply ih
      show finalComma (_ ++ [d.entry keyword _]) = none
      rw [finalComma_concat]
      rfl

end Merge

theorem comments_mergeInto (d : Destination) (destination : Text) (site : Site)
    (moved : List MovedKeyword) (mapping : Group) :
    (commentsOf mapping.tokens ++ moved.flatMap (·.allComments)).Perm
      (commentsOf (mergeInto d destination site moved mapping).1.tokens ++
        (Merge.replaced d destination site
          ⟨mapping.elements, (splitSameLine mapping.closing.trivia).1, []⟩ moved).flatMap
            (commentsOf ·.tokens)) := by
  have hfold := Merge.comments_foldl d destination site moved
    ⟨mapping.elements, (splitSameLine mapping.closing.trivia).1, []⟩
  have hcomma (h : finalComma mapping.elements = none) := Merge.finalComma_foldl d destination site
    moved (m := ⟨mapping.elements, (splitSameLine mapping.closing.trivia).1, []⟩) h
  unfold mergeInto Group.punctuated
  simp only
  generalize moved.foldl (Merge.push d destination site)
    ⟨mapping.elements, (splitSameLine mapping.closing.trivia).1, []⟩ = m at hfold hcomma ⊢
  have hpunctuate := comments_punctuate mapping.hasTrailingComma m.entries
  have hnone : (if mapping.hasTrailingComma then [] else commentsOf (finalComma m.entries).toList) =
      [] := by
    cases htrailing : mapping.hasTrailingComma with
    | true => rfl
    | false =>
        have hmapping : finalComma mapping.elements = none := by
          unfold Group.hasTrailingComma at htrailing
          unfold finalComma
          cases hlast : mapping.elements.getLast? with
          | none => rfl
          | some e => simpa [hlast] using htrailing
        rw [hcomma hmapping]
        rfl
  rw [hnone, List.append_nil] at hpunctuate
  refine List.perm_iff_count.mpr fun w => ?_
  have hfold := hfold.count_eq w
  have hclosing := congrArg (List.count w) (physicalComments_splitSameLine mapping.closing.trivia)
  obtain ⟨opening, elements, closing, kind, sortable⟩ := mapping
  simp only [Group.tokens, commentsOf_cons, commentsOf_append, commentsOf_nil, List.append_nil,
    physicalComments_afterComment, ← hpunctuate, List.count_append] at hfold hclosing ⊢
  omega

/-! ## A call -/

theorem comments_setMapping {d : Destination} {e : Element} {mapping : Group}
    (h : d.mapping? e = some mapping) (new : Group) :
    (commentsOf e.tokens ++ commentsOf new.tokens).Perm
      (commentsOf (d.setMapping e new).tokens ++ commentsOf mapping.tokens) := by
  obtain ⟨front, back, hitems, hset⟩ := Destination.items_setMapping h
  have htokens : (d.setMapping e new).tokens =
      tokensOfItems (d.setMapping e new).items ++ e.comma.toList := rfl
  obtain ⟨items, comma⟩ := e
  rw [htokens, hset, Element.tokens, show items = _ from hitems]
  refine List.perm_iff_count.mpr fun w => ?_
  simp only [tokensOfItems_append, tokensOfItems, Item.tokens, commentsOf_append, List.count_append]
  omega

namespace MigrationRule

variable (r : MigrationRule)

/-- The destination into which keywords of a call move, if any do. -/
def target? (site : Site) (g : Group) : Option Destination :=
  if g.elements.any (r.movesElement site) && classify g r.destination != .foreign then
    some (classify g r.destination)
  else none

/-- A migration moves keywords into the destination, or it leaves the call as it is. -/
theorem migrate_target (site : Site) (g : Group) :
    (∃ d, r.target? site g = some d ∧ classify g r.destination = d ∧ d ≠ .foreign ∧
      r.migrate site g = r.move d site g) ∨
    (r.target? site g = none ∧ ∃ outcome, r.migrate site g = some (g, outcome)) := by
  by_cases hmoves : g.elements.any (r.movesElement site) = true ∧
      classify g r.destination ≠ .foreign
  · obtain ⟨hany, hforeign⟩ := hmoves
    exact .inl ⟨_, by simp [target?, hany, hforeign], rfl, hforeign,
      r.migrate_of_not_foreign hany hforeign⟩
  · have hstays : r.SelectsNone site.constructor g ∨ classify g r.destination = .foreign := by
      refine (not_and_or.mp hmoves).imp (fun hany e he => ?_) not_not.mp
      simp only [List.any_eq_true, not_exists, not_and, Bool.not_eq_true] at hany
      exact hany e he
    obtain ⟨outcome, hmigrate, -⟩ := r.migrate_unchanged hstays
    refine .inr ⟨?_, outcome, hmigrate⟩
    rcases not_and_or.mp hmoves with hany | hforeign
    · simp [target?, hany]
    · simp [target?, not_not.mp hforeign]

/-- The comments that are carried to arguments which stay. -/
def carried (site : Site) (g : Group) : List (Text × Text) :=
  (r.target? site g).elim [] fun _ => carriedFrom (r.movesElement site) none g.elements

/-- The entries that the keywords of a call replace in its destination `d`. -/
def replacedIn (d : Destination) (site : Site) (g : Group) : List Element :=
  (((r.staying d site g).find? (·.keyword? == some r.destination)).bind d.mapping?).elim []
    fun mapping => Merge.replaced d r.destination site
      ⟨mapping.elements, (splitSameLine mapping.closing.trivia).1, []⟩ (r.moving site g)

/-- The comments before the comma of the last argument that stays, which goes when the last argument of
all had none. -/
def commaComments (d : Destination) (site : Site) (g : Group) : List Text :=
  if g.hasTrailingComma then [] else commentsOf (finalComma (r.staying d site g)).toList

/-- The entries that the keywords of a call replace. -/
def replaced (site : Site) (g : Group) : List Element :=
  (r.target? site g).elim [] (r.replacedIn · site g)

/-- The comments that a migration drops besides those of the entries that it replaces: those that end
the line before a replaced entry, and those before a comma that is taken away. -/
def dropped (site : Site) (g : Group) : List Text :=
  (r.replaced site g).flatMap Element.commentBefore ++
    (r.target? site g).elim [] (r.commaComments · site g)

theorem comments_staying (d : Destination) (site : Site) (g : Group) :
    let p := partitionFrom (r.movesElement site) g.closing.trivia none false g.elements
    commentsOf (tokensOfElements (r.staying d site g)) ++
        physicalComments (r.closingTrivia d site g) =
      commentsOf (tokensOfElements p.kept) ++ physicalComments p.owed ++
        physicalComments (splitSameLine g.closing.trivia).2 := by
  unfold staying closingTrivia
  simp only
  split
  · simp [Element.ofKeyword, Element.ofItems, Element.mapFirst, Item.mapFirst, tokensOfElements,
      Element.tokens, tokensOfItems, Item.tokens, Group.ofElements, Group.tokens, Token.ofOp,
      Token.ofName, Token.synthetic, physicalComments_afterComment]
  · rw [physicalComments_afterComment, List.append_assoc]

/-- Moving keywords loses the comments of the entries that they replace and those before a comma that is
taken away, and no other. -/
theorem comments_move (hname : isKeyword r.destination = false) {d : Destination} (site : Site)
    {g : Group} (hclass : classify g r.destination = d) (hforeign : d ≠ .foreign)
    (hitems : ∀ e ∈ g.elements, e.items ≠ [])
    (hcarried : CarriesToBlank (carriedFrom (r.movesElement site) none g.elements)) :
    ∃ g' outcome, r.move d site g = some (g', outcome) ∧
      (commentsOf g.tokens).Perm
        (commentsOf g'.tokens ++ (r.replacedIn d site g).flatMap (commentsOf ·.tokens) ++
          r.commaComments d site g) := by
  obtain ⟨pre, e, post, mapping, outcome, hstaying, hpre, hkeyword, hmapping, hmove, -⟩ :=
    r.move_eq hname site hclass hforeign
  refine ⟨_, outcome, hmove, ?_⟩
  have hreplaced : r.replacedIn d site g = Merge.replaced d r.destination site
      ⟨mapping.elements, (splitSameLine mapping.closing.trivia).1, []⟩ (r.moving site g) := by
    have hfind : (pre ++ e :: post).find? (·.keyword? == some r.destination) = some e :=
      List.find?_eq_some_iff_append.mpr ⟨by simp [hkeyword], pre, post, rfl, by simpa using hpre⟩
    rw [replacedIn, hstaying, hfind, Option.bind_some, hmapping]
    rfl
  have hpartition := @comments_partitionFrom (r.movesElement site) g.closing.trivia none g.elements
    (fun e _ h => Option.isSome_of_any h) hitems hcarried
  have hstays := r.comments_staying d site g
  have hmerge := comments_mergeInto d r.destination site (r.moving site g) mapping
  rw [← hreplaced] at hmerge
  unfold migratedCall Group.punctuated
  generalize (mergeInto d r.destination site (r.moving site g) mapping).1 = merged at hmerge ⊢
  have hset := comments_setMapping hmapping merged
  have hpunctuate := comments_punctuate g.hasTrailingComma (pre ++ d.setMapping e merged :: post)
  rw [finalComma_congr (show (d.setMapping e merged).comma = e.comma from rfl), ← hstaying,
    ← commaComments] at hpunctuate
  rw [hstaying] at hstays
  have hclosing := physicalComments_splitSameLine g.closing.trivia
  refine List.perm_iff_count.mpr fun w => ?_
  have hpartition := hpartition.count_eq w
  have hmerge := hmerge.count_eq w
  have hset := hset.count_eq w
  have hpunctuate := congrArg (List.count w) hpunctuate
  have hstays := congrArg (List.count w) hstays
  have hclosing := congrArg (List.count w) hclosing
  obtain ⟨opening, elements, closing, kind, sortable⟩ := g
  simp only [moving, Option.isSome_none, Option.elim_none, Group.tokens, tokensOfElements_append,
    tokensOfElements, commentsOf_append, commentsOf_cons, commentsOf_nil, List.append_nil,
    List.count_append] at *
  omega

end MigrationRule

/-! ## Main statement -/

/-- Migration of one call of a parsed module, with a rule of a valid configuration. Every comment before
a token of the call is before a token of the result, as often as it was, apart from the comments of the
entries that the keywords replace and from those that `dropped` lists. A comment that is handed to an
argument is asked to go in front of a blank row, since it would otherwise take that row in. -/
theorem migrate_keeps_comments (config : Config) (hvalid : config.validate = .ok ()) {source : Text}
    {m : Module} (hparse : parse source = .ok m) {g : Group} (hg : g ∈ m.groups) (site : Site)
    (hcarried : CarriesToBlank (config.migration.carried site g)) :
    let r := config.migration
    ∃ g' outcome, r.migrate site g = some (g', outcome) ∧
      (commentsOf g.tokens).Perm
        (commentsOf g'.tokens ++ (r.replaced site g).flatMap Element.ownComments ++
          r.dropped site g) := by
  intro r
  rcases r.migrate_target site g with ⟨d, htarget, hclass, hforeign, hmigrate⟩ |
    ⟨htarget, outcome, hmigrate⟩
  · have hregular : g.IsRegular := forall_groupsOfBody.mpr (parse_regular hparse) g hg
    have hcarried : CarriesToBlank (r.carried site g) := hcarried
    rw [MigrationRule.carried, htarget] at hcarried
    obtain ⟨g', outcome, hmove, hcomments⟩ := r.comments_move (config.isKeyword_destination hvalid)
      site hclass hforeign hregular.items hcarried
    refine ⟨g', outcome, hmigrate.trans hmove, ?_⟩
    have hentries := List.flatMap_append_perm (r.replacedIn d site g)
      Element.commentBefore Element.ownComments
    simp only [← Element.comments_eq] at hentries
    refine List.perm_iff_count.mpr fun w => ?_
    have hcomments := hcomments.count_eq w
    have hentries := hentries.count_eq w
    simp only [MigrationRule.dropped, MigrationRule.replaced, htarget, Option.elim_some,
      List.count_append] at hcomments hentries ⊢
    omega
  · refine ⟨g, outcome, hmigrate, ?_⟩
    simp [MigrationRule.dropped, MigrationRule.replaced, htarget]

/-- A comment for an argument that stays, for a keyword that moves and for an entry that it replaces. -/
def annotatedCall : Text :=
  ("f(a=1,  # one\n  # two\n  hint='x',  # three\n  m=\x7b\n    # four\n    'hint': 2,\n" ++
    "    'k': 3,  # five\n  \x7d)\n").toList

theorem migrate_keeps_comments_annotatedCall :
    let r := (Config.migrating {} ["hint".toList] "m".toList).migration
    let site : Site := ⟨"A".toList, "x".toList, "f".toList, ⟨1, 1⟩, [], [], 0⟩
    ∃ m g g' outcome, parse annotatedCall = .ok m ∧ g ∈ m.groups ∧
      r.migrate site g = some (g', outcome) ∧
      (commentsOf g.tokens).Perm (commentsOf g'.tokens ++ ["# four".toList]) := by
  intro r site
  have hcall : ((parse annotatedCall).toOption.any fun m => m.groups.head?.any fun g =>
      r.carried site g = [("  # one".toList, "\n  ".toList)] &&
        (r.replaced site g).flatMap Element.ownComments = ["# four".toList] &&
          r.dropped site g = []) = true := by
    decide +kernel
  cases hm : parse annotatedCall with
  | error e => simp [hm, Except.toOption] at hcall
  | ok m =>
      rw [hm, Except.toOption, Option.any_some] at hcall
      obtain ⟨g, hhead, hg⟩ := (Option.any_eq_true _ _).mp hcall
      simp only [Bool.and_eq_true, decide_eq_true_eq] at hg
      obtain ⟨⟨hcarried, hreplaced⟩, hdropped⟩ := hg
      have hmem : g ∈ m.groups := List.mem_of_head? hhead
      obtain ⟨g', outcome, hmigrate, hcomments⟩ := migrate_keeps_comments
        (Config.migrating {} ["hint".toList] "m".toList) (by decide +kernel) hm hmem site (by
          rw [show MigrationRule.carried _ site g = _ from hcarried]
          simp [CarriesToBlank, StartsBlank, Text.isLineBreak])
      rw [show MigrationRule.dropped _ site g = [] from hdropped, List.append_nil,
        show List.flatMap _ (MigrationRule.replaced _ site g) = _ from hreplaced] at hcomments
      exact ⟨m, g, g', outcome, rfl, hmem, hmigrate, hcomments⟩

end SchemaTidy
