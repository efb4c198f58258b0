import SchemaTidy.Proofs.Literal.Body
import SchemaTidy.Proofs.Migration.Comments
import SchemaTidy.Proofs.Print.Comment
import SchemaTidy.Proofs.Tree.Readable

/-!
# A migrated call can be read

A migration puts trivia together from parts of other trivia and words in front of others. Every token it
writes is again cut off before what follows, and a word follows every trivia, so that the call can be
read: unless a comment is carried to an argument that stood on the same line as the one that has moved.
-/

namespace SchemaTidy

open Trivia

theorem isMargin_afterComment {own rest : Text} (hown : IsLineTail own) (hrest : IsMargin rest) :
    IsMargin (afterComment own rest) := by
  have hbreak {rest : Text} (hrest : IsMargin rest) (hhead : rest.head?.any Text.isLineBreak = true) :
      IsMargin (own ++ rest) := by
    refine hown.append_break hrest ?_
    cases rest with
    | nil => cases hhead
    | cons d rest =>
        have hd : Text.isLineBreak d = true := by simpa using hhead
        simp [hd]
  unfold afterComment
  split
  · rename_i hsame
    rw [Bool.or_eq_true] at hsame
    rcases hsame with hempty | hhead
    · rwa [List.isEmpty_iff.mp hempty]
    · exact hbreak hrest hhead
  · refine hbreak ?_ rfl
    rwa [IsMargin, Margin.run_break _ (by decide)]

theorem isMargin_commentLines {sameLine : Text} {comments : List Text}
    (hsameLine : IsMarginPart sameLine) (hcomments : ∀ c ∈ comments, IsMarginPart c) :
    IsMargin (commentLines sameLine comments) := by
  have hlines : IsMarginPart (sameLine ++ comments.flatMap ('\n' :: ·)) := by
    induction comments generalizing sameLine with
    | nil => simpa using hsameLine
    | cons c comments ih =>
        have hline : IsMarginPart (sameLine ++ '\n' :: c) := by
          have hclosed := hsameLine.concat_break (show Text.isLineBreak '\n' = true by decide)
          rw [IsMargin] at hclosed
          rw [IsMarginPart, ← List.singleton_append, ← List.append_assoc, Margin.run_append, hclosed]
          exact hcomments c (by simp)
        have hrest := ih hline fun d hd => hcomments d (by simp [hd])
        simpa using hrest
  unfold commentLines
  simp only
  split
  · exact isMargin_nil
  · exact hlines.concat_break (by decide)

/-! ## Elements -/

theorem Chained.retouch {ts : List Token} (h : Chained ts) {f : Token → Token}
    (hf : ∀ t, (f t).spelling = t.spelling ∧ (IsMargin t.trivia → IsMargin (f t).trivia)) :
    Chained (ts.modifyHead f) := by
  cases ts with
  | nil => exact h
  | cons t ts =>
      obtain ⟨hword, htrivia, hcuts, hrest⟩ := h
      obtain ⟨hspelling, hmargin⟩ := hf t
      obtain ⟨hkind, htext⟩ := Prod.mk.inj hspelling
      refine ⟨?_, hmargin htrivia, ?_, hrest⟩
      · rwa [hkind]
      · rwa [hkind, htext]

theorem Nested.retouch {ts : List Token} (h : Nested ts) {f : Token → Token}
    (hf : ∀ t, (f t).spelling = t.spelling) : Nested (ts.modifyHead f) := by
  cases h with
  | nil => exact .nil
  | @cons t ts hopening hclosing hts =>
      obtain ⟨hkind, htext⟩ := Prod.mk.inj (hf t)
      refine .cons ?_ ?_ hts
      · simpa [Token.isOpening, Token.isOp, hkind, htext] using hopening
      · simpa [Token.isClosing, Token.isOp, hkind, htext] using hclosing
  | @group opening closing inner rest hbrackets hwords hinner hrest =>
      obtain ⟨hkind, htext⟩ := Prod.mk.inj (hf opening)
      refine .group ?_ hwords hinner hrest
      rwa [MatchingBrackets, hkind, htext]

theorem tokens_mapFirst (f : Token → Token) (i : Item) :
    (i.mapFirst f).tokens = i.tokens.modifyHead f := by
  cases i with
  | token t => rfl
  | group g =>
      rw [Item.mapFirst, tokens_group, tokens_group, Group.tokens_eq, Group.tokens_eq]
      rfl

theorem tokensOfItems_mapFirst (f : Token → Token) (i : Item) (is : List Item) :
    tokensOfItems (i.mapFirst f :: is) = (tokensOfItems (i :: is)).modifyHead f := by
  cases i with
  | token t => rfl
  | group g =>
      simp [Item.mapFirst, Group.tokens_eq]

namespace Element.Readable

variable {e : Element}

theorem leadingTrivia (h : e.Readable) : IsMargin e.leadingTrivia := by
  obtain ⟨items, comma⟩ := e
  obtain ⟨hchained, -, -⟩ := h
  cases items with
  | nil => exact isMargin_nil
  | cons i is =>
      cases i with
      | token t => exact hchained.2.1
      | group g =>
          rw [tokensOfItems_cons, tokens_group, Group.tokens_eq] at hchained
          exact hchained.2.1

theorem retouch (h : e.Readable) {trivia : Text} (htrivia : IsMargin trivia) :
    (e.mapFirst (·.withTrivia trivia)).Readable := by
  obtain ⟨items, comma⟩ := e
  cases items with
  | nil => exact h
  | cons i is =>
      obtain ⟨hchained, hnested, hcomma⟩ := h
      refine ⟨?_, ?_, hcomma⟩
      · show Chained (tokensOfItems (i.mapFirst _ :: is))
        rw [tokensOfItems_mapFirst]
        exact hchained.retouch fun t => ⟨rfl, fun _ => htrivia⟩
      · refine List.forall_mem_cons.mpr ⟨?_, fun j hj => hnested j (List.mem_cons_of_mem i hj)⟩
        rw [tokens_mapFirst]
        exact (hnested i List.mem_cons_self).retouch fun t => rfl

end Element.Readable

theorem readable_punctuate (trailing : Bool) {es : List Element} (h : ∀ e ∈ es, e.Readable) :
    (∀ e ∈ punctuate trailing es, e.Readable) ∧ Separated (punctuate trailing es) := by
  have hcomma {e : Element} (he : e.Readable) :
      Element.Readable { e with comma := some (e.comma.getD (.ofOp ",")) } := by
    refine ⟨he.chained, he.nested, fun t ht => ?_⟩
    obtain rfl := Option.some.inj ht
    cases hcomma : e.comma with
    | none => exact ⟨by decide, isMargin_nil⟩
    | some comma => exact he.comma comma hcomma
  fun_induction punctuate trailing es with
  | case1 => exact ⟨by simp, trivial⟩
  | case2 e =>
      have he := h e (by simp)
      refine ⟨List.forall_mem_singleton.mpr ?_, fun _ => rfl, trivial⟩
      cases trailing with
      | true => exact hcomma he
      | false => exact ⟨he.chained, he.nested, by simp⟩
  | case3 e es hne ih =>
      obtain ⟨hes, hseparated⟩ := ih fun e' he' => h e' (by simp [he'])
      refine ⟨List.forall_mem_cons.mpr ⟨hcomma (h e (by simp)), hes⟩, ?_, hseparated⟩
      simp

/-! ## The arguments are split -/

structure MovedKeyword.Readable (k : MovedKeyword) : Prop where
  name : Lexeme.Cuts .name k.name []
  chained : Chained (tokensOfItems k.value)
  nested : ∀ i ∈ k.value, Nested i.tokens
  comments : ∀ c ∈ k.comments, IsMarginPart c
  trailing : ∀ c, k.trailing = some c → IsComment c

/-- A carried comment goes in front of a line break. -/
def CarriesToBreak (carried : List (Text × Text)) : Prop :=
  ∀ x ∈ carried, x.1 = [] ∨ x.2.any Text.isLineBreak = true

theorem isMarginPart_keywordComments {e : Element} (he : e.Readable) {rest : Text}
    (hrest : IsMargin rest) : ∀ c ∈ keywordComments rest e, IsMarginPart c := by
  intro c hc
  simp only [keywordComments, List.mem_append] at hc
  rcases hc with (hc | hc) | hc
  · exact hrest.ownLineComments c hc
  · split at hc
    · rename_i i eq is hitems
      have hchained := he.chained
      rw [hitems, tokensOfItems_cons] at hchained
      have htrivia : IsMargin eq.trivia := hchained.right.2.1
      exact htrivia.comments c hc
    · cases hc
  · split at hc
    · rename_i comma hcomma
      exact (he.comma comma hcomma).2.comments c hc
    · cases hc

theorem MovedKeyword.readable {e : Element} (he : e.Readable) {name : Text}
    (hname : e.keyword? = some name) {comments : List Text} {trailing : Option Text}
    (hcomments : ∀ c ∈ comments, IsMarginPart c) (htrailing : ∀ c, trailing = some c → IsComment c) :
    MovedKeyword.Readable { name, value := e.items.drop 2, comments, trailing } := by
  obtain ⟨key, eq, value, values, hitems, hkey, -, rfl⟩ := Element.exists_of_keyword? hname
  obtain ⟨hchained, hnested, -⟩ := he
  rw [hitems] at hchained hnested
  have hkind : key.kind = .name := by
    simp only [Token.isIdentifier, Bool.and_eq_true, beq_iff_eq] at hkey
    exact hkey.1
  obtain ⟨-, -, hcuts, -, -, -, hvalue⟩ := hchained
  have hcuts := (hcuts [] stops_nil).alone
  rw [hkind] at hcuts
  refine ⟨hcuts, ?_, ?_, hcomments, htrailing⟩
  · rw [hitems]
    exact hvalue
  · rw [hitems]
    exact fun i hi => hnested i (by simp_all)

theorem readable_partitionFrom {moves : Element → Bool} {closing : Text} {carry : Option Text}
    {es : List Element} (hmoves : ∀ e ∈ es, moves e = true → e.keyword?.isSome = true)
    (hes : ∀ e ∈ es, e.Readable) (hclosing : IsMargin closing)
    (hcarry : ∀ c, carry = some c → IsLineTail c)
    (hcarried : CarriesToBreak (carriedFrom moves carry es)) :
    let p := partitionFrom moves closing carry carry.isSome es
    (∀ e ∈ p.kept, e.Readable) ∧ (∀ k ∈ p.moved, k.Readable) ∧ IsLineTail p.owed := by
  induction es generalizing carry with
  | nil =>
      refine ⟨by simp [partitionFrom], by simp [partitionFrom], ?_⟩
      cases carry with
      | none => exact hclosing.splitSameLine.1
      | some c => exact hcarry c rfl
  | cons e es ih =>
      have he := hes e (by simp)
      obtain ⟨hown, hrest⟩ := he.leadingTrivia.splitSameLine
      have hmoves' : ∀ e ∈ es, moves e = true → e.keyword?.isSome = true :=
        fun e he => hmoves e (by simp [he])
      have hes' : ∀ e ∈ es, e.Readable := fun e he => hes e (by simp [he])
      rw [carriedFrom] at hcarried
      cases hm : moves e with
      | true =>
          simp only [hm, if_true] at hcarried
          obtain ⟨name, hname⟩ := Option.isSome_iff_exists.mp (hmoves e (by simp) hm)
          have htrailing : ∀ c, sameLineComment? (splitSameLine (triviaAfter closing es)).1 = some c →
              IsComment c := fun c hc => isComment_sameLine c (Option.mem_toList.mpr hc)
          have hkeyword := MovedKeyword.readable he hname (isMarginPart_keywordComments he hrest)
            htrailing
          have htail : ∀ c, some (carry.getD (splitSameLine e.leadingTrivia).1) = some c →
              IsLineTail c := by
            rintro c hc
            obtain rfl := Option.some.inj hc
            cases carry with
            | none => exact hown
            | some c => exact hcarry c rfl
          obtain ⟨hkept, hmoved, howed⟩ := ih hmoves' hes' htail hcarried
          rw [partitionFrom_moves closing carry es hm, hname]
          exact ⟨hkept, List.forall_mem_cons.mpr ⟨hkeyword, hmoved⟩, howed⟩
      | false =>
          simp only [hm, Bool.false_eq_true, if_false] at hcarried
          obtain ⟨hhead, htail⟩ := List.forall_mem_append.mp hcarried
          obtain ⟨hkept, hmoved, howed⟩ := ih hmoves' hes' (by simp) htail
          rw [partitionFrom_stays closing carry es hm]
          refine ⟨List.forall_mem_cons.mpr ⟨he.retouch ?_, hkept⟩, hmoved, howed⟩
          cases carry with
          | none => exact he.leadingTrivia
          | some c =>
              rcases hhead (c, (splitSameLine e.leadingTrivia).2) (by simp) with hnil | hbreak
              · obtain rfl : c = [] := hnil
                exact hrest
              · exact (hcarry c rfl).append_break hrest hbreak

/-! ## The keywords go into the mapping -/

theorem chained_key {key op : Token} {value : List Token} (hkey : Lexeme.Cuts key.kind key.text [])
    (hword : key.kind.isWord = true) (htrivia : IsMargin key.trivia)
    (hends : ∀ x, Lexeme.Ends key.kind (op.text ++ x)) (hop : op.kind = .op)
    (hopTrivia : op.trivia = []) (hopCuts : Lexeme.Cuts .op op.text []) (hvalue : Chained value)
    (hstops : ∀ y, Stops y → Stops (spell value ++ y)) : Chained (key :: op :: value) := by
  refine ⟨hword, htrivia, fun y _ => ?_, ?_, ?_, fun y hy => ?_, hvalue⟩
  · rw [spell_cons, Token.source, hopTrivia, List.nil_append, List.append_assoc]
    exact hkey.before (hends _)
  · rw [hop]
    rfl
  · rw [hopTrivia]
    exact isMargin_nil
  · rw [hop]
    exact hopCuts.before ((hstops y hy).ends rfl)

theorem cuts_equals : Lexeme.Cuts .op ['='] [] := ⟨by simp, '=', [], rfl, fun _ _ => rfl⟩

theorem cuts_colon : Lexeme.Cuts .op [':'] [] := ⟨by simp, ':', [], rfl, fun _ _ => rfl⟩

theorem ends_equals (x : Text) : Lexeme.Ends .name (['='] ++ x) := by
  intro c hc
  obtain rfl : '=' = c := by simpa using hc
  exact ⟨by decide, by decide, by decide⟩

theorem ends_colon (x : Text) : Lexeme.Ends .string ([':'] ++ x) :=
  (stops_cons (by decide) x).ends rfl

theorem cuts_quoted {name : Text} (h : Lexeme.Cuts .name name []) :
    Lexeme.Cuts .string ('"' :: name ++ ['"']) [] := by
  have hbody : ∀ {cs : Text}, (∀ c ∈ cs, Text.isWord c = true) → IsBody '"' cs := by
    intro cs hcs
    induction cs with
    | nil => exact .nil
    | cons c cs ih =>
        have hc := hcs c (by simp)
        have hne {d : Char} (hd : Text.isWord d = false) : c ≠ d := by
          rintro rfl
          rw [hc] at hd
          cases hd
        have hbreak : Text.isLineBreak c = false := by
          simp [Text.isLineBreak, hne (d := '\n') (by decide), hne (d := '\r') (by decide)]
        exact .char (hne (by decide)) (hne (by decide)) hbreak (ih fun d hd => hcs d (by simp [hd]))
  exact cuts_of_isBody (by decide : [] ∈ plainMarks) rfl (hbody (Lexeme.isWord_of_cuts h))

/-- A token behind a blank, unless a comment stands before it. -/
def Token.spaced (t : Token) : Token := if t.hasComment then t else { t with trivia := [' '] }

theorem Token.spelling_spaced (t : Token) : t.spaced.spelling = t.spelling := by
  unfold spaced
  split <;> rfl

theorem Token.isMargin_spaced {t : Token} (h : IsMargin t.trivia) : IsMargin t.spaced.trivia := by
  unfold spaced
  split
  · exact h
  · rfl

theorem Token.trivia_spaced_ne_nil (t : Token) : t.spaced.trivia ≠ [] := by
  unfold spaced
  split
  · rename_i hcomment
    intro hnil
    simp [hasComment, hnil] at hcomment
  · simp

namespace MovedKeyword

/-- The value of the entry that is made of a keyword. -/
def spacedValue (k : MovedKeyword) : List Item := k.value.modifyHead (Item.mapFirst Token.spaced)

theorem tokens_spacedValue (k : MovedKeyword) :
    tokensOfItems k.spacedValue = (tokensOfItems k.value).modifyHead Token.spaced := by
  unfold spacedValue
  cases k.value with
  | nil => rfl
  | cons i is => exact tokensOfItems_mapFirst Token.spaced i is

namespace Readable

variable {k : MovedKeyword} (h : k.Readable)

include h

theorem chained_spacedValue : Chained (tokensOfItems k.spacedValue) := by
  rw [tokens_spacedValue]
  exact h.chained.retouch fun t => ⟨t.spelling_spaced, Token.isMargin_spaced⟩

theorem nested_spacedValue : ∀ i ∈ k.spacedValue, Nested i.tokens := by
  have hitems := h.nested
  unfold spacedValue
  cases hvalue : k.value with
  | nil => simp
  | cons i is =>
      rw [hvalue] at hitems
      refine List.forall_mem_cons.mpr ⟨?_, fun j hj => hitems j (List.mem_cons_of_mem i hj)⟩
      rw [tokens_mapFirst]
      exact (hitems i List.mem_cons_self).retouch Token.spelling_spaced

theorem stops_spacedValue {y : Text} (hy : Stops y) :
    Stops (spell (tokensOfItems k.spacedValue) ++ y) := by
  have hchained := h.chained_spacedValue
  rw [tokens_spacedValue] at hchained ⊢
  cases htokens : tokensOfItems k.value with
  | nil => exact hy
  | cons t ts =>
      rw [htokens] at hchained
      have hmargin : IsMargin t.spaced.trivia := hchained.2.1
      rw [List.modifyHead_cons, spell_cons, Token.source, List.append_assoc, List.append_assoc]
      exact hmargin.stops_of_ne_nil t.trivia_spaced_ne_nil _

theorem entry {key op : Token} (hkey : key.isOpening = false ∧ key.isClosing = false)
    (hop : op.isOpening = false ∧ op.isClosing = false)
    (hchained : Chained (key :: op :: tokensOfItems k.spacedValue)) :
    (Element.ofItems (.token key :: .token op :: k.spacedValue)).Readable := by
  refine ⟨hchained, ?_, by simp [Element.ofItems]⟩
  refine List.forall_mem_cons.mpr ⟨.cons hkey.1 hkey.2 .nil, ?_⟩
  exact List.forall_mem_cons.mpr ⟨.cons hop.1 hop.2 .nil, h.nested_spacedValue⟩

end Readable

end MovedKeyword

theorem Destination.entry_dictCall (k : MovedKeyword) (trivia : Text) :
    Destination.dictCall.entry k trivia = Element.ofItems
      (.token ((Token.ofName k.name).withTrivia trivia) :: .token (.ofOp "=") :: k.spacedValue) := by
  obtain ⟨name, value, comments, trailing⟩ := k
  cases value <;> rfl

theorem Destination.entry_of_ne_dictCall {d : Destination} (hd : d ≠ .dictCall) (k : MovedKeyword)
    (trivia : Text) : d.entry k trivia = Element.ofItems
      (.token ((Token.synthetic .string ('"' :: k.name ++ ['"'])).withTrivia trivia) ::
        .token (.ofOp ":") :: k.spacedValue) := by
  obtain ⟨name, value, comments, trailing⟩ := k
  cases d with
  | dictCall => exact absurd rfl hd
  | _ => cases value <;> rfl

theorem Destination.readable_entry (d : Destination) {k : MovedKeyword} (hk : k.Readable)
    {trivia : Text} (htrivia : IsMargin trivia) : (d.entry k trivia).Readable := by
  by_cases hd : d = .dictCall
  · subst hd
    rw [entry_dictCall]
    refine hk.entry ?_ (by decide) ?_
    · simp [Token.isOpening, Token.isClosing, Token.isOp, Token.ofName, Token.synthetic,
        Token.withTrivia]
    · exact chained_key hk.name rfl htrivia ends_equals rfl rfl cuts_equals hk.chained_spacedValue
        fun _ => hk.stops_spacedValue
  · rw [entry_of_ne_dictCall hd]
    refine hk.entry ?_ (by decide) ?_
    · simp [Token.isOpening, Token.isClosing, Token.isOp, Token.synthetic, Token.withTrivia]
    · exact chained_key (cuts_quoted hk.name) rfl htrivia ends_colon rfl rfl cuts_colon
        hk.chained_spacedValue fun _ => hk.stops_spacedValue

namespace Merge

structure Readable (m : Merge) : Prop where
  entries : ∀ e ∈ m.entries, e.Readable
  owed : IsLineTail m.owed

theorem Readable.push {m : Merge} (h : m.Readable) {k : MovedKeyword} (hk : k.Readable)
    (d : Destination) (destination : Text) (site : Site) :
    (m.push d destination site k).Readable := by
  constructor
  · refine List.forall_mem_append.mpr ⟨fun e he => h.entries e (List.mem_filter.mp he).1, ?_⟩
    exact List.forall_mem_singleton.mpr
      (d.readable_entry hk (isMargin_commentLines h.owed.isMarginPart hk.comments))
  · rw [owed_push]
    cases htrailing : k.trailing with
    | none => exact .inl rfl
    | some comment =>
        refine .inr ?_
        rw [Option.elim_some, Margin.run_indent (by decide), Margin.run_indent (by decide)]
        exact (hk.trailing comment htrailing).run

theorem Readable.foldl {m : Merge} (h : m.Readable) {moved : List MovedKeyword}
    (hmoved : ∀ k ∈ moved, k.Readable) (d : Destination) (destination : Text) (site : Site) :
    (moved.foldl (Merge.push d destination site) m).Readable := by
  induction moved generalizing m with
  | nil => exact h
  | cons k moved ih =>
      exact ih (h.push (hmoved k (by simp)) d destination site) fun k hk => hmoved k (by simp [hk])

end Merge

theorem Group.Readable.punctuated {g : Group} (hbrackets : MatchingBrackets g.opening g.closing)
    (hopening : IsMargin g.opening.trivia) (hclosing : IsMargin g.closing.trivia)
    (helements : ∀ e ∈ g.elements, e.Readable) (trailing : Bool) :
    (g.punctuated trailing).Readable := by
  obtain ⟨hreadable, hseparated⟩ := readable_punctuate trailing helements
  exact ⟨hbrackets, hopening, hclosing, hreadable, hseparated⟩

theorem readable_mergeInto (d : Destination) (destination : Text) (site : Site)
    {moved : List MovedKeyword} (hmoved : ∀ k ∈ moved, k.Readable) {mapping : Group}
    (h : mapping.Readable) : (mergeInto d destination site moved mapping).1.Readable := by
  obtain ⟨hsame, hrest⟩ := h.closing.splitSameLine
  have hstart : Merge.Readable ⟨mapping.elements, (splitSameLine mapping.closing.trivia).1, []⟩ :=
    ⟨h.elements, hsame⟩
  have hmerged := hstart.foldl hmoved d destination site
  unfold mergeInto
  apply Group.Readable.punctuated
  · exact h.brackets
  · exact h.opening
  · exact isMargin_afterComment hmerged.owed hrest
  · exact hmerged.entries

/-! ## A call -/

theorem readable_setMapping {d : Destination} {e : Element} (he : e.Readable) {mapping : Group}
    (h : d.mapping? e = some mapping) {new : Group} (hnew : new.Readable) :
    (d.setMapping e new).Readable := by
  obtain ⟨front, back, hitems, hset⟩ := Destination.items_setMapping h
  obtain ⟨hchained, hnested, hcomma⟩ := he
  rw [hitems, tokensOfItems_append, tokensOfItems_cons] at hchained
  rw [hitems] at hnested
  refine ⟨?_, ?_, hcomma⟩
  · have hbehind := hnew.chained_append hchained.right.right
    rw [hset, tokensOfItems_append, tokensOfItems_cons, tokens_group]
    rw [Group.tokens_eq] at hbehind ⊢
    exact hchained.left.append_lone hnew.brackets.isLone.1 hbehind
  · rw [hset]
    intro i hi
    rcases List.mem_append.mp hi with hi | hi
    · exact hnested i (List.mem_append_left _ hi)
    · rcases List.mem_cons.mp hi with rfl | hi
      · simpa using hnew.nested
      · exact hnested i (List.mem_append_right _ (List.mem_cons_of_mem _ hi))

theorem readable_emptyDisplay : (Group.ofElements .brace []).Readable where
  brackets := ⟨rfl, rfl, '{', by decide, rfl, rfl⟩
  opening := isMargin_nil
  closing := isMargin_nil
  elements := by simp [Group.ofElements]
  separated := trivial

theorem readable_ofKeyword {name : Text} (hname : Lexeme.Cuts .name name []) {trivia : Text}
    (htrivia : IsMargin trivia) :
    ((Element.ofKeyword name [.group (.ofElements .brace [])]).mapFirst
      (·.withTrivia trivia)).Readable := by
  have hempty := readable_emptyDisplay
  have hchained : Chained (tokensOfItems [.group (.ofElements .brace [])]) := by
    simpa using hempty.chained
  have hstops (y : Text) (_ : Stops y) :
      Stops (spell (tokensOfItems [.group (.ofElements .brace [])]) ++ y) :=
    stops_cons (by decide) _
  refine Element.Readable.retouch ⟨?_, ?_, by simp [Element.ofKeyword, Element.ofItems]⟩ htrivia
  · exact chained_key hname rfl isMargin_nil ends_equals rfl rfl cuts_equals hchained hstops
  · intro i hi
    simp only [Element.ofKeyword, Element.ofItems, List.mem_cons, List.not_mem_nil, or_false] at hi
    rcases hi with rfl | rfl | rfl
    · exact .cons (by simp [Token.isOpening, Token.isOp, Token.ofName, Token.synthetic])
        (by simp [Token.isClosing, Token.isOp, Token.ofName, Token.synthetic]) .nil
    · exact .cons (by decide) (by decide) .nil
    · simpa using hempty.nested

namespace MigrationRule

variable (r : MigrationRule)

theorem readable_staying (hdestination : Lexeme.Cuts .name r.destination []) (d : Destination)
    (site : Site) {g : Group} (h : g.Readable)
    (hcarried : CarriesToBreak (carriedFrom (r.movesElement site) none g.elements)) :
    (∀ e ∈ r.staying d site g, e.Readable) ∧ (∀ k ∈ r.moving site g, k.Readable) ∧
      IsMargin (r.closingTrivia d site g) := by
  obtain ⟨hkept, hmoved, howed⟩ := @readable_partitionFrom (r.movesElement site) g.closing.trivia none
    g.elements (fun e _ he => Option.isSome_of_any he) h.elements h.closing (by simp) hcarried
  refine ⟨?_, hmoved, ?_⟩
  · unfold staying
    simp only
    split
    · refine List.forall_mem_append.mpr ⟨hkept, List.forall_mem_singleton.mpr ?_⟩
      exact readable_ofKeyword hdestination (isMargin_afterComment howed isMargin_nil)
    · exact hkept
  · unfold closingTrivia
    simp only
    split
    · exact h.closing.splitSameLine.2
    · exact isMargin_afterComment howed h.closing.splitSameLine.2

/-- The mapping of an argument that stays is new, or it was there. -/
theorem mapping_staying {d : Destination} {site : Site} {g : Group} {e : Element}
    (he : e ∈ r.staying d site g) {mapping : Group} (h : d.mapping? e = some mapping) :
    mapping = .ofElements .brace [] ∨ mapping ∈ g.groups := by
  have hkept {e : Element} (he : e ∈ (partitionFrom (r.movesElement site) g.closing.trivia none false
      g.elements).kept) (h : d.mapping? e = some mapping) : mapping ∈ g.groups := by
    obtain ⟨e₀, he₀, hretouched⟩ := exists_of_forall₂_mem (kept_partitionFrom _ _ _ _ _) he
    rw [d.mapping?_retouched hretouched] at h
    obtain ⟨front, back, hitems, -⟩ := Destination.items_setMapping h
    obtain ⟨opening, elements, closing, kind, sortable⟩ := g
    have hmem : mapping ∈ groupsOfElements elements := by
      refine mem_groupsOfElements.mpr ⟨e₀, (List.mem_filter.mp he₀).1, ?_⟩
      refine mem_groupsOfItems.mpr ⟨.group mapping, by simp [hitems], ?_⟩
      obtain ⟨opening, elements, closing, kind, sortable⟩ := mapping
      exact List.mem_cons_self
    exact List.mem_cons_of_mem _ hmem
  unfold staying at he
  simp only at he
  split at he
  · rename_i hcreate
    rcases List.mem_append.mp he with he | he
    · exact .inr (hkept he h)
    · rw [List.mem_singleton] at he
      subst he hcreate
      exact .inl (Option.some.inj h).symm
  · exact .inr (hkept he h)

/-- A migration keeps a call readable. -/
theorem readable_move (hname : isKeyword r.destination = false)
    (hdestination : Lexeme.Cuts .name r.destination []) {d : Destination} (site : Site) {g : Group}
    (hclass : classify g r.destination = d) (hforeign : d ≠ .foreign)
    (hgroups : ∀ h ∈ g.groups, h.Readable)
    (hcarried : CarriesToBreak (carriedFrom (r.movesElement site) none g.elements)) :
    ∃ g' outcome, r.move d site g = some (g', outcome) ∧ g'.Readable ∧ g'.opening = g.opening := by
  have hg : g.Readable := hgroups g (by cases g; exact List.mem_cons_self)
  obtain ⟨pre, e, post, mapping, outcome, hstaying, -, -, hmapping, hmove, -⟩ :=
    r.move_eq hname site hclass hforeign
  obtain ⟨hes, hmoving, hclosing⟩ := r.readable_staying hdestination d site hg hcarried
  have hmember : e ∈ r.staying d site g := by simp [hstaying]
  have hmappingReadable : mapping.Readable := by
    rcases r.mapping_staying hmember hmapping with rfl | hmem
    · exact readable_emptyDisplay
    · exact hgroups mapping hmem
  have hmerged := readable_mergeInto d r.destination site hmoving hmappingReadable
  refine ⟨_, outcome, hmove, ?_, rfl⟩
  apply Group.Readable.punctuated
  · exact hg.brackets
  · exact hg.opening
  · exact hclosing
  · rw [hstaying] at hes
    obtain ⟨hpre, hrest⟩ := List.forall_mem_append.mp hes
    obtain ⟨he, hpost⟩ := List.forall_mem_cons.mp hrest
    refine List.forall_mem_append.mpr ⟨hpre, List.forall_mem_cons.mpr ⟨?_, hpost⟩⟩
    exact readable_setMapping he hmapping hmerged

theorem readable_migrate (hname : isKeyword r.destination = false)
    (hdestination : Lexeme.Cuts .name r.destination []) (site : Site) {g : Group}
    (hgroups : ∀ h ∈ g.groups, h.Readable) (hcarried : CarriesToBreak (r.carried site g)) :
    ∃ g' outcome, r.migrate site g = some (g', outcome) ∧ g'.Readable ∧ g'.opening = g.opening := by
  rcases r.migrate_target site g with ⟨d, htarget, hclass, hforeign, hmigrate⟩ |
    ⟨-, outcome, hmigrate⟩
  · rw [carried, htarget] at hcarried
    obtain ⟨g', outcome, hmove, hg'⟩ := r.readable_move hname hdestination site hclass hforeign
      hgroups hcarried
    exact ⟨g', outcome, hmigrate.trans hmove, hg'⟩
  · exact ⟨g, outcome, hmigrate, hgroups g (by cases g; exact List.mem_cons_self), rfl⟩

end MigrationRule

end SchemaTidy
