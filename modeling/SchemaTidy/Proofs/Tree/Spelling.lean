import SchemaTidy.Proofs.Token.Spelling
import SchemaTidy.Tree.Parser

/-!
# Trees spell their source

Comments that move onto a closing marker stay in their place in the text, and a parse state holds the
tokens it has read in order, whatever blocks and brackets are open. So the tree of a source spells
the source, and printing that preserves the source gives it back.
-/

namespace SchemaTidy

theorem flatten_isPrefix {α : Type} {ls ms : List (List α)} (h : ls <+: ms) :
    ls.flatten <+: ms.flatten := by
  obtain ⟨rest, rfl⟩ := h
  exact ⟨rest.flatten, by simp⟩

theorem trailer_isPrefix (column : Nat) (trivia : Text) : trailer column trivia <+: trivia := by
  have hrev : ∀ ls : List Text, (ls.reverse.dropWhile isBlankLine).reverse <+: ls := by
    intro ls
    rw [← List.reverse_suffix, List.reverse_reverse]
    exact List.dropWhile_suffix _
  have hsplit := flatten_isPrefix ((hrev _).trans (List.takeWhile_prefix
    (fun line => isBlankLine line || isCommentLine column line)
    (l := Text.splitAfter (· == '\n') trivia)))
  rwa [Text.flatten_splitAfter] at hsplit

theorem trailer_append (column : Nat) (trivia : Text) :
    trailer column trivia ++ trivia.drop (trailer column trivia).length = trivia :=
  List.prefix_iff_eq_append.mp (trailer_isPrefix column trivia)

theorem spell_fillDedents {run : List (Nat × Token)} (trivia : Text)
    (hrun : ∀ r ∈ run, r.2.source = []) :
    spell (fillDedents run trivia).1 ++ (fillDedents run trivia).2 = trivia := by
  induction run generalizing trivia with
  | nil => rfl
  | cons r run ih =>
      obtain ⟨column, t⟩ := r
      have ht : t.trivia = [] ∧ t.text = [] := by
        simpa [Token.source] using hrun (column, t) (by simp)
      have htail := ih (trivia.drop (trailer column trivia).length)
        fun r hr => hrun r (List.mem_cons_of_mem _ hr)
      have hhead : Token.source (if (trailer column trivia).isEmpty then t
          else { t with trivia := trailer column trivia }) = trailer column trivia := by
        split
        · simp_all [Token.source]
        · simp [Token.source, ht.2]
      simp only [fillDedents, spell_cons, hhead, List.append_assoc, htail]
      exact trailer_append column trivia

theorem spell_attachTrailersFrom (columns : List Nat) {run : List (Nat × Token)} {ts : List Token}
    (hrun : ∀ r ∈ run, r.2.source = []) (hts : ∀ t ∈ ts, t.kind = .dedent → t.source = []) :
    spell (attachTrailersFrom columns run ts) = spell (run.map Prod.snd) ++ spell ts := by
  induction ts generalizing columns run with
  | nil => simp [attachTrailersFrom]
  | cons t ts ih =>
      have htail : ∀ u ∈ ts, u.kind = .dedent → u.source = [] :=
        fun u hu => hts u (List.mem_cons_of_mem _ hu)
      rw [attachTrailersFrom]
      split
      · rename_i hkind
        have ht : t.source = [] := hts t (by simp) (by simpa using hkind)
        rw [ih _ _ htail]
        · simp
        · intro r hr
          rcases List.mem_append.mp hr with hr | hr
          · exact hrun r hr
          · rw [List.mem_singleton] at hr
            rw [hr]
            exact ht
      · have hfill := spell_fillDedents t.trivia hrun
        have hbare : spell (run.map Prod.snd) = [] := by
          apply Cursor.spell_eq_nil
          intro u hu
          obtain ⟨r, hr, rfl⟩ := List.mem_map.mp hu
          exact hrun r hr
        have hrest (columns : List Nat) :
            spell (attachTrailersFrom columns [] ts) = spell ts := by
          have hnone : ∀ r ∈ ([] : List (Nat × Token)), r.2.source = [] := by simp
          simpa using ih columns hnone htail
        simp only [spell_append, spell_cons, hrest, hbare, Token.source]
        simp [← List.append_assoc, hfill]

theorem spell_attachTrailers {ts : List Token} (hts : ∀ t ∈ ts, t.kind = .dedent → t.source = []) :
    spell (attachTrailers ts) = spell ts := by
  rw [attachTrailers, spell_attachTrailersFrom [] (by simp) hts]
  rfl

theorem map_kind_fillDedents (run : List (Nat × Token)) (trivia : Text) :
    (fillDedents run trivia).1.map Token.kind = run.map (·.2.kind) := by
  induction run generalizing trivia with
  | nil => rfl
  | cons r run ih =>
      simp only [fillDedents, List.map_cons, ih]
      split <;> rfl

theorem map_kind_attachTrailersFrom (columns : List Nat) (run : List (Nat × Token))
    (ts : List Token) : (attachTrailersFrom columns run ts).map Token.kind =
      run.map (·.2.kind) ++ ts.map Token.kind := by
  induction ts generalizing columns run with
  | nil => simp [attachTrailersFrom]
  | cons t ts ih =>
      rw [attachTrailersFrom]
      split
      · simp [ih]
      · simp [ih, map_kind_fillDedents]

/-! ## Parse states -/

@[simp] theorem tokens_token (t : Token) : (Item.token t).tokens = [t] := by
  simp [Item.tokens]

@[simp] theorem tokens_group (g : Group) : (Item.group g).tokens = g.tokens := by
  simp [Item.tokens]

@[simp] theorem tokensOfItems_nil : tokensOfItems [] = [] := by
  simp [tokensOfItems]

@[simp] theorem tokensOfItems_cons (i : Item) (is : List Item) :
    tokensOfItems (i :: is) = i.tokens ++ tokensOfItems is := by
  simp [tokensOfItems]

def OpenGroup.tokens (g : OpenGroup) : List Token :=
  g.opening :: (tokensOfElements g.elements ++ tokensOfItems g.current)

/-- The tokens of an open block and of the statements before it, in order. -/
def OpenBlock.tokens (b : OpenBlock) : List Token :=
  tokensOfBody b.before ++ tokensOfItems b.header ++ [b.newline, b.indent]

namespace ParseState

def tokens (s : ParseState) : List Token :=
  s.blocks.reverse.flatMap OpenBlock.tokens ++ tokensOfBody s.body ++
    (s.pending.elim [] fun p => tokensOfItems p.1 ++ [p.2]) ++ tokensOfItems s.line ++
    s.groups.reverse.flatMap OpenGroup.tokens

/-- A line waits for the token behind it only while no further line has begun. -/
def WaitsAlone (s : ParseState) : Prop := s.pending.isSome → s.line = [] ∧ s.groups = []

end ParseState

namespace OpenGroup

@[simp] theorem tokens_ofToken (t : Token) (previous : Option Item) :
    (ofToken t previous).tokens = [t] := by
  simp [ofToken, tokens, tokensOfElements]

@[simp] theorem tokens_pushGroup (g : OpenGroup) (inner : Group) :
    (g.pushGroup inner).tokens = g.tokens ++ inner.tokens := by
  simp [pushGroup, tokens]

@[simp] theorem tokens_pushToken (g : OpenGroup) (t : Token) :
    (g.pushToken t).tokens = g.tokens ++ [t] := by
  unfold pushToken
  simp only
  split
  · simp [tokens]
  split
  · simp [tokens]
  split <;> simp [tokens]

@[simp] theorem tokens_pushComma (g : OpenGroup) (t : Token) :
    (g.pushComma t).tokens = g.tokens ++ [t] := by
  simp [pushComma, tokens, tokensOfElements, Element.tokens]

@[simp] theorem tokens_close (g : OpenGroup) (t : Token) :
    (g.close t).tokens = g.tokens ++ [t] := by
  unfold close
  simp only [Group.tokens, tokens]
  split
  · simp_all
  · simp [tokensOfElements, Element.tokens]

end OpenGroup

theorem tokensOfItems_relabelHeader (header : List Item) :
    tokensOfItems (relabelHeader header) = tokensOfItems header := by
  unfold relabelHeader
  split
  · split
    · rename_i g _ _
      cases g
      simp [Group.tokens]
    · rfl
  · rfl

theorem tokens_compoundOf {header : List Item} {newline : Token} {block : Block} {s : Statement}
    (h : compoundOf header newline block = .ok s) :
    s.tokens = tokensOfItems header ++ newline :: block.tokens := by
  unfold compoundOf at h
  split at h
  · split at h
    · split at h
      · cases h
        simp [Statement.tokens]
      · cases h
    · cases h
      simp [Statement.tokens, tokensOfItems_relabelHeader]
  · cases h
    simp [Statement.tokens]

namespace ParseState

theorem feedGroup_tokens {s s' : ParseState} {g : OpenGroup} {outer : List OpenGroup} {t : Token}
    (hs : s.WaitsAlone) (hg : s.groups = g :: outer) (h : s.feedGroup g outer t = .ok s') :
    s'.tokens = s.tokens ++ [t] ∧ s'.WaitsAlone := by
  have hpending : s.pending = none := by
    cases hp : s.pending with
    | none => rfl
    | some p =>
        have hempty := (hs (by simp [hp])).2
        simp [hg] at hempty
  unfold feedGroup at h
  split at h
  · split at h
    · cases h
      simp [tokens, pushItem, hg, hpending, WaitsAlone]
    · cases h
      simp [tokens, hg, hpending, WaitsAlone]
  split at h
  · cases h
  split at h
  · split at h
    · cases h
    · cases h
      simp [tokens, hg, hpending, WaitsAlone]
  split at h
  · cases h
    simp [tokens, hg, hpending, WaitsAlone]
  · cases h
    simp [tokens, hg, hpending, WaitsAlone]

/-- Deciding about the pending line leaves nothing pending, and the token after the line is read
exactly when it opens a block. -/
theorem settle_tokens {s s' : ParseState} {t : Token} {used : Bool} (hs : s.WaitsAlone)
    (hg : s.groups = []) (h : s.settle t = .ok (s', used)) :
    s'.tokens = s.tokens ++ (if used then [t] else []) ∧ s'.pending = none ∧ s'.groups = [] := by
  unfold settle at h
  split at h
  · rename_i hp
    cases h
    simp [hp, hg]
  · rename_i items newline hp
    obtain ⟨hline, -⟩ := hs (by simp [hp])
    simp only at h
    split at h
    · split at h
      · cases h
        simp [tokens, hg, hp, hline, OpenBlock.tokens, tokensOfBody]
      · cases h
    split at h
    · cases h
    · cases h
      simp [tokens, hg, hp, hline, tokensOfBody, Statement.tokens, Line.tokens]

theorem endLine_tokens {s s' : ParseState} {t : Token} (hp : s.pending = none)
    (hg : s.groups = []) (h : s.endLine t = .ok s') :
    s'.tokens = s.tokens ++ [t] ∧ s'.WaitsAlone := by
  unfold endLine at h
  split at h
  · cases h
  · split at h
    · cases h
    · cases h
      simp [tokens, hp, hg, WaitsAlone]
  · cases h
    simp [tokens, hp, hg, WaitsAlone]

theorem endBlock_tokens {s s' : ParseState} {t : Token} (hp : s.pending = none)
    (hline : s.line = []) (hg : s.groups = []) (h : s.endBlock t = .ok s') :
    s'.tokens = s.tokens ++ [t] ∧ s'.WaitsAlone := by
  unfold endBlock at h
  split at h
  · cases h
  · rename_i b outer hb
    split at h
    · cases h
    · rename_i statement hstatement
      cases h
      simp [tokens, hp, hg, hline, hb, WaitsAlone, tokensOfBody, tokens_compoundOf hstatement,
        OpenBlock.tokens, Block.tokens]

/-- What is known after a token has been read: a state or the module holds it as the last one. Only
the end marker gives the module. -/
def Reads (s : ParseState) (t : Token) : ParseState ⊕ Module → Prop
  | .inl s' => s'.tokens = s.tokens ++ [t] ∧ s'.WaitsAlone
  | .inr m => m.tokens = s.tokens ++ [t] ∧ t.kind = .endMarker

theorem feedLine_reads {s : ParseState} {t : Token} {r : ParseState ⊕ Module}
    (hp : s.pending = none) (hg : s.groups = []) (h : s.feedLine t = .ok r) : s.Reads t r := by
  have hend {r : ParseState ⊕ Module} (h : (s.endLine t).map .inl = .ok r) : s.Reads t r := by
    obtain ⟨s', hs', rfl⟩ := exists_of_map_eq_ok h
    exact endLine_tokens hp hg hs'
  unfold feedLine at h
  split at h
  · exact hend h
  · split at h
    · cases h
    · exact hend h
  · split at h
    · rename_i hline
      obtain ⟨s', hs', rfl⟩ := exists_of_map_eq_ok h
      exact endBlock_tokens hp (by simpa using hline) hg hs'
    · exact hend h
  · rename_i hkind
    split at h
    · rename_i hline
      split at h
      · rename_i hblocks
        cases h
        refine ⟨?_, hkind⟩
        simp only [List.isEmpty_iff] at hline hblocks
        simp [Module.tokens, tokens, hp, hg, hline, hblocks]
      · cases h
    · exact hend h
  · split at h
    · cases h
      simp [Reads, tokens, WaitsAlone, hp, hg]
    · cases h
      simp [Reads, tokens, WaitsAlone, hp, hg, pushItem]

theorem feed_reads {s : ParseState} {t : Token} {r : ParseState ⊕ Module} (hs : s.WaitsAlone)
    (h : s.feed t = .ok r) : s.Reads t r := by
  unfold feed at h
  split at h
  · rename_i g outer hg
    obtain ⟨s', hs', rfl⟩ := exists_of_map_eq_ok h
    exact feedGroup_tokens hs hg hs'
  · rename_i hg
    split at h
    · cases h
    · rename_i s₁ hsettle
      cases h
      obtain ⟨ht, hp, -⟩ := settle_tokens hs hg hsettle
      exact ⟨by simpa using ht, by simp [WaitsAlone, hp]⟩
    · rename_i s₁ hsettle
      obtain ⟨ht, hp, hg₁⟩ := settle_tokens hs hg hsettle
      have hr := feedLine_reads hp hg₁ h
      rw [if_neg (by simp), List.append_nil] at ht
      cases r with
      | inl s' => simpa [Reads, ht] using hr
      | inr m => simpa [Reads, ht] using hr

/-- The module that is read from tokens of which only the last is an end marker holds all of them. -/
theorem feedAll_tokens {s : ParseState} {init : List Token} {last : Token} {m : Module}
    (hs : s.WaitsAlone) (hinit : ∀ t ∈ init, t.kind ≠ .endMarker)
    (h : s.feedAll (init ++ [last]) = .ok m) : m.tokens = s.tokens ++ init ++ [last] := by
  induction init generalizing s with
  | nil =>
      rw [List.nil_append, feedAll] at h
      split at h
      · cases h
      · simp [feedAll] at h
      · rename_i hfeed
        cases h
        simpa using (feed_reads hs hfeed).1
  | cons t init ih =>
      rw [List.cons_append, feedAll] at h
      split at h
      · cases h
      · rename_i s' hfeed
        obtain ⟨ht, hs'⟩ := feed_reads hs hfeed
        rw [ih hs' (fun u hu => hinit u (List.mem_cons_of_mem _ hu)) h, ht]
        simp
      · rename_i hfeed
        exact absurd (feed_reads hs hfeed).2 (hinit t (by simp))

end ParseState

theorem tokens_parse {source : Text} {m : Module} (h : parse source = .ok m) :
    ∃ ts, tokenize source = .ok ts ∧ m.tokens = attachTrailers ts := by
  unfold parse at h
  split at h
  · cases h
  · rename_i ts hts
    refine ⟨ts, hts, ?_⟩
    obtain ⟨init, last, rfl, hlast, hinit⟩ := tokenize_ends hts
    have hkinds : (attachTrailers (init ++ [last])).map Token.kind =
        init.map Token.kind ++ [.endMarker] := by
      simp [attachTrailers, map_kind_attachTrailersFrom, hlast]
    obtain ⟨init', tail, happ, hinit', htail⟩ := List.map_eq_append_iff.mp hkinds
    obtain ⟨last', rfl, -⟩ := List.map_eq_singleton_iff.mp htail
    rw [happ] at h ⊢
    have hends : ∀ t ∈ init', t.kind ≠ .endMarker := by
      intro t ht
      have hmem : t.kind ∈ init.map Token.kind := hinit' ▸ List.mem_map_of_mem ht
      obtain ⟨u, hu, hkind⟩ := List.mem_map.mp hmem
      rw [← hkind]
      exact (hinit u hu).1
    simpa [ParseState.tokens, ParseState.empty, tokensOfBody] using
      ParseState.feedAll_tokens (by simp [ParseState.WaitsAlone, ParseState.empty]) hends h

theorem source_parse {source : Text} {m : Module} (h : parse source = .ok m) :
    m.source = source := by
  obtain ⟨ts, hts, hm⟩ := tokens_parse h
  rw [Module.source, hm, spell_attachTrailers, spell_tokenize hts]
  obtain ⟨init, last, rfl, hlast, hinit⟩ := tokenize_ends hts
  intro t ht hkind
  rcases List.mem_append.mp ht with ht | ht
  · exact (hinit t ht).2 (.inr hkind)
  · rw [List.mem_singleton.mp ht, hlast] at hkind
    cases hkind

end SchemaTidy
