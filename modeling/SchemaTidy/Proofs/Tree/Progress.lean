import SchemaTidy.Proofs.Token.Balance
import SchemaTidy.Proofs.Token.Place

/-!
# The parser on the tokens of a source

The parser has branches for tokens in impossible places: an end marker between brackets, a block that
is not closed, a line that is not ended. The structure of the tokens of a source keeps it from all of
them, so that each fault it finds has a place in the source.
-/

namespace SchemaTidy

namespace ParseState

variable {s s' : ParseState} {t : Token} {ts us : List Token}

/-- Reading the tokens `ts` leads to a state and leaves some of them. -/
inductive Reaches (ts : List Token) : ParseState → List Token → Prop where
  | start : Reaches ts empty ts
  | feed {s s' : ParseState} {t : Token} {us : List Token} (hs : Reaches ts s (t :: us))
      (h : s.feed t = .ok (.inl s')) : Reaches ts s' us

/-- A token that the parser has a regular use or a fault of the source for. -/
structure Fits (s : ParseState) (t : Token) : Prop where
  /-- Between brackets stand words alone, and no end marker. -/
  inside : s.groups ≠ [] → t.kind.isWord = true
  /-- A line that has begun goes on or ends with a line end. -/
  ends : s.groups = [] → s.line ≠ [] → t.kind.isWord = true ∨ t.kind = .newline
  /-- A closing marker closes a block, and so never ends the module. -/
  closes : t.kind = .dedent → s.blocks ≠ []
  /-- The end marker ends the module, and so never a block. -/
  finishes : t.kind = .endMarker → s.blocks = []

/-- There is a next token, and it fits. -/
def OnTrack (s : ParseState) (us : List Token) : Prop := ∃ t rest, us = t :: rest ∧ s.Fits t

/-- What the structure of the tokens says about a state and the tokens that are left. -/
structure Tracks (s : ParseState) (us : List Token) : Prop where
  ordered : ∃ brackets before, s.Valid brackets before ∧
    WellOrdered brackets before (us.map Token.spelling)
  blocks : BlocksClose s.blocks.length (us.map Token.kind)
  last : ∃ init, us.map Token.kind = init ++ [.endMarker] ∧ .endMarker ∉ init

theorem Tracks.fits (h : s.Tracks (t :: us)) : s.Fits t := by
  obtain ⟨brackets, before, hs, -, hinside, horder, -⟩ := h.ordered
  refine ⟨fun hgroups => hinside.resolve_right ?_, fun _ hline => ?_, fun hkind => ?_,
    fun hkind => ?_⟩
  · rintro rfl
    exact hgroups hs.groups_eq_nil
  · have hunfinished := hs.unfinished (.inl hline)
    rcases horder with hword | hnewline | hends
    · exact .inl hword
    · exact .inr hnewline
    · simp [hunfinished] at hends
  · have hblocks := h.blocks
    rw [List.map_cons, hkind] at hblocks
    exact List.length_pos_iff.mp hblocks.1
  · obtain ⟨init, hkinds, hinit⟩ := h.last
    have hblocks := h.blocks
    cases init with
    | nil =>
        rw [hkinds] at hblocks
        exact List.eq_nil_of_length_eq_zero hblocks
    | cons kind init =>
        obtain ⟨hhead, -⟩ := List.cons.inj hkinds
        have hmem : TokenKind.endMarker ∈ kind :: init := by
          rw [← hkind]
          exact List.mem_cons.mpr (.inl hhead)
        exact absurd hmem hinit

theorem Tracks.onTrack (h : s.Tracks us) : s.OnTrack us := by
  cases us with
  | nil =>
      obtain ⟨init, hkinds, -⟩ := h.last
      simp at hkinds
  | cons t us => exact ⟨t, us, rfl, h.fits⟩

theorem blocks_feedGroup {g : OpenGroup} {outer : List OpenGroup}
    (h : s.feedGroup g outer t = .ok s') : s'.blocks = s.blocks := by
  unfold feedGroup at h
  split at h
  · split at h <;> cases h <;> rfl
  split at h
  · cases h
  split at h
  · split at h <;> cases h
    rfl
  split at h <;> cases h <;> rfl

theorem blocks_settle {used : Bool} (h : s.settle t = .ok (s', used)) :
    s'.line = s.line ∧ ((used = true ∧ t.kind = .indent ∧ s'.blocks.length = s.blocks.length + 1) ∨
      (used = false ∧ s'.blocks = s.blocks)) := by
  unfold settle at h
  split at h
  · cases h
    exact ⟨rfl, .inr ⟨rfl, rfl⟩⟩
  simp only at h
  split at h
  · rename_i hkind
    split at h
    · cases h
      exact ⟨rfl, .inl ⟨rfl, by simpa using hkind, rfl⟩⟩
    · cases h
  split at h
  · cases h
  · cases h
    exact ⟨rfl, .inr ⟨rfl, rfl⟩⟩

theorem blocks_endLine (h : s.endLine t = .ok s') : s'.blocks = s.blocks := by
  unfold endLine at h
  split at h
  · cases h
  · split at h <;> cases h
    rfl
  · cases h
    rfl

theorem blocks_endBlock (h : s.endBlock t = .ok s') : s.blocks.length = s'.blocks.length + 1 := by
  unfold endBlock at h
  split at h
  · cases h
  · rename_i b outer hblocks
    split at h
    · cases h
    · cases h
      simp [hblocks]

/-- Outside of brackets only a closing marker changes the open blocks, and neither an opening marker
nor the end marker is read without being used up. -/
theorem blocks_feedLine (hline : s.line ≠ [] → t.kind.isWord = true ∨ t.kind = .newline)
    (h : s.feedLine t = .ok (.inl s')) :
    (t.kind = .dedent ∧ s.blocks.length = s'.blocks.length + 1) ∨
      (t.kind ≠ .dedent ∧ t.kind ≠ .indent ∧ t.kind ≠ .endMarker ∧ s'.blocks = s.blocks) := by
  have hempty (hword : t.kind.isWord = false) (hnewline : t.kind ≠ .newline) : s.line = [] := by
    by_contra hne
    rcases hline hne with hw | hn
    · simp [hword] at hw
    · exact hnewline hn
  unfold feedLine at h
  split at h
  · rename_i hkind
    obtain ⟨_, hend, hs'⟩ := exists_of_map_eq_ok h
    cases hs'
    simp [hkind, blocks_endLine hend]
  · rename_i hkind
    rw [if_pos (by simp [hempty, hkind, TokenKind.isWord])] at h
    cases h
  · rename_i hkind
    rw [if_pos (by simp [hempty, hkind, TokenKind.isWord])] at h
    obtain ⟨_, hend, hs'⟩ := exists_of_map_eq_ok h
    cases hs'
    exact .inl ⟨hkind, blocks_endBlock hend⟩
  · rename_i hkind
    rw [if_pos (by simp [hempty, hkind, TokenKind.isWord])] at h
    split at h <;> cases h
  · rename_i hnewline hindent hdedent hend
    refine .inr ⟨hdedent, hindent, hend, ?_⟩
    split at h <;> cases h <;> rfl

/-- A token that fits and is read keeps account of the open blocks, and is not the last one. -/
theorem blocks_feed (hfits : s.Fits t) (h : s.feed t = .ok (.inl s')) :
    t.kind ≠ .endMarker ∧ ∀ kinds, BlocksClose s.blocks.length (t.kind :: kinds) →
      BlocksClose s'.blocks.length kinds := by
  unfold feed at h
  split at h
  · rename_i g outer hgroups
    obtain ⟨_, hfeed, hs'⟩ := exists_of_map_eq_ok h
    cases hs'
    have hword := hfits.inside (by simp [hgroups])
    rw [blocks_feedGroup hfeed]
    cases hkind : t.kind <;> rw [hkind] at hword <;>
      first | contradiction | exact ⟨by simp, fun kinds hkinds => hkinds⟩
  · rename_i hgroups
    split at h
    · cases h
    · rename_i s₁ hsettle
      cases h
      obtain ⟨-, ⟨-, hkind, hlength⟩ | ⟨hused, -⟩⟩ := blocks_settle hsettle
      · rw [hkind, hlength]
        exact ⟨by simp, fun kinds hkinds => hkinds⟩
      · cases hused
    · rename_i s₁ hsettle
      obtain ⟨hline, ⟨hused, -⟩ | ⟨-, hblocks⟩⟩ := blocks_settle hsettle
      · cases hused
      · rw [← hblocks]
        rcases blocks_feedLine (by simpa [hline] using hfits.ends hgroups) h with
          ⟨hkind, hlength⟩ | ⟨hdedent, hindent, hend, hsame⟩
        · rw [hkind, hlength]
          exact ⟨by simp, fun kinds hkinds => hkinds.2⟩
        · rw [hsame]
          exact ⟨hend, fun kinds hkinds => (blocksClose_cons hindent hdedent).mp hkinds⟩

/-- Reading a token keeps the parser on track. -/
theorem Tracks.feed (h : s.Tracks (t :: us)) (hfeed : s.feed t = .ok (.inl s')) : s'.Tracks us := by
  obtain ⟨brackets, before, hs, hspelling, hinside, horder, outer, hb, hus⟩ := h.ordered
  obtain ⟨hend, hblocks⟩ := blocks_feed h.fits hfeed
  refine ⟨⟨outer, _, valid_feed hs hspelling hinside horder hb hfeed, hus⟩,
    hblocks _ h.blocks, ?_⟩
  obtain ⟨init, hkinds, hinit⟩ := h.last
  cases init with
  | nil =>
      obtain ⟨hhead, -⟩ := List.cons.inj hkinds
      exact absurd hhead hend
  | cons kind init =>
      obtain ⟨-, htail⟩ := List.cons.inj hkinds
      exact ⟨init, htail, fun hmem => hinit (List.mem_cons_of_mem _ hmem)⟩

theorem tracks_of_reaches (hts : empty.Tracks ts) (h : Reaches ts s us) : s.Tracks us := by
  induction h with
  | start => exact hts
  | feed hs hfeed ih => exact ih.feed hfeed

/-! ## Faults -/

theorem mem_tokens_of_group {g : OpenGroup} (hg : g ∈ s.groups) : g.opening ∈ s.tokens := by
  refine List.mem_append_right _ (List.mem_flatMap.mpr ⟨g, by simpa using hg, ?_⟩)
  simp [OpenGroup.tokens]

theorem mem_tokensOfItems_of_token {items : List Item} (h : .token t ∈ items) :
    t ∈ tokensOfItems items := by
  induction items with
  | nil => cases h
  | cons i items ih =>
      rw [tokensOfItems_cons]
      rcases List.mem_cons.mp h with rfl | h
      · simp
      · exact List.mem_append_right _ (ih h)

theorem mem_tokens_of_line (h : .token t ∈ s.line) : t ∈ s.tokens := by
  refine List.mem_append_left _ (List.mem_append_right _ ?_)
  exact mem_tokensOfItems_of_token h

theorem mem_tokens_of_header {b : OpenBlock} (hb : b ∈ s.blocks) (h : .token t ∈ b.header) :
    t ∈ s.tokens := by
  have hmem : t ∈ b.tokens :=
    List.mem_append_left _ (List.mem_append_right _ (mem_tokensOfItems_of_token h))
  have hblocks : t ∈ s.blocks.reverse.flatMap OpenBlock.tokens :=
    List.mem_flatMap.mpr ⟨b, by simpa using hb, hmem⟩
  simp only [tokens, List.mem_append]
  exact .inl (.inl (.inl (.inl hblocks)))

variable {e : ParseError}

theorem position_settle_error (h : s.settle t = .error e) : e.position = t.position := by
  unfold settle at h
  split at h
  · cases h
  simp only at h
  split at h
  · split at h <;> cases h
    rfl
  split at h <;> cases h
  rfl

theorem position_feedGroup_error {g : OpenGroup} {outer : List OpenGroup}
    (hg : s.groups = g :: outer) (h : s.feedGroup g outer t = .error e) :
    ∃ u ∈ s.tokens ++ [t], e.position = u.position := by
  unfold feedGroup at h
  split at h
  · split at h <;> cases h
  split at h
  · cases h
    have hmem : g.opening ∈ s.tokens := mem_tokens_of_group (by simp [hg])
    exact ⟨g.opening, List.mem_append_left _ hmem, rfl⟩
  split at h
  · split at h <;> cases h
    exact ⟨t, by simp, rfl⟩
  split at h <;> cases h

theorem position_endLine_error (h : s.endLine t = .error e) :
    ∃ u ∈ s.tokens ++ [t], e.position = u.position := by
  unfold endLine at h
  split at h
  · cases h
    exact ⟨t, by simp, rfl⟩
  · rename_i last hlast
    split at h
    · cases h
      have hmem : last ∈ s.tokens := mem_tokens_of_line (List.mem_of_getLast? hlast)
      exact ⟨last, List.mem_append_left _ hmem, rfl⟩
    · cases h
  · cases h

theorem position_compoundOf_error {header : List Item} {newline : Token} {block : Block}
    (h : compoundOf header newline block = .error e) :
    ∃ u, .token u ∈ header ∧ e.position = u.position := by
  unfold compoundOf at h
  split at h
  · rename_i first rest
    split at h
    · split at h
      · cases h
      · cases h
        exact ⟨first, by simp, rfl⟩
    · cases h
  · cases h

theorem position_endBlock_error (h : s.endBlock t = .error e) :
    ∃ u ∈ s.tokens ++ [t], e.position = u.position := by
  unfold endBlock at h
  split at h
  · cases h
    exact ⟨t, by simp, rfl⟩
  · rename_i b outer hblocks
    split at h
    · rename_i e' hcompound
      cases h
      obtain ⟨u, hu, hposition⟩ := position_compoundOf_error hcompound
      have hmem : u ∈ s.tokens := mem_tokens_of_header (by simp [hblocks]) hu
      exact ⟨u, List.mem_append_left _ hmem, hposition⟩
    · cases h

theorem position_feedLine_error (h : s.feedLine t = .error e) :
    ∃ u ∈ s.tokens ++ [t], e.position = u.position := by
  have hhere : ∃ u ∈ s.tokens ++ [t], t.position = u.position := ⟨t, by simp, rfl⟩
  unfold feedLine at h
  split at h
  · exact position_endLine_error (eq_error_of_map h)
  · split at h
    · cases h
      exact hhere
    · exact position_endLine_error (eq_error_of_map h)
  · split at h
    · exact position_endBlock_error (eq_error_of_map h)
    · exact position_endLine_error (eq_error_of_map h)
  · split at h
    · split at h <;> cases h
      exact hhere
    · exact position_endLine_error (eq_error_of_map h)
  · split at h <;> cases h

theorem position_feed_error (hs : s.WaitsAlone) (h : s.feed t = .error e) :
    ∃ u ∈ s.tokens ++ [t], e.position = u.position := by
  unfold feed at h
  split at h
  · rename_i g outer hg
    exact position_feedGroup_error hg (eq_error_of_map h)
  · rename_i hg
    split at h
    · rename_i e' hsettle
      cases h
      exact ⟨t, by simp, position_settle_error hsettle⟩
    · cases h
    · rename_i s₁ hsettle
      obtain ⟨htokens, -⟩ := settle_tokens hs hg hsettle
      rw [if_neg (by simp), List.append_nil] at htokens
      rw [← htokens]
      exact position_feedLine_error h

/-- A run over the tokens of a source that fails does so at one of them: it never reads past the last
one. -/
theorem position_feedAll_error (htracks : s.Tracks us) (hs : s.WaitsAlone)
    (h : s.feedAll us = .error e) : ∃ u ∈ s.tokens ++ us, e.position = u.position := by
  induction us generalizing s with
  | nil =>
      obtain ⟨_, _, hnil, -⟩ := htracks.onTrack
      cases hnil
  | cons t us ih =>
      rw [feedAll] at h
      split at h
      · rename_i e' hfeed
        cases h
        obtain ⟨u, hu, hposition⟩ := position_feed_error hs hfeed
        refine ⟨u, ?_, hposition⟩
        rw [← List.singleton_append, ← List.append_assoc]
        exact List.mem_append_left _ hu
      · rename_i s' hfeed
        obtain ⟨htokens, hs'⟩ := feed_reads hs hfeed
        have hrest := ih (htracks.feed hfeed) hs' h
        rwa [htokens, List.append_assoc] at hrest
      · cases h

end ParseState

/-! ## A source -/

theorem map_position_fillDedents (run : List (Nat × Token)) (trivia : Text) :
    (fillDedents run trivia).1.map Token.position = run.map (·.2.position) := by
  induction run generalizing trivia with
  | nil => rfl
  | cons r run ih =>
      simp only [fillDedents, List.map_cons, ih]
      split <;> rfl

theorem map_position_attachTrailersFrom (columns : List Nat) (run : List (Nat × Token))
    (ts : List Token) : (attachTrailersFrom columns run ts).map Token.position =
      run.map (·.2.position) ++ ts.map Token.position := by
  induction ts generalizing columns run with
  | nil => simp [attachTrailersFrom]
  | cons t ts ih =>
      rw [attachTrailersFrom]
      split
      · simp [ih]
      · simp [ih, map_position_fillDedents]

theorem isPlace_attachTrailers {ts : List Token} (h : ∀ t ∈ ts, t.position.IsPlace) :
    ∀ t ∈ attachTrailers ts, t.position.IsPlace := by
  intro t ht
  have hmem : t.position ∈ ts.map Token.position := by
    have hmap := map_position_attachTrailersFrom [] [] ts
    rw [List.map_nil, List.nil_append] at hmap
    rw [← hmap]
    exact List.mem_map_of_mem ht
  obtain ⟨u, hu, hposition⟩ := List.mem_map.mp hmem
  rw [← hposition]
  exact h u hu

theorem tracks_tokenize {source : Text} {ts : List Token} (h : tokenize source = .ok ts) :
    ParseState.empty.Tracks (attachTrailers ts) := by
  have hkinds : (attachTrailers ts).map Token.kind = ts.map Token.kind := by
    simp [attachTrailers, map_kind_attachTrailersFrom]
  refine ⟨⟨[], none, ParseState.valid_empty, ?_⟩, ?_, ?_⟩
  · rw [spelling_attachTrailers]
    exact wellOrdered_tokenize h
  · rw [hkinds]
    exact blocksClose_tokenize h
  · obtain ⟨init, last, rfl, hlast, hinit⟩ := tokenize_ends h
    refine ⟨init.map Token.kind, by simp [hkinds, hlast], ?_⟩
    intro hmem
    obtain ⟨t, ht, hkind⟩ := List.mem_map.mp hmem
    exact (hinit t ht).1 hkind

theorem isPlace_parse_error {source : Text} {e : ParseError} (h : parse source = .error e) :
    e.position.IsPlace := by
  unfold parse at h
  split at h
  · rename_i e' htokens
    cases h
    exact isPlace_tokenize_error htokens
  · rename_i ts hts
    have hwaits : ParseState.empty.WaitsAlone := by simp [ParseState.WaitsAlone, ParseState.empty]
    obtain ⟨u, hu, hposition⟩ := ParseState.position_feedAll_error (tracks_tokenize hts) hwaits h
    rw [hposition]
    refine isPlace_attachTrailers (isPlace_tokenize hts) u ?_
    simpa [ParseState.tokens, ParseState.empty, tokensOfBody] using hu

/-- The tokens of a source are nested in brackets and in blocks and end with the only end marker, which
keeps the parser from reading past them and from every token in an impossible place. Faults have a line
and a column. -/
theorem tokens_balanced_parser_on_track (source : Text) :
    (∀ ts, tokenize source = .ok ts →
      Nested ts ∧
      (∀ before, before <+: ts → (before.map Token.kind).count .dedent ≤
        (before.map Token.kind).count .indent) ∧
      (ts.map Token.kind).count .dedent = (ts.map Token.kind).count .indent ∧
      (∃ init last, ts = init ++ [last] ∧ last.kind = .endMarker ∧
        ∀ t ∈ init, t.kind ≠ .endMarker) ∧
      ∀ s us, ParseState.Reaches (attachTrailers ts) s us → s.OnTrack us) ∧
    ∀ e, parse source = .error e → e.position.line ≠ 0 ∧ e.position.column ≠ 0 := by
  constructor
  · intro ts hts
    have hblocks := blocksClose_tokenize hts
    refine ⟨nested_tokenize hts, ?_, ?_, ?_, ?_⟩
    · intro before hbefore
      simpa using hblocks.count_le (hbefore.map Token.kind)
    · simpa using hblocks.count_eq
    · obtain ⟨init, last, hsplit, hlast, hinit⟩ := tokenize_ends hts
      exact ⟨init, last, hsplit, hlast, fun t ht => (hinit t ht).1⟩
    · exact fun s us hreaches =>
        (ParseState.tracks_of_reaches (tracks_tokenize hts) hreaches).onTrack
  · intro e he
    obtain ⟨hline, hcolumn⟩ := isPlace_parse_error he
    exact ⟨hline.ne', hcolumn.ne'⟩

/-- A block whose call goes over several lines, and a continued line before the end. -/
def continuedSource : Text := "if a:\n  f(\n[b],\n)\n  # c\n\\\n".toList

/-- A block that is closed to a depth that none was opened at. -/
def misalignedSource : Text := "if a:\n    b\n  c\n".toList

theorem tokens_balanced_parser_on_track_continuedSource :
    (∃ ts, tokenize continuedSource = .ok ts ∧ Nested ts ∧
      (ts.map Token.kind).count .dedent = (ts.map Token.kind).count .indent ∧
      ParseState.empty.OnTrack (attachTrailers ts)) ∧
    ∃ e, parse misalignedSource = .error e ∧ e.position.line ≠ 0 ∧ e.position.column ≠ 0 := by
  have hread : (tokenize continuedSource).toOption.isSome = true := by decide +kernel
  have hfail : (parse misalignedSource).toOption.isNone = true := by decide +kernel
  constructor
  · cases hts : tokenize continuedSource with
    | error e => simp [hts, Except.toOption] at hread
    | ok ts =>
        obtain ⟨hnested, -, hcount, -, htrack⟩ :=
          (tokens_balanced_parser_on_track continuedSource).1 ts hts
        exact ⟨ts, rfl, hnested, hcount, htrack _ _ .start⟩
  · cases he : parse misalignedSource with
    | error e => exact ⟨e, rfl, (tokens_balanced_parser_on_track misalignedSource).2 e he⟩
    | ok m => simp [he, Except.toOption] at hfail

end SchemaTidy
