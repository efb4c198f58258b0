import SchemaTidy.Proofs.Tree.Bare
import SchemaTidy.Proofs.Tree.Trailer

/-!
# The tree of a source without a final line terminator

A source whose last line has no terminator is parsed as the same source with a line feed behind it. The
text of the last line end differs, and the line feed may stand in the trivia before the end marker. A
comment on the last line is the exception: only with the line feed does it trail a block.
-/

namespace SchemaTidy

namespace ParseState

variable {s : ParseState} {t : Token} {brackets : List Char} {before : Option TokenKind}

theorem Valid.waitsAlone (hs : s.Valid brackets before) : s.WaitsAlone := by
  intro hpending
  obtain ⟨p, hp⟩ := Option.isSome_iff_exists.mp hpending
  exact (hs.pending p hp).2.2

theorem Valid.line_eq_nil (hs : s.Valid brackets before) (hbefore : endsLine before = true) :
    s.line = [] ∧ s.groups = [] := by
  by_contra hopen
  have := hs.unfinished (by simpa [or_iff_not_and_not] using hopen)
  simp [hbefore] at this

theorem not_endsLine_of_feed (hs : s.Valid brackets before) (ht : t.kind = .newline)
    {r : ParseState ⊕ Module} (h : s.feed t = .ok r) : endsLine before = false := by
  by_contra hends
  have hends : endsLine before = true := by simpa using hends
  have hgroups := (hs.line_eq_nil hends).2
  obtain rfl : brackets = [] := by
    have hopened := hs.groups
    rw [hgroups] at hopened
    cases brackets with
    | nil => rfl
    | cons c cs => exact hopened.elim
  unfold feed at h
  rw [hgroups] at h
  simp only at h
  split at h
  · cases h
  · rename_i hsettle
    rcases valid_settle hs hsettle with ⟨-, hkind, -⟩ | ⟨hused, -⟩
    · rw [ht] at hkind
      cases hkind
    · cases hused
  · rename_i s₁ hsettle
    rcases valid_settle hs hsettle with ⟨hused, -⟩ | ⟨-, hvalid, -, -⟩
    · cases hused
    · have hline := (hvalid.line_eq_nil hends).1
      simp [feedLine, ht, endLine, hline, Except.map] at h

theorem not_endsLine_of_feedAll {init vs : List Token} {m : Module} (hs : s.Valid brackets before)
    (hts : WellOrdered brackets before ((init ++ t :: vs).map Token.spelling))
    (hinit : ∀ u ∈ init, u.kind ≠ .endMarker) (ht : t.kind = .newline)
    (h : s.feedAll (init ++ t :: vs) = .ok m) : endsLine (kindBehind before init) = false := by
  induction init generalizing s brackets before with
  | nil =>
      rw [List.nil_append, feedAll] at h
      cases hfeed : s.feed t with
      | error e => simp [hfeed] at h
      | ok r => exact not_endsLine_of_feed hs ht hfeed
  | cons u us ih =>
      obtain ⟨hspelling, hinside, horder, outer, hb, hrest⟩ := hts
      rw [List.cons_append, feedAll] at h
      split at h
      · cases h
      · rename_i s' hs'
        rw [← List.singleton_append, kindBehind_append]
        exact ih (valid_feed hs hspelling hinside horder hb hs') hrest
          (fun v hv => hinit v (by simp [hv])) h
      · rename_i m' hm'
        exact absurd (feed_reads hs.waitsAlone hm').2 (hinit u (by simp))

end ParseState

/-- In a source that is parsed no line ends before it has begun. -/
theorem not_endsLine_of_parse {source : Text} {m : Module} (h : parse source = .ok m)
    {init vs : List Token} {t : Token} (hts : tokenize source = .ok (init ++ t :: vs))
    (ht : t.kind = .newline) : endsLine (kindBehind none init) = false := by
  have hspelling := spelling_attachTrailers (init ++ t :: vs)
  have hordered := wellOrdered_tokenize hts
  rw [← hspelling] at hordered
  rw [List.map_append, List.map_cons] at hspelling
  obtain ⟨init', tail, happ, hinit', htail⟩ := List.map_eq_append_iff.mp hspelling
  obtain ⟨t', vs', rfl, ht', -⟩ := List.map_eq_cons_iff.mp htail
  have hkinds : init'.map Token.kind = init.map Token.kind := by
    simpa [Token.spelling, Function.comp_def] using congrArg (List.map Prod.fst) hinit'
  have hends : ∀ u ∈ init, u.kind ≠ .endMarker := by
    obtain ⟨inner, last, hsplit, -, hinner⟩ := tokenize_ends hts
    have hinit := congrArg List.dropLast hsplit
    rw [List.dropLast_append_of_ne_nil (by simp), List.dropLast_concat] at hinit
    exact fun u hu => (hinner u (by simp [← hinit, hu])).1
  have hends' : ∀ u ∈ init', u.kind ≠ .endMarker := by
    intro u hu
    have hmem : u.kind ∈ init.map Token.kind := hkinds ▸ List.mem_map_of_mem hu
    obtain ⟨v, hv, hkind⟩ := List.mem_map.mp hmem
    rw [← hkind]
    exact hends v hv
  have hbehind : kindBehind none init' = kindBehind none init := by
    simp [kindBehind, ← List.getLast?_map, hkinds]
  unfold parse at h
  rw [hts] at h
  simp only [happ] at h hordered
  rw [← hbehind]
  exact ParseState.not_endsLine_of_feedAll ParseState.valid_empty hordered hends'
    ((congrArg Prod.fst ht').trans ht) h

/-! ## Columns of blocks -/

theorem columnsAfter_of_isWord {t : Token} (h : t.kind.isWord = true) (columns : List Nat) :
    columnsAfter columns t = columns := by
  have hplain : (t.kind == .dedent) = false ∧ (t.kind == .indent) = false := by
    cases hkind : t.kind <;> simp [hkind, TokenKind.isWord] at h ⊢
  simp [columnsAfter, hplain]

theorem foldl_columnsAfter_items {items : List Item} (h : ItemsWellFormed items)
    (columns : List Nat) : (tokensOfItems items).foldl columnsAfter columns = columns := by
  have hwords := isWord_of_mem_items h
  generalize tokensOfItems items = ts at hwords ⊢
  induction ts with
  | nil => rfl
  | cons t ts ih =>
      rw [List.foldl_cons, columnsAfter_of_isWord (hwords t (by simp))]
      exact ih fun u hu => hwords u (by simp [hu])

theorem columnsAfter_newline {t : Token} (h : t.kind = .newline) (columns : List Nat) :
    columnsAfter columns t = columns := by
  simp [columnsAfter, h]

mutual

theorem foldl_columnsAfter_statement : ∀ {s : Statement}, s.WellFormed → ∀ columns : List Nat,
    s.tokens.foldl columnsAfter columns = columns
  | .simple ⟨items, newline, reformat⟩, hs, columns => by
      obtain ⟨hitems, -, hnewline⟩ := hs
      rw [Statement.tokens, Line.tokens, List.foldl_append,
        foldl_columnsAfter_items hitems.wellFormed]
      exact columnsAfter_newline hnewline.1 columns
  | .compound signature header newline block, hs, columns => by
      obtain ⟨hblock, hnewline, original, horiginal, -, hcompound⟩ := hs
      have hheader := itemsWellFormed_header horiginal.wellFormed hcompound
      rw [Statement.tokens, List.foldl_append, foldl_columnsAfter_items hheader, List.foldl_cons,
        columnsAfter_newline hnewline.1, foldl_columnsAfter_block hblock]

theorem foldl_columnsAfter_block : ∀ {b : Block}, b.WellFormed → ∀ columns : List Nat,
    b.tokens.foldl columnsAfter columns = columns
  | ⟨indent, body, dedent⟩, hb, columns => by
      obtain ⟨hindent, hdedent, -, hbody⟩ := hb
      rw [Block.tokens, List.foldl_cons, List.foldl_append, foldl_columnsAfter_body hbody]
      simp [columnsAfter, hindent, hdedent]

theorem foldl_columnsAfter_body : ∀ {ss : List Statement}, BodyWellFormed ss →
    ∀ columns : List Nat, (tokensOfBody ss).foldl columnsAfter columns = columns
  | [], _, _ => rfl
  | s :: ss, hss, columns => by
      rw [tokensOfBody, List.foldl_append, foldl_columnsAfter_statement hss.1,
        foldl_columnsAfter_body hss.2]

end

theorem bodyWellFormed_append {ss ts : List Statement} :
    BodyWellFormed (ss ++ ts) ↔ BodyWellFormed ss ∧ BodyWellFormed ts := by
  induction ss with
  | nil => simp [BodyWellFormed]
  | cons s ss ih => simp [BodyWellFormed, ih, and_assoc]

/-- Statements whose tokens end with a closing marker end with a block of the column that is innermost
before that marker. -/
theorem getLast?_of_dedent {ss : List Statement} (hss : BodyWellFormed ss) {ts : List Token}
    {t : Token} (hts : tokensOfBody ss = ts ++ [t]) (ht : t.kind = .dedent) :
    ∃ signature header newline block,
      ss.getLast? = some (.compound signature header newline block) ∧
        ∀ columns, ts.foldl columnsAfter columns = block.column :: columns := by
  obtain rfl | ⟨ss, s, rfl⟩ := List.eq_nil_or_concat ss
  · simp [tokensOfBody] at hts
  rw [List.concat_eq_append] at *
  obtain ⟨hinit, hs, -⟩ := bodyWellFormed_append.mp hss
  rw [tokensOfBody_append] at hts
  cases s with
  | simple line =>
      obtain ⟨-, -, hnewline⟩ := hs
      have hlast : tokensOfBody ss ++ tokensOfBody [.simple line] =
          (tokensOfBody ss ++ tokensOfItems line.items) ++ [line.newline] := by
        simp [tokensOfBody, Statement.tokens, Line.tokens]
      rw [hlast] at hts
      rw [← (List.cons.inj (List.append_inj' hts rfl).2).1, hnewline.1] at ht
      cases ht
  | compound signature header newline block =>
      obtain ⟨hblock, hnewline, original, horiginal, -, hcompound⟩ := hs
      obtain ⟨indent, body, dedent⟩ := block
      obtain ⟨hindent, -, -, hbody⟩ := hblock
      refine ⟨signature, header, newline, ⟨indent, body, dedent⟩, by simp, fun columns => ?_⟩
      have hheader := itemsWellFormed_header horiginal.wellFormed hcompound
      have htokens : tokensOfBody ss ++ tokensOfBody [.compound signature header newline ⟨indent, body, dedent⟩] =
          (tokensOfBody ss ++ tokensOfItems header ++ newline :: indent :: tokensOfBody body) ++ [dedent] := by
        simp [tokensOfBody, Statement.tokens, Block.tokens]
      rw [htokens] at hts
      rw [← (List.append_inj' hts rfl).1]
      simp only [List.foldl_append, List.foldl_cons, foldl_columnsAfter_body hinit,
        foldl_columnsAfter_items hheader, foldl_columnsAfter_body hbody,
        columnsAfter_newline hnewline.1]
      simp [columnsAfter, hindent, Block.column]

/-! ## The two trees -/

/-- Whether the last comment of a source without a final line terminator would trail a block with
one. -/
def Module.cutsTrailer (m : Module) : Bool :=
  match m.body.getLast? with
  | some (.compound _ _ _ block) => !(trailer block.column (m.endMarker.trivia ++ ['\n'])).isEmpty
  | _ => false

theorem tokens_parse_lineFeed {source : Text} (hsource : Unterminated source) {m m' : Module}
    (h : parse source = .ok m) (h' : parse (source ++ ['\n']) = .ok m') :
    ∃ out columns p p',
      (∃ newline : Token, newline.kind = .newline ∧ newline.text = [] ∧
        m.tokens = out ++ newline :: attachedClosing columns p [] ∧
        m'.tokens = out ++ { newline with text := ['\n'] } :: attachedClosing columns p' []) ∨
      (∃ trivia, Unterminated trivia ∧ columns.Pairwise (· > ·) ∧
        out.foldl columnsAfter [] = columns ∧
        m.tokens = out ++ attachedClosing columns p trivia ∧
        m'.tokens = out ++ attachedClosing columns p' (trivia ++ ['\n'])) := by
  obtain ⟨ts, hts, hm⟩ := tokens_parse h
  obtain ⟨ts', hts', hm'⟩ := tokens_parse h'
  obtain ⟨init, us, us', rfl, rfl, hsorted, hends⟩ := Cursor.tokens_extended
    (c := .ofSource source) hsource (fun _ => .inl rfl) (by simp [Cursor.ofSource]) hts hts'
  obtain ⟨out, run, hrun, hcolumns, hout⟩ := @attachTrailersFrom_append none [] (fun _ => rfl) [] init
  rw [attachTrailers, hout] at hm hm'
  cases hends with
  | line newline p p' hkind htext =>
      have hnewline (u : Token) (hu : u.kind = .newline) (q : Position) :
          attachTrailersFrom (init.foldl columnsAfter []) run
            (u :: Cursor.closing (init.foldl columnsAfter []) q []) =
          (fillDedents run u.trivia).1 ++ { u with trivia := (fillDedents run u.trivia).2 } ::
            attachedClosing (init.foldl columnsAfter []) q [] := by
        simp [attachTrailersFrom, hu, attachTrailersFrom_closing]
      refine ⟨out ++ (fillDedents run newline.trivia).1, init.foldl columnsAfter [], p, p', .inl
        ⟨{ newline with trivia := (fillDedents run newline.trivia).2 }, hkind, htext, ?_, ?_⟩⟩
      · rw [hm, List.append_assoc]
        exact congrArg _ (hnewline _ hkind p)
      · rw [hm', List.append_assoc]
        exact congrArg _ (hnewline { newline with text := ['\n'] } hkind p')
  | @trivia trivia p p' htrivia hbefore =>
      rw [hrun hbefore] at hm hm' hcolumns
      refine ⟨out, init.foldl columnsAfter [], p, p', .inr ⟨trivia, htrivia, hsorted, ?_, ?_, ?_⟩⟩
      · simpa using hcolumns []
      · rw [hm]
        exact congrArg _ (attachTrailersFrom_closing ..)
      · rw [hm']
        exact congrArg _ (attachTrailersFrom_closing ..)
  | empty newline vs hkind hbefore =>
      have hbegun := not_endsLine_of_parse h' hts' hkind
      exact absurd (hbegun.symm.trans hbefore) Bool.false_ne_true

theorem foldl_columnsAfter_of_dedents {ts : List Token} (h : ∀ t ∈ ts, t.kind = .dedent)
    (columns : List Nat) : ts.foldl columnsAfter columns = columns.drop ts.length := by
  induction ts generalizing columns with
  | nil => rfl
  | cons t ts ih =>
      rw [List.foldl_cons, ih (fun u hu => h u (by simp [hu])), columnsAfter, h t (by simp)]
      simp [← List.drop_one, List.drop_drop, Nat.add_comm]

/-- The body and the end marker of a module whose tokens end with closing markers. -/
theorem tokensOfBody_of_attachedClosing {m : Module} {out : List Token} {columns : List Nat}
    {p : Position} {trivia : Text} (h : m.tokens = out ++ attachedClosing columns p trivia) :
    tokensOfBody m.body =
        out ++ (trailersOf columns trivia).map (fun moved => ⟨.dedent, [], moved, p⟩) ∧
      m.endMarker = ⟨.endMarker, [], behindTrailers columns trivia, p⟩ := by
  rw [Module.tokens, attachedClosing, ← List.append_assoc] at h
  obtain ⟨hbody, hend⟩ := List.append_inj' h rfl
  exact ⟨hbody, (List.cons.inj hend).1⟩

/-- The outermost block that is open at the end of a source is the last statement. -/
theorem getLast?_of_attachedClosing {m : Module} (hm : BodyWellFormed m.body) {out : List Token}
    {columns : List Nat} {p : Position} {trivia : Text}
    (h : m.tokens = out ++ attachedClosing columns p trivia)
    (hout : out.foldl columnsAfter [] = columns) {n : Nat} (hn : columns.getLast? = some n) :
    ∃ signature header newline block,
      m.body.getLast? = some (.compound signature header newline block) ∧ block.column = n := by
  obtain ⟨hbody, -⟩ := tokensOfBody_of_attachedClosing h
  obtain ⟨outer, rfl⟩ := List.getLast?_eq_some_iff.mp hn
  have hlength : (trailersOf (outer ++ [n]) trivia).length = outer.length + 1 := by simp
  obtain ⟨moved, last, hmoved⟩ : ∃ moved last, trailersOf (outer ++ [n]) trivia = moved ++ [last] := by
    rcases List.eq_nil_or_concat (trailersOf (outer ++ [n]) trivia) with hnil | ⟨moved, last, h⟩
    · rw [hnil] at hlength
      cases hlength
    · exact ⟨moved, last, by rw [h, List.concat_eq_append]⟩
  rw [hmoved, List.length_append, List.length_singleton, Nat.add_right_cancel_iff] at hlength
  rw [hmoved, List.map_append, ← List.append_assoc] at hbody
  obtain ⟨signature, header, newline, block, hlast, hcolumn⟩ := getLast?_of_dedent hm hbody rfl
  refine ⟨signature, header, newline, block, hlast, ?_⟩
  have hmarkers : ∀ t ∈ moved.map fun moved => (⟨.dedent, [], moved, p⟩ : Token),
      t.kind = .dedent := by simp
  have hdedents := foldl_columnsAfter_of_dedents hmarkers (outer ++ [n])
  have hstack := hcolumn []
  rw [List.foldl_append, hout, hdedents, List.length_map, hlength] at hstack
  simpa using hstack.symm

end SchemaTidy
