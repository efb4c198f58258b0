import SchemaTidy.Proofs.Literal.Quoted
import SchemaTidy.Proofs.Print.Spacing
import SchemaTidy.Proofs.Token.FinalLine
import SchemaTidy.Proofs.Token.Margin
import SchemaTidy.Proofs.Tree.Names

/-!
# Positions and offsets

The lexer carries a line and a column along and moves them over every piece of text that it takes. An
offset into the source has a line and a column of its own: the line terminators before it, and the
characters since the last of them. Both agree before every piece, because no piece ends inside of a
terminator of two characters.
-/

namespace SchemaTidy

/-- Whether the character at an offset ends a line: a line feed, or a carriage return without a line
feed behind it. -/
def Text.endsLineAt (source : Text) (i : Nat) : Bool :=
  source[i]? == some '\n' || (source[i]? == some '\r' && source[i + 1]? != some '\n')

/-- The place of an offset: one more than the lines that end before it, and one more than the characters
behind the end of the last of them. -/
def Position.ofOffset (source : Text) (o : Nat) : Position :=
  ⟨1 + (List.range o).countP (Text.endsLineAt source),
    1 + ((List.range o).reverse.takeWhile (!Text.endsLineAt source ·)).length⟩

theorem Position.ofOffset_succ (source : Text) (o : Nat) :
    ofOffset source (o + 1) =
      if Text.endsLineAt source o then ⟨(ofOffset source o).line + 1, 1⟩
      else ⟨(ofOffset source o).line, (ofOffset source o).column + 1⟩ := by
  unfold ofOffset
  rw [List.range_succ, List.countP_append, List.reverse_append, List.reverse_singleton,
    List.singleton_append]
  split
  · rename_i hends
    simp [hends, Nat.add_assoc]
  · rename_i hends
    simp [hends]
    omega

theorem Text.endsLineAt_append (a : Text) (c : Char) (r : Text) :
    endsLineAt (a ++ c :: r) a.length = (c == '\n' || (c == '\r' && r.head? != some '\n')) := by
  unfold endsLineAt
  rw [List.getElem?_append_right (Nat.le_refl _), List.getElem?_append_right (Nat.le_succ _)]
  cases r <;> simp

theorem Position.ofOffset_concat (a : Text) (c : Char) (r : Text) :
    ofOffset (a ++ c :: r) (a ++ [c]).length =
      if c == '\n' || (c == '\r' && r.head? != some '\n') then
        ⟨(ofOffset (a ++ c :: r) a.length).line + 1, 1⟩
      else ⟨(ofOffset (a ++ c :: r) a.length).line,
        (ofOffset (a ++ c :: r) a.length).column + 1⟩ := by
  rw [List.length_append, List.length_singleton, ofOffset_succ, Text.endsLineAt_append]

/-! ## Cuts between lines -/

/-- A cut that does not divide a terminator of two characters. -/
def KeepsBreaks (a b : Text) : Prop := a.getLast? = some '\r' → b.head? ≠ some '\n'

theorem keepsBreaks_nil (b : Text) : KeepsBreaks [] b := by simp [KeepsBreaks]

theorem keepsBreaks_end (a : Text) : KeepsBreaks a [] := by simp [KeepsBreaks]

theorem keepsBreaks_of_forall {a : Text} (ha : ∀ c ∈ a, Text.isLineBreak c = false) (b : Text) :
    KeepsBreaks a b := by
  intro hlast
  have hreturn := ha '\r' (List.mem_of_getLast? hlast)
  cases hreturn

theorem KeepsBreaks.append {a b x : Text} (ha : KeepsBreaks a (b ++ x)) (hb : KeepsBreaks b x) :
    KeepsBreaks (a ++ b) x := by
  intro hlast
  cases b with
  | nil => exact ha (by simpa using hlast)
  | cons d b =>
      refine hb ?_
      rwa [List.getLast?_append, List.getLast?_cons, Option.some_or, ← List.getLast?_cons] at hlast

theorem KeepsBreaks.right {a b x : Text} (h : KeepsBreaks (a ++ b) x) : KeepsBreaks b x := by
  intro hlast
  exact h (by rw [List.getLast?_append, hlast, Option.some_or])

theorem keepsBreaks_break {lb r : Text} (hlb : IsBreak lb) (hr : lb = ['\r'] → r.head? ≠ some '\n') :
    KeepsBreaks lb r := by
  intro hlast
  rcases hlb with rfl | rfl | rfl
  · simp at hlast
  · simp at hlast
  · exact hr rfl

theorem Position.after_ofOffset (a b r : Text) (hcut : KeepsBreaks b r) :
    (ofOffset (a ++ (b ++ r)) a.length).after b = ofOffset (a ++ (b ++ r)) (a ++ b).length := by
  obtain ⟨p, hp⟩ : ∃ p, p = ofOffset (a ++ (b ++ r)) a.length := ⟨_, rfl⟩
  rw [← hp]
  fun_induction Position.after p b generalizing a with
  | case1 p => rw [hp, List.append_nil]
  | case2 p cs ih =>
      have hsplit : a ++ ('\r' :: '\n' :: cs ++ r) = (a ++ ['\r', '\n']) ++ (cs ++ r) := by simp
      have hbehind : (a ++ '\r' :: '\n' :: cs).length = ((a ++ ['\r', '\n']) ++ cs).length := by simp
      rw [hsplit, hbehind]
      refine ih (a ++ ['\r', '\n']) (hcut.right (a := ['\r', '\n'])) ?_
      have hreturn := ofOffset_concat a '\r' ('\n' :: (cs ++ r))
      have hfeed := ofOffset_concat (a ++ ['\r']) '\n' (cs ++ r)
      rw [← hsplit, hp]
      simp only [List.append_assoc, List.cons_append, List.nil_append] at hreturn hfeed ⊢
      rw [hfeed, hreturn]
      rfl
  | case3 p c cs hne hbreak ih | case4 p c cs hne hbreak ih =>
      have hsplit : a ++ (c :: cs ++ r) = (a ++ [c]) ++ (cs ++ r) := by simp
      have hbehind : (a ++ c :: cs).length = ((a ++ [c]) ++ cs).length := by simp
      have hnext : c = '\r' → (cs ++ r).head? ≠ some '\n' := by
        intro hc
        cases cs with
        | nil => exact hcut (by simp [hc])
        | cons d cs => exact fun hhead => hne cs hc (by simpa using hhead)
      have hends : (c == '\n' || (c == '\r' && (cs ++ r).head? != some '\n')) =
          Text.isLineBreak c := by
        rw [Text.isLineBreak]
        by_cases hc : c = '\r'
        · rw [bne_iff_ne.mpr (hnext hc), Bool.and_true]
        · rw [beq_eq_false_iff_ne.mpr hc, Bool.false_and]
      have hone := ofOffset_concat a c (cs ++ r)
      rw [hsplit, hbehind]
      refine ih (a ++ [c]) (hcut.right (a := [c])) ?_
      rw [← hsplit, hp]
      rw [hends] at hone
      simpa [hbreak] using hone.symm

/-! ## Pieces of a source -/

namespace Lexeme

theorem mem_of_numberTail {hex : Bool} {w : Text} (h : numberTail hex w = w.length) :
    ∀ c ∈ w, isNumberTail c = true ∨ c = '+' ∨ c = '-' := by
  match w with
  | [] => simp
  | c :: w =>
      rw [numberTail_cons, List.length_cons] at h
      split at h
      · rename_i hc
        split at h
        · rename_i hsign
          cases w with
          | nil => simp at h
          | cons d w =>
              have hd : d = '+' ∨ d = '-' := by
                simp only [signFollows, Bool.and_eq_true, List.head?_cons, Option.any_some,
                  Bool.or_eq_true, beq_iff_eq] at hsign
                exact hsign.2
              have hlength : numberTail hex w = w.length := by simpa using h
              have hrest := mem_of_numberTail hlength
              exact List.forall_mem_cons.mpr ⟨.inl hc, List.forall_mem_cons.mpr ⟨.inr hd, hrest⟩⟩
        · have hlength : numberTail hex w = w.length := by omega
          have hrest := mem_of_numberTail hlength
          exact List.forall_mem_cons.mpr ⟨.inl hc, hrest⟩
      · cases h
termination_by w.length

theorem mem_operators {w : Text} (h : operatorLength? w = some w.length) :
    w ∈ longOperators ∨ ∃ c ∈ shortOperators, w = [c] := by
  unfold operatorLength? at h
  split at h
  · rename_i op hfind
    obtain ⟨rest, hrest⟩ := List.isPrefixOf_iff_prefix.mp (List.find?_eq_some_iff_append.mp hfind).1
    have hlength : op.length = w.length := Option.some.inj h
    have hop : op = w := List.IsPrefix.eq_of_length ⟨rest, hrest⟩ hlength
    exact .inl (hop ▸ List.mem_of_find?_eq_some hfind)
  · cases w with
    | nil => cases h
    | cons c w =>
        simp only at h
        split at h
        · rename_i hc
          have hw : w = [] := List.length_eq_zero_iff.mp (by simpa using h)
          exact .inr ⟨c, by simpa using hc, by rw [hw]⟩
        · cases h

/-- No word of the program ends with a carriage return. -/
theorem Cuts.getLast?_ne {kind : TokenKind} {w x : Text} (h : Cuts kind w x) :
    w.getLast? ≠ some '\r' := by
  have hall {p : Char → Prop} (hw : ∀ c ∈ w, p c) (hreturn : ¬ p '\r') : w.getLast? ≠ some '\r' :=
    fun hlast => hreturn (hw _ (List.mem_of_getLast? hlast))
  obtain ⟨hkind, c, cs, rfl, hscan⟩ := h.alone
  have hscan' := hscan true .start
  rw [List.append_nil] at hscan'
  rcases scan_kind hscan' with rfl | rfl | rfl | rfl | rfl
  · exact hall (isWord_of_cuts h) (by decide)
  · have hstart := startsNumber_of_cuts h.alone
    rw [List.append_nil] at hstart
    rw [scan_number hstart, Except.ok.injEq, Prod.mk.injEq] at hscan'
    have hpos := numberLength_pos cs (isPlain_of_startsNumber hstart).2
    have htail : numberLength (c :: cs) = (c :: cs).length := by
      rw [List.length_cons]
      omega
    exact hall (mem_of_numberTail htail) (by decide)
  · obtain ⟨q, quote, triple, hquoted, htext⟩ := exists_isQuoted_of_cuts h.alone
    have hquote : quote ≠ '\r' := by
      rintro rfl
      exact absurd hquoted.is_quote (by decide)
    rw [← htext, QuotedText.text_eq, QuotedText.quoted, hquoted.quote_eq, ← List.append_assoc,
      ← List.append_assoc, List.getLast?_append]
    cases triple <;> simpa [quotesOf] using hquote
  · obtain ⟨-, -, hlength⟩ := scan_op_iff.mp hscan'
    have hlong : ∀ op ∈ longOperators, op.getLast? ≠ some '\r' := forall_mem_of_all (by decide)
    have hshort : ∀ d ∈ shortOperators, d ≠ '\r' := forall_mem_of_all (by decide)
    rcases mem_operators hlength with hop | ⟨d, hd, hw⟩
    · exact hlong _ hop
    · rw [hw]
      simpa using hshort d hd
  · exact absurd rfl hkind

/-- A piece that the scanner takes does not divide a terminator. -/
theorem keepsBreaks_scan {inBrackets : Bool} {here : Position} {c : Char} {cs : Text} {piece : Piece}
    {n : Nat} (h : scan inBrackets here c cs = .ok (piece, n)) :
    KeepsBreaks (c :: cs.take n) (cs.drop n) := by
  have hword {kind : TokenKind} {m : Nat} (hpair : (Piece.token kind, m) = (piece, n))
      (hkind : kind ≠ .newline) : KeepsBreaks (c :: cs.take n) (cs.drop n) := by
    obtain ⟨rfl, rfl⟩ := Prod.mk.inj hpair
    exact fun hlast => absurd hlast (cuts_of_scan h hkind).getLast?_ne
  unfold scan at h
  split at h
  · rename_i hindent
    cases h
    exact keepsBreaks_of_forall (by simpa using isLineBreak_of_isIndent hindent) _
  split at h
  · rename_i hslash
    obtain rfl : c = '\\' := by simpa using hslash
    cases cs with
    | nil => cases h
    | cons d cs =>
        simp only at h
        split at h
        · rename_i hd
          obtain ⟨lb, r, hsplit, hlb, hr⟩ := exists_break hd cs
          rw [hsplit, lineBreakLength_of_isBreak hlb hr] at h
          cases h
          rw [hsplit, List.take_left, List.drop_left]
          exact KeepsBreaks.append (a := ['\\']) (by simp [KeepsBreaks]) (keepsBreaks_break hlb hr)
        · cases h
  split at h
  · rename_i hcomment
    obtain rfl : c = '#' := by simpa using hcomment
    obtain ⟨row, rest, rfl, hrow, hrest⟩ := exists_row cs
    rw [lengthWhile_row hrow hrest] at h
    cases h
    rw [List.take_left, List.drop_left]
    exact keepsBreaks_of_forall (List.forall_mem_cons.mpr ⟨by decide, hrow⟩) _
  split at h
  · rename_i hbreak
    obtain ⟨lb, r, hsplit, hlb, hr⟩ := exists_break hbreak cs
    rw [hsplit, lineBreakLength_of_isBreak hlb hr] at h
    obtain rfl : lb.length - 1 = n := (Prod.mk.inj (Except.ok.inj h)).2
    have hlength : lb.length - 1 + 1 = lb.length := Nat.sub_add_cancel hlb.length_pos
    rw [← List.take_succ_cons, ← List.drop_succ_cons, hlength, hsplit, List.take_left, List.drop_left]
    exact keepsBreaks_break hlb hr
  split at h
  · simp only at h
    split at h
    · split at h
      · obtain ⟨m, -, hpair⟩ := exists_of_map_eq_ok h
        exact hword hpair (by simp)
      · exact hword (Except.ok.inj h) (by simp)
    · exact hword (Except.ok.inj h) (by simp)
  split at h
  · obtain ⟨m, -, hpair⟩ := exists_of_map_eq_ok h
    exact hword hpair (by simp)
  split at h
  · exact hword (Except.ok.inj h) (by simp)
  · split at h
    · exact hword (Except.ok.inj h) (by simp)
    · cases h

end Lexeme

theorem keepsBreaks_triviaLines (t : Text) :
    KeepsBreaks (t.take (triviaLinesLength t)) (t.drop (triviaLinesLength t)) := by
  by_cases hline : isTriviaLine (t.take (firstLineLength t)) = true
  · rcases exists_firstLine hline with ⟨row, lb, r, hsplit, hrow, hlb, hr⟩ | ⟨-, hlength⟩
    · have hpos := hlb.length_pos
      have hlength := congrArg List.length hsplit
      have hrest := keepsBreaks_triviaLines r
      rw [hsplit, triviaLinesLength_row hrow hlb hr, ← List.append_assoc, ← List.drop_drop,
        List.drop_left, List.take_length_add_append]
      refine KeepsBreaks.append ?_ hrest
      rw [List.take_append_drop]
      refine KeepsBreaks.append ?_ (keepsBreaks_break hlb hr)
      exact keepsBreaks_of_forall hrow.isLineBreak _
    · by_cases hne : t = []
      · simpa [hne] using keepsBreaks_end _
      rw [triviaLinesLength, dif_neg hne, if_pos hline, hlength, List.drop_length]
      simpa [triviaLinesLength] using keepsBreaks_end _
  · rw [triviaLinesLength_eq_zero hline]
    exact keepsBreaks_nil _
termination_by t.length
decreasing_by simp only [List.length_append] at hlength; omega

/-! ## Positions along a run -/

/-- The tokens behind the text `done` of a source stand at their offsets. Markers of blocks have a place
of another kind. -/
def StandFrom (source : Text) : Text → List Token → Prop
  | _, [] => True
  | done, t :: ts =>
      (t.kind ≠ .indent → t.kind ≠ .dedent →
        t.position = Position.ofOffset source (done ++ t.trivia).length) ∧
      StandFrom source (done ++ t.source) ts

theorem StandFrom.append {source done : Text} {ts us : List Token} (hts : StandFrom source done ts)
    (hus : StandFrom source (done ++ spell ts) us) : StandFrom source done (ts ++ us) := by
  induction ts generalizing done with
  | nil => simpa using hus
  | cons t ts ih =>
      refine ⟨hts.1, ih hts.2 ?_⟩
      rwa [spell_cons, ← List.append_assoc] at hus

theorem StandFrom.position {source done : Text} {before later : List Token} {t : Token}
    (h : StandFrom source done (before ++ t :: later)) (hindent : t.kind ≠ .indent)
    (hdedent : t.kind ≠ .dedent) :
    t.position = Position.ofOffset source (done ++ (spell before ++ t.trivia)).length := by
  induction before generalizing done with
  | nil => exact h.1 hindent hdedent
  | cons u before ih =>
      rw [ih h.2, spell_cons, List.append_assoc, List.append_assoc]

theorem standFrom_markers {source done : Text} {ts : List Token}
    (hts : ∀ t ∈ ts, t.source = [] ∧ (t.kind = .indent ∨ t.kind = .dedent)) :
    StandFrom source done ts := by
  induction ts generalizing done with
  | nil => trivial
  | cons t ts ih =>
      obtain ⟨-, hkind⟩ := hts t (by simp)
      refine ⟨fun hindent hdedent => ?_, ih fun u hu => hts u (by simp [hu])⟩
      rcases hkind with hkind | hkind
      · exact absurd hkind hindent
      · exact absurd hkind hdedent

namespace Cursor

variable {source done : Text} {c c' : Cursor} {ts : List Token}

/-- A cursor that has given out the tokens of the text `done` stands at its offset. -/
structure StandsIn (source done : Text) (c : Cursor) : Prop where
  source_eq : source = (done ++ c.trivia) ++ c.rest
  here_eq : c.here = Position.ofOffset source (done ++ c.trivia).length

theorem standsIn_ofSource (source : Text) : (ofSource source).StandsIn source [] := ⟨rfl, rfl⟩

theorem StandsIn.after (h : c.StandsIn source done) {n : Nat}
    (hcut : KeepsBreaks (c.rest.take n) (c.rest.drop n)) :
    c.here.after (c.rest.take n) =
      Position.ofOffset source ((done ++ c.trivia) ++ c.rest.take n).length := by
  have hmove := Position.after_ofOffset (done ++ c.trivia) (c.rest.take n) (c.rest.drop n) hcut
  rwa [List.take_append_drop, ← h.source_eq, ← h.here_eq] at hmove

theorem StandsIn.skip (h : c.StandsIn source done) {n : Nat}
    (hcut : KeepsBreaks (c.rest.take n) (c.rest.drop n)) : (c.skip n).StandsIn source done where
  source_eq := by simpa [Cursor.skip] using h.source_eq
  here_eq := by simpa [Cursor.skip] using h.after hcut

theorem StandsIn.take (h : c.StandsIn source done) {n : Nat}
    (hcut : KeepsBreaks (c.rest.take n) (c.rest.drop n)) (kind : TokenKind) :
    StandFrom source done [(c.take kind n).1] ∧
      (c.take kind n).2.StandsIn source (done ++ (c.take kind n).1.source) := by
  refine ⟨⟨fun _ _ => h.here_eq, trivial⟩, ⟨?_, ?_⟩⟩
  · simpa [Cursor.take, Token.source] using h.source_eq
  · simpa [Cursor.take, Token.source] using h.after hcut

theorem standsIn_indentTo {width : Nat} (hc : c.StandsIn source done)
    (h : c.indentTo width = .ok (ts, c')) : c'.StandsIn source done := by
  simp only [indentTo] at h
  split at h
  · cases h
    exact ⟨hc.source_eq, hc.here_eq⟩
  split at h
  · split at h
    · cases h
      exact ⟨hc.source_eq, hc.here_eq⟩
    · cases h
  · cases h
    exact hc

theorem standsIn_atLine (hc : c.StandsIn source done) : c.atLine.StandsIn source done := by
  have hbefore : c.beforeLine.StandsIn source done := hc.skip (keepsBreaks_triviaLines c.rest)
  refine hbefore.skip (keepsBreaks_of_forall (fun d hd => ?_) _)
  rw [Text.take_lengthWhile] at hd
  exact isLineBreak_of_isIndent (List.mem_takeWhile_imp hd)

theorem markers_enterLine (h : c.enterLine = .ok (ts, c')) :
    ∀ t ∈ ts, t.source = [] ∧ (t.kind = .indent ∨ t.kind = .dedent) := by
  intro t ht
  refine ⟨((enterLine_markers h).2 t ht).1, ?_⟩
  have hspelling : t.spelling ∈ ts.map Token.spelling := List.mem_map_of_mem ht
  rcases (enterLine_cases h).2 with ⟨-, rfl, -⟩ | ⟨-, -, -, rfl | ⟨hindent, -⟩ | hdedents⟩
  · cases ht
  · cases ht
  · rw [hindent, List.mem_singleton] at hspelling
    exact .inl (congrArg Prod.fst hspelling)
  · exact .inr (congrArg Prod.fst (hdedents t ht))

theorem standsIn_enterLine (hc : c.StandsIn source done) (h : c.enterLine = .ok (ts, c')) :
    StandFrom source done ts ∧ spell ts = [] ∧ c'.StandsIn source done := by
  have hmarkers := markers_enterLine h
  refine ⟨standFrom_markers hmarkers, spell_eq_nil fun t ht => (hmarkers t ht).1, ?_⟩
  cases hstart : c.lineStart with
  | false =>
      rw [enterLine_of_not_lineStart hstart] at h
      cases h
      exact hc
  | true =>
      by_cases hrest : c.atLine.rest = []
      · rw [enterLine_of_end hstart hrest] at h
        cases h
        exact standsIn_atLine hc
      · rw [enterLine_of_line hstart hrest] at h
        have hline := standsIn_atLine hc
        exact standsIn_indentTo (c := c.atLine.inLine) ⟨hline.source_eq, hline.here_eq⟩ h

theorem standsIn_advance {ch : Char} {cs : Text} {t : Option Token} (hc : c.StandsIn source done)
    (hrest : c.rest = ch :: cs) (h : c.advance ch cs = .ok (t, c')) :
    StandFrom source done t.toList ∧ c'.StandsIn source (done ++ spell t.toList) := by
  have hcut {piece : Lexeme.Piece} {n : Nat}
      (hscan : Lexeme.scan (!c.brackets.isEmpty) c.here ch cs = .ok (piece, n)) :
      KeepsBreaks (c.rest.take (n + 1)) (c.rest.drop (n + 1)) := by
    rw [hrest, List.take_succ_cons, List.drop_succ_cons]
    exact Lexeme.keepsBreaks_scan hscan
  unfold advance at h
  split at h
  · cases h
  · rename_i n hscan
    cases h
    exact ⟨trivial, by simpa using hc.skip (hcut hscan)⟩
  · rename_i kind n hscan
    split at h
    · cases h
    · cases h
      obtain ⟨hstands, hnext⟩ := hc.take (hcut hscan) kind
      exact ⟨hstands, by simpa using ⟨hnext.source_eq, hnext.here_eq⟩⟩

theorem standFrom_end (hc : c.StandsIn source done) :
    StandFrom source done
      (c.indents.map (fun _ => marker .dedent c.here) ++ [(c.take .endMarker 0).1]) := by
  have hmarkers : ∀ t ∈ c.indents.map fun _ => marker .dedent c.here,
      t.source = [] ∧ (t.kind = .indent ∨ t.kind = .dedent) := by
    intro t ht
    obtain ⟨_, _, rfl⟩ := List.mem_map.mp ht
    exact ⟨rfl, .inr rfl⟩
  refine (standFrom_markers hmarkers).append ?_
  rw [spell_eq_nil fun t ht => (hmarkers t ht).1, List.append_nil]
  exact (hc.take (n := 0) (keepsBreaks_nil _) .endMarker).1

theorem standFrom_finish (hc : c.StandsIn source done) (h : c.finish = .ok ts) :
    StandFrom source done ts := by
  unfold finish at h
  split at h
  · cases h
  simp only at h
  split at h
  · cases h
    obtain ⟨hnewline, hnext⟩ := hc.take (n := 0) (keepsBreaks_nil _) .newline
    rw [List.append_assoc]
    refine hnewline.append ?_
    simpa using standFrom_end hnext
  · cases h
    exact standFrom_end hc

theorem standFrom_tokens (hc : c.StandsIn source done) (h : c.tokens = .ok ts) :
    StandFrom source done ts := by
  fun_induction tokens c generalizing done ts with
  | case1 c e hl => cases h
  | case2 c markers c₁ hl hr =>
      obtain ⟨us, hus, rfl⟩ := exists_of_map_eq_ok h
      obtain ⟨hmarkers, hbare, hc₁⟩ := standsIn_enterLine hc hl
      refine hmarkers.append ?_
      rw [hbare, List.append_nil]
      exact standFrom_finish hc₁ hus
  | case3 c markers c₁ hl ch cs hr e ha => cases h
  | case4 c markers c₁ hl ch cs hr t c₂ ha ih =>
      obtain ⟨us, hus, rfl⟩ := exists_of_map_eq_ok h
      obtain ⟨hmarkers, hbare, hc₁⟩ := standsIn_enterLine hc hl
      obtain ⟨hstands, hc₂⟩ := standsIn_advance hc₁ hr ha
      have hrest := ih hc₂ hus
      rw [List.append_assoc]
      refine hmarkers.append ?_
      rw [hbare, List.append_nil]
      exact hstands.append hrest

end Cursor

/-- Every token but the markers of blocks stands where the tokens before it and its own trivia end: on
the line that follows the terminators before this offset, in the column behind the characters since the
last of them. -/
theorem position_eq_ofOffset {source : Text} {before later : List Token} {t : Token}
    (h : tokenize source = .ok (before ++ t :: later)) (hindent : t.kind ≠ .indent)
    (hdedent : t.kind ≠ .dedent) :
    t.position = Position.ofOffset source (spell before ++ t.trivia).length :=
  (Cursor.standFrom_tokens (Cursor.standsIn_ofSource source) h).position hindent hdedent

/-- Lines that end inside of a literal of three quotes, in front of a field and behind a backslash, most of
them with terminators of two characters. -/
def brokenLinesSource : Text :=
  "a = [\"\"\"x\r\ny\"\"\",\r\n  f'''\r\x7bb\x7d'''] \\\r\n  + c\r\n".toList

theorem position_eq_ofOffset_brokenLinesSource :
    ∃ before t later, tokenize brokenLinesSource = .ok (before ++ t :: later) ∧ t.text = ['c'] ∧
      t.position = ⟨5, 5⟩ ∧
      t.position = Position.ofOffset brokenLinesSource (spell before ++ t.trivia).length := by
  have hread : (tokenize brokenLinesSource).toOption.any (fun ts =>
      ts[8]?.any fun t => t.text == ['c'] && t.kind == .name && t.position == ⟨5, 5⟩) = true := by
    decide +kernel
  cases hts : tokenize brokenLinesSource with
  | error e => simp [hts, Except.toOption] at hread
  | ok ts =>
      simp only [hts, Except.toOption, Option.any_some, Option.any_eq_true, Bool.and_eq_true,
        beq_iff_eq] at hread
      obtain ⟨t, hget, ⟨htext, hkind⟩, hplace⟩ := hread
      obtain ⟨hlt, hget⟩ := List.getElem?_eq_some_iff.mp hget
      have hsplit : ts = ts.take 8 ++ t :: ts.drop 9 := by
        rw [← hget, ← List.drop_eq_getElem_cons hlt, List.take_append_drop]
      rw [hsplit] at hts
      exact ⟨_, t, _, by rw [← hsplit], htext, hplace,
        position_eq_ofOffset hts (by simp [hkind]) (by simp [hkind])⟩

end SchemaTidy
