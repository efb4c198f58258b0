import SchemaTidy.Proofs.Token.Lexing
import SchemaTidy.Tree.Trailer

/-!
# The structure of tokens

What the lexer promises about the tokens of a source: each word of the program is a token by itself,
brackets match, no line ends and no block is marked between them, and a line ends before blocks are
marked or the source ends.
-/

namespace SchemaTidy

def Token.spelling (t : Token) : TokenKind × Text := (t.kind, t.text)

/-- A text that a token of its kind can have. -/
def IsSpelling (kind : TokenKind) (text : Text) : Prop :=
  (kind.isWord = true → Lexeme.Cuts kind text []) ∧ (kind = .newline → text = [] ∨ IsBreak text)

/-- Whether no line is unfinished behind a token of the given kind. -/
def endsLine : Option TokenKind → Bool
  | none | some .newline | some .dedent => true
  | _ => false

/-- Tokens in the order in which the lexer gives them out, below open brackets and behind a token of
the kind `before`. -/
def WellOrdered : List Char → Option TokenKind → List (TokenKind × Text) → Prop
  | _, _, [] => True
  | brackets, before, (kind, text) :: ts =>
      IsSpelling kind text ∧ (kind.isWord = true ∨ brackets = []) ∧
        (kind.isWord = true ∨ kind = .newline ∨ endsLine before = true) ∧
        ∃ outer, bracketsAfter kind text brackets = some outer ∧ WellOrdered outer (some kind) ts

theorem bracketsAfter_of_ne_op {kind : TokenKind} (h : kind ≠ .op) (w : Text) (brackets : List Char) :
    bracketsAfter kind w brackets = some brackets := by
  unfold bracketsAfter
  split
  · exact absurd rfl h
  · rfl

theorem bracketsAfter_of_account {c : Char} {at_ : Position} {brackets outer : List (Char × Position)}
    (h : Cursor.account c at_ brackets = .ok outer) (w : Text) :
    bracketsAfter .op (c :: w) (brackets.map Prod.fst) = some (outer.map Prod.fst) := by
  unfold Cursor.account at h
  unfold bracketsAfter
  simp only
  split at h
  · rename_i hopening
    cases h
    simp [hopening]
  split at h
  · rename_i hopening hclosing
    simp only [hopening, Bool.false_eq_true, if_false, hclosing, if_true]
    split at h
    · cases h
    · split at h
      · rename_i hmatch
        cases h
        simp [hmatch]
      · cases h
  · rename_i hopening hclosing
    cases h
    simp [hopening, hclosing]

theorem Lexeme.scan_newline {inBrackets : Bool} {here : Position} {c : Char} {cs : Text} {n : Nat}
    (h : scan inBrackets here c cs = .ok (.token .newline, n)) :
    inBrackets = false ∧ IsBreak (c :: cs.take n) := by
  unfold scan at h
  split at h
  · cases h
  split at h
  · split at h
    · cases h
    · split at h <;> cases h
  split at h
  · cases h
  split at h
  · rename_i hbreak
    simp only [Except.ok.injEq, Prod.mk.injEq] at h
    obtain ⟨hpiece, rfl⟩ := h
    refine ⟨by cases inBrackets <;> simp_all, ?_⟩
    have hc : c = '\n' ∨ c = '\r' := by simpa [Text.isLineBreak] using hbreak
    cases cs with
    | nil =>
        rcases hc with rfl | rfl
        · exact .inl rfl
        · exact .inr (.inr rfl)
    | cons d cs =>
        rw [Text.lineBreakLength_cons_cons]
        rcases hc with rfl | rfl
        · exact .inl rfl
        · by_cases hd : d = '\n'
          · subst hd
            exact .inr (.inl rfl)
          · simp [hd, Text.isLineBreak, IsBreak]
  split at h
  · simp only at h
    split at h
    · split at h
      · obtain ⟨m, -, hpair⟩ := exists_of_map_eq_ok h
        simp at hpair
      · simp at h
    · simp at h
  split at h
  · obtain ⟨m, -, hpair⟩ := exists_of_map_eq_ok h
    simp at hpair
  split at h
  · simp at h
  · split at h <;> simp at h

namespace Cursor

theorem indentTo_cases {c c' : Cursor} {width : Nat} {ts : List Token}
    (h : c.indentTo width = .ok (ts, c')) :
    c'.brackets = c.brackets ∧ c'.lineStart = c.lineStart ∧
      ((ts = [] ∧ c'.last = c.last) ∨
        (ts.map Token.spelling = [(.indent, [])] ∧ c'.last = some .indent) ∨
        (∀ t ∈ ts, t.spelling = (.dedent, []))) := by
  simp only [indentTo] at h
  split at h
  · cases h
    exact ⟨rfl, rfl, .inr (.inl ⟨rfl, rfl⟩)⟩
  split at h
  · split at h
    · cases h
      refine ⟨rfl, rfl, .inr (.inr ?_)⟩
      intro t ht
      obtain ⟨_, _, rfl⟩ := List.mem_map.mp ht
      rfl
    · cases h
  · cases h
    exact ⟨rfl, rfl, .inl ⟨rfl, rfl⟩⟩

/-- Entering a line marks blocks only at the start of one, and leaves the start of a line unless the
source has ended. -/
theorem enterLine_cases {c c' : Cursor} {ts : List Token} (h : c.enterLine = .ok (ts, c')) :
    c'.brackets = c.brackets ∧
      ((c.lineStart = false ∧ ts = [] ∧ c' = c) ∨
        (c.lineStart = true ∧ (c'.rest = [] → ts = []) ∧ (c'.rest ≠ [] → c'.lineStart = false) ∧
          (ts = [] ∨ (ts.map Token.spelling = [(.indent, [])] ∧ c'.last = some .indent) ∨
            ∀ t ∈ ts, t.spelling = (.dedent, [])))) := by
  unfold enterLine at h
  split at h
  · rename_i hstart
    simp only at h
    split at h
    · rename_i hrest
      cases h
      refine ⟨rfl, .inr ⟨hstart, fun _ => rfl, fun hne => ?_, .inl rfl⟩⟩
      exact absurd (List.isEmpty_iff.mp hrest) hne
    · rename_i hrest
      obtain ⟨hbrackets, hstart', hcases⟩ := indentTo_cases h
      have hne : c'.rest ≠ [] := by
        rw [rest_indentTo h]
        simpa using hrest
      refine ⟨hbrackets, .inr ⟨hstart, fun hr => absurd hr hne, fun _ => hstart', ?_⟩⟩
      rcases hcases with ⟨hnil, -⟩ | hindent | hdedent
      · exact .inl hnil
      · exact .inr (.inl hindent)
      · exact .inr (.inr hdedent)
  · rename_i hstart
    cases h
    exact ⟨rfl, .inl ⟨by simpa using hstart, rfl, rfl⟩⟩

/-- What one move gives out: trivia, which leaves everything else as it is, or a word of the program
or the end of a line. -/
theorem advance_cases {c c' : Cursor} {ch : Char} {cs : Text} {t : Option Token}
    (hrest : c.rest = ch :: cs) (h : c.advance ch cs = .ok (t, c')) :
    (t = none ∧ c'.brackets = c.brackets ∧ c'.lineStart = c.lineStart ∧ c'.last = c.last) ∨
      ∃ u, t = some u ∧ IsSpelling u.kind u.text ∧
        (u.kind.isWord = true ∨ u.kind = .newline ∧ c.brackets = []) ∧
        bracketsAfter u.kind u.text (c.brackets.map Prod.fst) = some (c'.brackets.map Prod.fst) ∧
        c'.lineStart = (u.kind == .newline) ∧ c'.last = some u.kind := by
  unfold advance at h
  split at h
  · cases h
  · cases h
    exact .inl ⟨rfl, rfl, rfl, rfl⟩
  · rename_i kind n hscan
    split at h
    · cases h
    · rename_i brackets haccount
      cases h
      refine .inr ⟨_, rfl, ?_⟩
      have htext : c.rest.take (n + 1) = ch :: cs.take n := by rw [hrest, List.take_succ_cons]
      show IsSpelling kind (c.rest.take (n + 1)) ∧
        (kind.isWord = true ∨ kind = .newline ∧ c.brackets = []) ∧
        bracketsAfter kind (c.rest.take (n + 1)) (c.brackets.map Prod.fst) =
          some (brackets.map Prod.fst) ∧ (kind == .newline) = (kind == .newline) ∧
        some kind = some kind
      rw [htext]
      have hsame : kind ≠ .op → brackets = c.brackets := by
        intro hop
        have hb : c.brackets = brackets := by simpa [hop] using haccount
        exact hb.symm
      by_cases hnewline : kind = .newline
      · subst hnewline
        obtain ⟨houtside, hbreak⟩ := Lexeme.scan_newline hscan
        have hb : c.brackets = [] := by simpa using houtside
        refine ⟨⟨by simp [TokenKind.isWord], fun _ => .inr hbreak⟩, .inr ⟨rfl, hb⟩, ?_, rfl, rfl⟩
        rw [hsame (by simp)]
        exact bracketsAfter_of_ne_op (by simp) _ _
      · have hword : kind.isWord = true := by
          rcases Lexeme.scan_kind hscan with rfl | rfl | rfl | rfl | rfl <;>
            first | rfl | contradiction
        refine ⟨⟨fun _ => (Lexeme.cuts_of_scan hscan hnewline).alone, fun hk => absurd hk hnewline⟩,
          .inl hword, ?_, rfl, rfl⟩
        by_cases hop : kind = .op
        · subst hop
          exact bracketsAfter_of_account (by simpa using haccount) _
        · rw [hsame hop]
          exact bracketsAfter_of_ne_op hop _ _

end Cursor

theorem wellOrdered_dedents {before : Option TokenKind} {ds : List Token}
    {us : List (TokenKind × Text)} (hbefore : endsLine before = true)
    (hds : ∀ t ∈ ds, t.spelling = (.dedent, []))
    (hus : ∀ before, endsLine before = true → WellOrdered [] before us) :
    WellOrdered [] before (ds.map Token.spelling ++ us) := by
  induction ds generalizing before with
  | nil => exact hus before hbefore
  | cons t ds ih =>
      rw [List.map_cons, List.cons_append, hds t (by simp), WellOrdered]
      refine ⟨⟨by simp [TokenKind.isWord], by simp⟩, .inr rfl, .inr (.inr hbefore), [], rfl, ?_⟩
      exact ih rfl fun u hu => hds u (by simp [hu])

/-- Whether a line is unfinished behind the last token. -/
def Cursor.isUnfinished (c : Cursor) : Bool :=
  c.last.any fun kind => kind != .newline && kind != .dedent

theorem wellOrdered_finish {c : Cursor} {before : Option TokenKind} {ts : List Token}
    (hbefore : endsLine before = false → c.isUnfinished = true)
    (h : c.finish = .ok ts) : WellOrdered (c.brackets.map Prod.fst) before (ts.map Token.spelling) := by
  have hdedents (p : Position) (e : Token) (he : e.spelling = (.endMarker, []))
      (before : Option TokenKind) (hbefore : endsLine before = true) :
      WellOrdered [] before
        ((c.indents.map (fun _ => Cursor.marker .dedent p) ++ [e]).map Token.spelling) := by
    rw [List.map_append]
    refine wellOrdered_dedents hbefore ?_ ?_
    · intro t ht
      obtain ⟨_, _, rfl⟩ := List.mem_map.mp ht
      rfl
    · intro before hbefore
      rw [List.map_singleton, he]
      exact ⟨⟨by simp [TokenKind.isWord], by simp⟩, .inr rfl, .inr (.inr hbefore), [], rfl, trivial⟩
  unfold Cursor.finish at h
  split at h
  · cases h
  · rename_i hb
    rw [hb]
    simp only at h
    split at h
    · cases h
      rw [List.append_assoc, List.map_append]
      refine ⟨⟨by simp [TokenKind.isWord, Cursor.take], fun _ => .inl rfl⟩, .inr rfl,
        .inr (.inl rfl), [], rfl, ?_⟩
      exact hdedents _ _ rfl _ rfl
    · rename_i hfinished
      cases h
      refine hdedents _ _ rfl before ?_
      cases hends : endsLine before with
      | true => rfl
      | false => exact absurd (hbefore hends) hfinished

theorem wellOrdered_tokens {c : Cursor} {before : Option TokenKind} {ts : List Token}
    (hstart : c.lineStart = true → c.brackets = [])
    (hbefore : endsLine before = false → c.lineStart = false ∧ c.isUnfinished = true)
    (h : c.tokens = .ok ts) :
    WellOrdered (c.brackets.map Prod.fst) before (ts.map Token.spelling) := by
  fun_induction Cursor.tokens c generalizing before ts with
  | case1 c e hl => cases h
  | case2 c markers c₁ hl hr =>
      obtain ⟨us, hus, rfl⟩ := exists_of_map_eq_ok h
      obtain ⟨hb, ⟨-, rfl, rfl⟩ | ⟨hline, hmarkers, -, -⟩⟩ := Cursor.enterLine_cases hl
      · exact wellOrdered_finish (fun hi => (hbefore hi).2) hus
      · rw [hmarkers hr, ← hb]
        refine wellOrdered_finish (fun hi => ?_) hus
        have := (hbefore hi).1
        simp [hline] at this
  | case3 c markers c₁ hl ch cs hr e ha => cases h
  | case4 c markers c₁ hl ch cs hr t c₂ ha ih =>
      obtain ⟨us, hus, rfl⟩ := exists_of_map_eq_ok h
      have hstep : ∀ before, c₁.lineStart = false →
          (endsLine before = false → c₁.isUnfinished = true) →
          WellOrdered (c₁.brackets.map Prod.fst) before ((t.toList ++ us).map Token.spelling) := by
        intro before hline hends
        rcases Cursor.advance_cases hr ha with ⟨rfl, hb, hline', hlast⟩ |
          ⟨u, rfl, hspelling, hkind, hbrackets, hline', hlast⟩
        · rw [← hb]
          refine ih (fun hl => ?_) (fun hi => ⟨hline'.trans hline, ?_⟩) hus
          · rw [hline', hline] at hl
            cases hl
          · rw [Cursor.isUnfinished, hlast]
            exact hends hi
        · refine ⟨hspelling, ?_, ?_, _, hbrackets, ?_⟩
          · rcases hkind with hword | ⟨-, hb⟩
            · exact .inl hword
            · exact .inr (by simp [hb])
          · rcases hkind with hword | ⟨hnewline, -⟩
            · exact .inl hword
            · exact .inr (.inl hnewline)
          rcases hkind with hword | ⟨hnewline, hb⟩
          · have hplain : (u.kind == .newline) = false ∧ (u.kind == .dedent) = false := by
              cases hk : u.kind <;> simp [hk, TokenKind.isWord] at hword ⊢
            refine ih (fun hl => ?_) (fun _ => ⟨hline'.trans hplain.1, ?_⟩) hus
            · rw [hline', hplain.1] at hl
              cases hl
            · simp [Cursor.isUnfinished, hlast, bne, hplain]
          · refine ih (fun _ => ?_) (fun hi => ?_) hus
            · rw [hnewline, hb, bracketsAfter_of_ne_op (by simp)] at hbrackets
              simpa using (Option.some.inj hbrackets).symm
            · simp [hnewline, endsLine] at hi
      rw [List.append_assoc, List.map_append]
      obtain ⟨hb, ⟨hline, rfl, rfl⟩ | ⟨hline, -, hnext, hmarkers⟩⟩ := Cursor.enterLine_cases hl
      · exact hstep before hline fun hi => (hbefore hi).2
      · have hends : endsLine before = true := by
          cases hends : endsLine before with
          | true => rfl
          | false =>
              have := (hbefore hends).1
              simp [hline] at this
        have hline' := hnext (by simp [hr])
        have hnil := hstart hline
        rw [hb, hnil] at hstep
        rw [hnil]
        rcases hmarkers with rfl | ⟨hindent, hlast⟩ | hdedent
        · exact hstep before hline' fun hi => by simp [hends] at hi
        · rw [hindent]
          refine ⟨⟨by simp [TokenKind.isWord], by simp⟩, .inr rfl, .inr (.inr hends), [], rfl, ?_⟩
          exact hstep _ hline' fun _ => by simp [Cursor.isUnfinished, hlast]
        · exact wellOrdered_dedents hends hdedent fun before hends =>
            hstep before hline' fun hi => by simp [hends] at hi

theorem spelling_fillDedents (run : List (Nat × Token)) (trivia : Text) :
    (fillDedents run trivia).1.map Token.spelling = run.map (·.2.spelling) := by
  induction run generalizing trivia with
  | nil => rfl
  | cons r run ih =>
      simp only [fillDedents, List.map_cons, ih]
      split <;> rfl

theorem spelling_attachTrailersFrom (columns : List Nat) (run : List (Nat × Token))
    (ts : List Token) : (attachTrailersFrom columns run ts).map Token.spelling =
      run.map (·.2.spelling) ++ ts.map Token.spelling := by
  induction ts generalizing columns run with
  | nil => simp [attachTrailersFrom]
  | cons t ts ih =>
      rw [attachTrailersFrom]
      split
      · simp [ih]
      · simp only [List.map_append, spelling_fillDedents, List.map_cons, ih, List.map_nil,
          List.nil_append]
        rfl

theorem spelling_attachTrailers (ts : List Token) :
    (attachTrailers ts).map Token.spelling = ts.map Token.spelling :=
  spelling_attachTrailersFrom [] [] ts

theorem wellOrdered_tokenize {source : Text} {ts : List Token} (h : tokenize source = .ok ts) :
    WellOrdered [] none (ts.map Token.spelling) := by
  have hbefore : endsLine none = false → (Cursor.ofSource source).lineStart = false ∧
      (Cursor.ofSource source).isUnfinished = true := by simp [endsLine]
  exact wellOrdered_tokens (fun _ => rfl) hbefore h

end SchemaTidy
