import SchemaTidy.Proofs.Token.Literal

/-!
# Where a token ends

The scanner cuts a token off the text that starts with it. What follows matters in its first
characters only: a token is cut off in the same way when it is followed by something that cannot
continue it.
-/

namespace SchemaTidy

theorem Text.lengthWhile_append_eq {p : Char → Bool} {cs r : Text} :
    lengthWhile p (cs ++ r) = cs.length ↔
      (∀ c ∈ cs, p c = true) ∧ ∀ c, r.head? = some c → p c = false := by
  induction cs with
  | nil =>
      cases r with
      | nil => simp [lengthWhile]
      | cons c r =>
          cases hc : p c <;> simp [lengthWhile, hc]
  | cons c cs ih =>
      simp only [lengthWhile] at ih
      cases hc : p c <;> simp [lengthWhile, hc, ih]

namespace Lexeme

theorem forall_mem_of_all {α : Type} {l : List α} {p : α → Prop} [DecidablePred p]
    (h : l.all (fun a => decide (p a)) = true) : ∀ a ∈ l, p a := by
  simpa using h

/-- Characters that stand behind the first one in operators. -/
def operatorTails : Text := "*/><=.".toList

/-- Whether a character cannot continue a token of the given kind. -/
def Harmless (kind : TokenKind) (c : Char) : Prop :=
  match kind with
  | .name => Text.isWord c = false ∧ c ≠ '"' ∧ c ≠ '\''
  | .number => Text.isWord c = false ∧ c ≠ '.' ∧ c ≠ '+' ∧ c ≠ '-'
  | .string => c ≠ '"' ∧ c ≠ '\''
  | _ => c ∉ operatorTails ∧ c.isDigit = false

/-- Whether a text cannot continue a token of the given kind. -/
def Ends (kind : TokenKind) (y : Text) : Prop := ∀ c, y.head? = some c → Harmless kind c

def isNumberTail (c : Char) : Bool := Text.isWord c || c == '.'

/-- Whether a text goes on with the sign of an exponent after the character `c`. -/
def signFollows (hex : Bool) (c : Char) (r : Text) : Bool :=
  !hex && (c == 'e' || c == 'E') && r.head?.any fun sign => sign == '+' || sign == '-'

theorem numberTail_cons (hex : Bool) (c : Char) (r : Text) :
    numberTail hex (c :: r) =
      if isNumberTail c then
        if signFollows hex c r then numberTail hex r.tail + 2 else numberTail hex r + 1
      else 0 := by
  cases r with
  | nil => simp [numberTail, isNumberTail, signFollows]
  | cons d r =>
      rw [numberTail]
      rfl

theorem numberTail_eq_zero {hex : Bool} {r : Text} :
    numberTail hex r = 0 ↔ ∀ c, r.head? = some c → isNumberTail c = false := by
  cases r with
  | nil => simp [numberTail]
  | cons c r =>
      rw [numberTail_cons]
      cases hc : isNumberTail c
      · simp [hc]
      · simp only [if_true, List.head?_cons, Option.some.injEq, forall_eq', hc]
        split <;> simp

theorem numberTail_append {hex : Bool} {w r r' : Text} (h : numberTail hex (w ++ r) = w.length)
    (hr : r'.head? = r.head? ∨ Ends .number r') : numberTail hex (w ++ r') = w.length := by
  match w with
  | [] =>
      refine numberTail_eq_zero.mpr fun c hc => ?_
      rcases hr with hr | hr
      · exact numberTail_eq_zero.mp h c (hr ▸ hc)
      · obtain ⟨hword, hpoint, -⟩ := hr c hc
        simp [isNumberTail, hword, hpoint]
  | c :: w =>
      rw [List.cons_append, numberTail_cons] at h ⊢
      have hc : isNumberTail c = true := by
        cases hc : isNumberTail c with
        | true => rfl
        | false => simp [hc] at h
      simp only [hc, if_true, List.length_cons] at h ⊢
      cases w with
      | nil =>
          have hsign : signFollows hex c ([] ++ r) = false := by
            cases hsign : signFollows hex c ([] ++ r) with
            | false => rfl
            | true =>
                simp only [hsign, if_true, List.length_nil] at h
                omega
          have hsign' : signFollows hex c ([] ++ r') = false := by
            rcases hr with hr | hr
            · simpa [signFollows, hr] using hsign
            · cases hhead : r'.head? with
              | none => simp [signFollows, hhead]
              | some d =>
                  obtain ⟨-, -, hplus, hminus⟩ := hr d hhead
                  simp [signFollows, hhead, hplus, hminus]
          simp only [hsign, hsign', Bool.false_eq_true, if_false, Nat.add_right_cancel_iff] at h ⊢
          exact numberTail_append h hr
      | cons d w =>
          have hsame : signFollows hex c (d :: w ++ r') = signFollows hex c (d :: w ++ r) := rfl
          rw [hsame]
          by_cases hsign : signFollows hex c (d :: w ++ r) = true
          · rw [if_pos hsign] at h ⊢
            simp only [List.cons_append, List.tail_cons, List.length_cons] at h ⊢
            rw [numberTail_append (by omega) hr]
          · rw [if_neg hsign] at h ⊢
            rw [numberTail_append (by omega) hr]
termination_by w.length

theorem stop_of_numberTail {hex : Bool} {w r : Text} (h : numberTail hex (w ++ r) = w.length) :
    ∀ d, r.head? = some d → isNumberTail d = false := by
  match w with
  | [] => exact numberTail_eq_zero.mp h
  | c :: w =>
      rw [List.cons_append, numberTail_cons, List.length_cons] at h
      split at h
      · split at h
        · cases w with
          | nil => simp at h
          | cons d w =>
              rw [List.cons_append, List.tail_cons, List.length_cons] at h
              exact stop_of_numberTail (Nat.add_right_cancel h)
        · exact stop_of_numberTail (Nat.add_right_cancel h)
      · cases h
termination_by w.length

/-- Whether a number starts with the mark of a hexadecimal one. -/
def hasHexMark (cs : Text) : Bool := "0x".toList.isPrefixOf cs || "0X".toList.isPrefixOf cs

theorem hasHexMark_of_stop (c : Char) {r : Text} (h : ∀ d, r.head? = some d → isNumberTail d = false) :
    hasHexMark (c :: r) = false := by
  cases r with
  | nil => simp [hasHexMark, List.isPrefixOf]
  | cons d r =>
      have hd := h d rfl
      have hlower : 'x' ≠ d := by
        rintro rfl
        revert hd
        decide
      have hupper : 'X' ≠ d := by
        rintro rfl
        revert hd
        decide
      simp [hasHexMark, List.isPrefixOf, hlower, hupper]

theorem numberLength_append {c : Char} {cs r r' : Text}
    (h : numberLength (c :: (cs ++ r)) = cs.length + 1)
    (hr : r'.head? = r.head? ∨ Ends .number r') :
    numberLength (c :: (cs ++ r')) = cs.length + 1 := by
  have hmark (cs : Text) : numberLength cs = numberTail (hasHexMark cs) cs := rfl
  rw [hmark] at h ⊢
  cases cs with
  | cons d cs =>
      have hsame : hasHexMark (c :: (d :: cs ++ r')) = hasHexMark (c :: (d :: cs ++ r)) := by
        simp only [hasHexMark, String.reduceToList, List.cons_append, List.isPrefixOf]
      rw [hsame]
      exact numberTail_append (w := c :: d :: cs) h hr
  | nil =>
      rw [List.nil_append] at h ⊢
      have hstop := stop_of_numberTail (w := [c]) h
      have hstop' : ∀ d, r'.head? = some d → isNumberTail d = false := by
        intro d hd
        rcases hr with hr | hr
        · exact hstop d (hr ▸ hd)
        · obtain ⟨hword, hpoint, -⟩ := hr d hd
          simp [isNumberTail, hword, hpoint]
      rw [hasHexMark_of_stop c hstop] at h
      rw [hasHexMark_of_stop c hstop']
      exact numberTail_append (w := [c]) h hr

theorem numberLength_pos {c : Char} (cs : Text) (h : isNumberTail c = true) :
    0 < numberLength (c :: cs) := by
  unfold numberLength
  rw [numberTail_cons, if_pos h]
  split <;> omega

theorem mem_operatorTails {op : Text} (h : op ∈ longOperators) :
    ∀ c ∈ op.tail, c ∈ operatorTails := by
  have htails : ∀ o ∈ longOperators, o.tail.all operatorTails.contains = true :=
    forall_mem_of_all (by decide)
  simpa using htails op h

theorem operatorLength?_pos {cs : Text} {n : Nat} (h : operatorLength? cs = some n) : 0 < n := by
  unfold operatorLength? at h
  split at h
  · rename_i op hfind
    have hlong : ∀ o ∈ longOperators, 0 < o.length := by decide
    cases h
    exact hlong op (List.mem_of_find?_eq_some hfind)
  · split at h
    · split at h <;> cases h
      omega
    · cases h

/-- An operator that is a leading part of a text stays one when what follows is exchanged, unless
what follows can continue it. -/
theorem isPrefixOf_append_of_ends {op w x y : Text} (hop : op ∈ longOperators) (hw : w ≠ [])
    (hy : Ends .op y) (h : op.isPrefixOf (w ++ (x ++ y)) = true) (z : Text) :
    op.isPrefixOf (w ++ (x ++ z)) = true := by
  rw [List.isPrefixOf_iff_prefix] at h ⊢
  obtain ⟨t, ht⟩ := h
  rw [← List.append_assoc] at ht ⊢
  rcases List.append_eq_append_iff.mp ht with ⟨a, ha, -⟩ | ⟨rest, hrest, hy'⟩
  · rw [ha, List.append_assoc]
    exact List.prefix_append _ _
  · cases rest with
    | nil =>
        rw [hrest, List.append_nil]
        exact List.prefix_append _ _
    | cons c rest =>
        have hmem : c ∈ op.tail := by
          obtain ⟨d, w, rfl⟩ := List.exists_cons_of_ne_nil hw
          simp [hrest]
        exact absurd (mem_operatorTails hop c hmem) (hy c (by simp [hy'])).1

theorem operatorLength?_append {c : Char} {cs x y z : Text}
    (h : operatorLength? (c :: (cs ++ (x ++ z))) = some (cs.length + 1)) (hy : Ends .op y) :
    operatorLength? (c :: (cs ++ (x ++ y))) = some (cs.length + 1) := by
  have hsub : ∀ op ∈ longOperators, op.isPrefixOf (c :: (cs ++ (x ++ y))) = true →
      op.isPrefixOf (c :: (cs ++ (x ++ z))) = true :=
    fun op hop hstarts => isPrefixOf_append_of_ends (w := c :: cs) hop (by simp) hy hstarts z
  unfold operatorLength? at h ⊢
  cases hfind : longOperators.find? (·.isPrefixOf (c :: (cs ++ (x ++ z)))) with
  | none =>
      have hfind' : longOperators.find? (·.isPrefixOf (c :: (cs ++ (x ++ y)))) = none := by
        rw [List.find?_eq_none] at hfind ⊢
        exact fun op hop hstarts => hfind op hop (hsub op hop hstarts)
      rw [hfind] at h
      rw [hfind']
      exact h
  | some op =>
      rw [hfind] at h
      simp only [Option.some.injEq] at h
      obtain ⟨hstarts, before, after, hlist, hbefore⟩ := List.find?_eq_some_iff_append.mp hfind
      have hop : op = c :: cs := by
        have hp : op <+: c :: (cs ++ (x ++ z)) := List.isPrefixOf_iff_prefix.mp hstarts
        have hw : c :: cs <+: c :: (cs ++ (x ++ z)) := List.prefix_append (c :: cs) _
        exact (List.prefix_of_prefix_length_le hp hw (by simp [h])).eq_of_length (by simp [h])
      have hfind' : longOperators.find? (·.isPrefixOf (c :: (cs ++ (x ++ y)))) = some op := by
        refine List.find?_eq_some_iff_append.mpr ⟨?_, before, after, hlist, ?_⟩
        · rw [hop, List.isPrefixOf_iff_prefix]
          exact List.prefix_append (c :: cs) _
        · intro o ho
          have hmem : o ∈ longOperators := by simp [hlist, ho]
          have hno := hbefore o ho
          simp only [Bool.not_eq_true'] at hno ⊢
          cases hnew : o.isPrefixOf (c :: (cs ++ (x ++ y))) with
          | false => rfl
          | true => exact absurd (hsub o hmem hnew) (by simp [hno])
      rw [hfind']
      exact congrArg some h

/-- Whether a word stands before the quote `q` as the marks of a literal. -/
def marksLiteral (word : Text) (q : Char) : Bool :=
  (q == '"' || q == '\'') && literalMarks.contains (Text.lower word)

/-- The token that starts with the letter or underscore `c`. -/
def scanWord (here : Position) (c : Char) (cs : Text) : Except ParseError (Piece × Nat) :=
  let n := Text.lengthWhile Text.isWord cs
  let word := c :: cs.take n
  match cs.drop n with
  | q :: rest =>
      if marksLiteral word q then
        (literalLength ((Text.lower word).contains 'f') here (here.after word) q (q :: rest)).map
          fun m => (.token .string, n + m)
      else .ok (.token .name, n)
  | [] => .ok (.token .name, n)

theorem scanWord_append {here : Position} {c : Char} {cs r r' : Text} {kind : TokenKind}
    (h : scanWord here c (cs ++ r) = .ok (.token kind, cs.length))
    (hr : r'.head? = r.head? ∨ Ends kind r') (here₂ : Position) :
    scanWord here₂ c (cs ++ r') = .ok (.token kind, cs.length) := by
  unfold scanWord at h ⊢
  by_cases hlong : Text.lengthWhile Text.isWord (cs ++ r) < cs.length
  · -- The word ends inside the token, so the token is a literal.
    rw [Text.lengthWhile_append_of_lt r' hlong]
    generalize Text.lengthWhile Text.isWord (cs ++ r) = j at h hlong ⊢
    have hj := Nat.le_of_lt hlong
    obtain ⟨q, b, hb⟩ : ∃ q b, cs.drop j = q :: b :=
      List.exists_cons_of_ne_nil (by simpa using hlong)
    have hlength : b.length + 1 = cs.length - j := by
      rw [← List.length_drop, hb, List.length_cons]
    simp only [List.take_append_of_le_length hj, List.drop_append_of_le_length hj, hb,
      List.cons_append] at h ⊢
    by_cases hmark : marksLiteral (c :: cs.take j) q = true
    · simp only [hmark, if_true] at h ⊢
      obtain ⟨m, hm, hpair⟩ := exists_of_map_eq_ok h
      simp only [Prod.mk.injEq, Piece.token.injEq] at hpair
      obtain ⟨rfl, hpair⟩ := hpair
      obtain ⟨-, -, hsame⟩ := literalLength_append hm
      obtain rfl : m = b.length + 1 := by omega
      rw [List.take_succ_cons, List.take_left, List.drop_succ_cons, List.drop_left] at hsame
      have hnext : b.length + 1 = 2 → r'.head? = r.head? ∨ r'.head? ≠ some q := by
        intro _
        rcases hr with hr | hr
        · exact .inl hr
        · refine .inr fun hq => ?_
          obtain ⟨hdouble, hsingle⟩ := hr q hq
          simp [marksLiteral, hdouble, hsingle] at hmark
      simp only [List.cons_append] at hsame
      rw [hsame _ _ _ hnext]
      simp only [Except.map, hpair]
    · simp only [hmark, Bool.false_eq_true, if_false, Except.ok.injEq, Prod.mk.injEq] at h
      omega
  · have hname : kind = .name ∧ Text.lengthWhile Text.isWord (cs ++ r) = cs.length ∧
        ∀ q, r.head? = some q → marksLiteral (c :: cs) q = false := by
      simp only at h
      split at h
      · rename_i q rest hdrop
        split at h
        · obtain ⟨m, hm, hpair⟩ := exists_of_map_eq_ok h
          obtain ⟨htwo, -, -⟩ := literalLength_append hm
          simp only [Prod.mk.injEq] at hpair
          omega
        · rename_i hmark
          simp only [Except.ok.injEq, Prod.mk.injEq, Piece.token.injEq] at h
          obtain ⟨rfl, hlength⟩ := h
          rw [hlength, List.drop_left] at hdrop
          rw [hlength, List.take_left] at hmark
          refine ⟨rfl, hlength, ?_⟩
          rw [hdrop]
          simpa using hmark
      · rename_i hdrop
        simp only [Except.ok.injEq, Prod.mk.injEq, Piece.token.injEq] at h
        obtain ⟨rfl, hlength⟩ := h
        rw [hlength, List.drop_left] at hdrop
        exact ⟨rfl, hlength, by simp [hdrop]⟩
    obtain ⟨rfl, hlength, hmark⟩ := hname
    obtain ⟨hword, hstop⟩ := Text.lengthWhile_append_eq.mp hlength
    have hlength' : Text.lengthWhile Text.isWord (cs ++ r') = cs.length := by
      refine Text.lengthWhile_append_eq.mpr ⟨hword, fun d hd => ?_⟩
      rcases hr with hr | hr
      · exact hstop d (hr ▸ hd)
      · exact (hr d hd).1
    rw [hlength']
    simp only [List.drop_left, List.take_left]
    cases r' with
    | nil => rfl
    | cons q rest =>
        have hq : marksLiteral (c :: cs) q = false := by
          rcases hr with hr | hr
          · exact hmark q (hr ▸ rfl)
          · obtain ⟨-, hdouble, hsingle⟩ := hr q rfl
            simp [marksLiteral, hdouble, hsingle]
        simp only [hq, Bool.false_eq_true, if_false]

/-- A token is cut off in the same way when what follows it is exchanged for something that cannot
continue it, wherever it stands. -/
theorem scan_append {inBrackets : Bool} {here : Position} {c : Char} {cs x y z : Text}
    {kind : TokenKind} (h : scan inBrackets here c (cs ++ (x ++ z)) = .ok (.token kind, cs.length))
    (hkind : kind ≠ .newline) (hy : y = z ∨ (kind = .op ∨ x = [] → Ends kind y))
    (inBrackets₂ : Bool) (here₂ : Position) :
    scan inBrackets₂ here₂ c (cs ++ (x ++ y)) = .ok (.token kind, cs.length) := by
  have hhead : (x ++ y).head? = (x ++ z).head? ∨ Ends kind (x ++ y) := by
    rcases hy with rfl | hy
    · exact .inl rfl
    · cases x with
      | nil => exact .inr (hy (.inr rfl))
      | cons d x => exact .inl rfl
  unfold scan at h ⊢
  by_cases hindent : Text.isIndent c = true
  · simp [hindent] at h
  simp only [hindent, Bool.false_eq_true, if_false] at h ⊢
  by_cases hslash : (c == '\\') = true
  · simp only [hslash, if_true] at h
    split at h
    · cases h
    · split at h <;> cases h
  simp only [hslash, Bool.false_eq_true, if_false] at h ⊢
  by_cases hcomment : (c == '#') = true
  · simp [hcomment] at h
  simp only [hcomment, Bool.false_eq_true, if_false] at h ⊢
  by_cases hbreak : Text.isLineBreak c = true
  · simp only [hbreak, if_true, Except.ok.injEq, Prod.mk.injEq] at h
    cases inBrackets with
    | true => simp at h
    | false =>
        simp only [Bool.false_eq_true, if_false, Piece.token.injEq] at h
        exact absurd h.1.symm hkind
  simp only [hbreak, Bool.false_eq_true, if_false] at h ⊢
  by_cases hword : Text.isWordStart c = true
  · simp only [hword, if_true] at h ⊢
    exact scanWord_append (r := x ++ z) h hhead here₂
  simp only [hword, Bool.false_eq_true, if_false] at h ⊢
  by_cases hquote : (c == '"' || c == '\'') = true
  · simp only [hquote, if_true] at h ⊢
    obtain ⟨m, hm, hpair⟩ := exists_of_map_eq_ok h
    simp only [Prod.mk.injEq, Piece.token.injEq] at hpair
    obtain ⟨rfl, hpair⟩ := hpair
    obtain ⟨htwo, -, hsame⟩ := literalLength_append hm
    obtain rfl : m = cs.length + 1 := by omega
    rw [List.take_succ_cons, List.take_left, List.drop_succ_cons, List.drop_left] at hsame
    have hnext : cs.length + 1 = 2 → (x ++ y).head? = (x ++ z).head? ∨ (x ++ y).head? ≠ some c := by
      intro _
      rcases hhead with hhead | hhead
      · exact .inl hhead
      · refine .inr fun hc => ?_
        obtain ⟨hdouble, hsingle⟩ := hhead c hc
        simp [hdouble, hsingle] at hquote
    simp only [List.cons_append] at hsame
    rw [hsame _ _ _ hnext]
    simp only [Except.map, Nat.add_sub_cancel]
  simp only [hquote, Bool.false_eq_true, if_false] at h ⊢
  by_cases hnumber : (c.isDigit || (c == '.' && (cs ++ (x ++ z)).head?.any Char.isDigit)) = true
  · simp only [hnumber, if_true, Except.ok.injEq, Prod.mk.injEq, Piece.token.injEq] at h
    obtain ⟨rfl, hlength⟩ := h
    have hfirst : isNumberTail c = true := by
      simp only [Bool.or_eq_true, Bool.and_eq_true, beq_iff_eq] at hnumber
      rcases hnumber with hdigit | ⟨rfl, -⟩
      · simp [isNumberTail, Text.isWord, Text.isAlphanumeric, Text.isNumeric, hdigit]
      · rfl
    have hpos := numberLength_pos (cs ++ (x ++ z)) hfirst
    have hlength' : numberLength (c :: (cs ++ (x ++ z))) = cs.length + 1 := by omega
    have hnumber' : (c.isDigit || (c == '.' && (cs ++ (x ++ y)).head?.any Char.isDigit)) = true := by
      cases cs with
      | cons d cs => exact hnumber
      | nil =>
          have hstop := stop_of_numberTail (w := [c]) hlength'
          cases hhead' : (x ++ z).head? with
          | none =>
              simp only [List.nil_append, hhead', Option.any_none, Bool.and_false,
                Bool.or_false] at hnumber
              simp [hnumber]
          | some d =>
              have hd := hstop d hhead'
              have hdigit : d.isDigit = false := by
                simp only [isNumberTail, Text.isWord, Text.isAlphanumeric, Text.isNumeric,
                  Bool.or_eq_false_iff] at hd
                exact hd.1.1.2.1
              simp only [List.nil_append, hhead', Option.any_some, hdigit, Bool.and_false,
                Bool.or_false] at hnumber
              simp [hnumber]
    simp only [hnumber', if_true, numberLength_append hlength' hhead, Nat.add_sub_cancel]
  · simp only [hnumber, Bool.false_eq_true, if_false] at h
    split at h
    · rename_i n hn
      simp only [Except.ok.injEq, Prod.mk.injEq, Piece.token.injEq] at h
      obtain ⟨rfl, hlength⟩ := h
      have hpos := operatorLength?_pos hn
      obtain rfl : n = cs.length + 1 := by omega
      have hn' : operatorLength? (c :: (cs ++ (x ++ y))) = some (cs.length + 1) := by
        rcases hy with rfl | hy
        · exact hn
        · exact operatorLength?_append hn (hy (.inl rfl))
      have hnumber' : ¬ (c.isDigit || (c == '.' &&
          (cs ++ (x ++ y)).head?.any Char.isDigit)) = true := by
        cases cs with
        | cons d cs => exact hnumber
        | nil =>
            rcases hhead with hhead | hhead
            · simpa [hhead] using hnumber
            · intro hdigit
              simp only [Bool.or_eq_true, Bool.and_eq_true, beq_iff_eq, List.nil_append,
                Option.any_eq_true, not_or] at hdigit hnumber
              rcases hdigit with hdigit | ⟨-, d, hd, hdigit⟩
              · exact hnumber.1 hdigit
              · have := (hhead d hd).2
                simp [hdigit] at this
      simp only [hnumber', Bool.false_eq_true, if_false, hn', Nat.add_sub_cancel]
    · cases h

theorem numberTail_le (hex : Bool) (cs : Text) : numberTail hex cs ≤ cs.length := by
  match cs with
  | [] => simp [numberTail]
  | [c] =>
      rw [numberTail_cons]
      split
      · simp [signFollows, numberTail]
      · omega
  | c :: d :: cs =>
      have htail := numberTail_le hex cs
      have hrest := numberTail_le hex (d :: cs)
      rw [numberTail_cons]
      simp only [List.tail_cons, List.length_cons] at hrest ⊢
      split
      · split <;> omega
      · omega
termination_by cs.length

theorem operatorLength?_le {cs : Text} {n : Nat} (h : operatorLength? cs = some n) :
    n ≤ cs.length := by
  unfold operatorLength? at h
  split at h
  · rename_i op hfind
    cases h
    have hstarts := (List.find?_eq_some_iff_append.mp hfind).1
    exact (List.isPrefixOf_iff_prefix.mp hstarts).length_le
  · split at h
    · split at h <;> cases h
      simp
    · cases h

theorem scan_le {inBrackets : Bool} {here : Position} {c : Char} {cs : Text} {kind : TokenKind}
    {n : Nat} (h : scan inBrackets here c cs = .ok (.token kind, n)) : n ≤ cs.length := by
  unfold scan at h
  split at h
  · cases h
  split at h
  · split at h
    · cases h
    · split at h <;> cases h
  split at h
  · cases h
  split at h
  · simp only [Except.ok.injEq, Prod.mk.injEq] at h
    have := Text.lineBreakLength_le (c :: cs)
    rw [List.length_cons] at this
    omega
  split at h
  · have hword : Text.lengthWhile Text.isWord cs ≤ cs.length := (List.takeWhile_prefix _).length_le
    simp only at h
    split at h
    · rename_i q rest hdrop
      have hlength := congrArg List.length hdrop
      rw [List.length_drop, List.length_cons] at hlength
      split at h
      · obtain ⟨m, hm, hpair⟩ := exists_of_map_eq_ok h
        obtain ⟨-, hle, -⟩ := literalLength_append hm
        simp only [Prod.mk.injEq] at hpair
        omega
      · simp only [Except.ok.injEq, Prod.mk.injEq] at h
        omega
    · simp only [Except.ok.injEq, Prod.mk.injEq] at h
      omega
  split at h
  · obtain ⟨m, hm, hpair⟩ := exists_of_map_eq_ok h
    obtain ⟨-, hle, -⟩ := literalLength_append hm
    simp only [Prod.mk.injEq] at hpair
    omega
  split at h
  · simp only [Except.ok.injEq, Prod.mk.injEq] at h
    have := numberTail_le (hasHexMark (c :: cs)) (c :: cs)
    have hmark : numberLength (c :: cs) = numberTail (hasHexMark (c :: cs)) (c :: cs) := rfl
    rw [List.length_cons] at this
    omega
  · split at h
    · rename_i m hm
      have := operatorLength?_le hm
      rw [List.length_cons] at this
      simp only [Except.ok.injEq, Prod.mk.injEq] at h
      omega
    · cases h

/-- The scanner takes `w`, and nothing else, off the front of `w ++ x` as a token of the given kind,
in every place. -/
def Cuts (kind : TokenKind) (w x : Text) : Prop :=
  kind ≠ .newline ∧ ∃ c cs, w = c :: cs ∧
    ∀ inBrackets here, scan inBrackets here c (cs ++ x) = .ok (.token kind, cs.length)

theorem cuts_of_scan {inBrackets : Bool} {here : Position} {c : Char} {cs : Text} {kind : TokenKind}
    {n : Nat} (h : scan inBrackets here c cs = .ok (.token kind, n)) (hkind : kind ≠ .newline) :
    Cuts kind (c :: cs.take n) (cs.drop n) := by
  have hn := scan_le h
  refine ⟨hkind, c, cs.take n, rfl, ?_⟩
  intro inBrackets₂ here₂
  have hlength : (cs.take n).length = n := by
    rw [List.length_take]
    omega
  have hscan : scan inBrackets here c (cs.take n ++ ([] ++ cs.drop n)) =
      .ok (.token kind, (cs.take n).length) := by
    rw [List.nil_append, List.take_append_drop, h, hlength]
  simpa using scan_append hscan hkind (.inl rfl) inBrackets₂ here₂

namespace Cuts

theorem ne_nil {kind : TokenKind} {w x : Text} (h : Cuts kind w x) : w ≠ [] := by
  obtain ⟨-, c, cs, rfl, -⟩ := h
  simp

/-- What follows a token can be exchanged behind a part of it. -/
theorem exchange {kind : TokenKind} {w x z : Text} (h : Cuts kind w (x ++ z)) {y : Text}
    (hy : kind = .op ∨ x = [] → Ends kind y) : Cuts kind w (x ++ y) := by
  obtain ⟨hkind, c, cs, rfl, hscan⟩ := h
  exact ⟨hkind, c, cs, rfl, fun b p => scan_append (hscan b p) hkind (.inr hy) b p⟩

theorem before {kind : TokenKind} {w x : Text} (h : Cuts kind w x) {y : Text} (hy : Ends kind y) :
    Cuts kind w y :=
  exchange (x := []) h fun _ => hy

theorem alone {kind : TokenKind} {w x : Text} (h : Cuts kind w x) : Cuts kind w [] :=
  h.before (by simp [Ends])

theorem head {kind : TokenKind} {w x : Text} (h : Cuts kind w x) : ∃ c cs, w = c :: cs ∧
    (Text.isIndent c = false ∧ c ≠ '#' ∧ Text.isLineBreak c = false) ∧
    (kind = .string → Text.isWordStart c = true ∨ c = '"' ∨ c = '\'') ∧
    (kind ≠ .string → c ≠ '"' ∧ c ≠ '\'') := by
  obtain ⟨-, c, cs, rfl, hscan⟩ := h
  have hscan := hscan true .start
  refine ⟨c, cs, rfl, ?_⟩
  unfold scan at hscan
  split at hscan
  · cases hscan
  rename_i hindent
  split at hscan
  · split at hscan
    · cases hscan
    · split at hscan <;> cases hscan
  split at hscan
  · cases hscan
  rename_i hcomment
  split at hscan
  · cases hscan
  rename_i hbreak
  refine ⟨⟨by simpa using hindent, by simpa using hcomment, by simpa using hbreak⟩, ?_⟩
  split at hscan
  · rename_i hword
    refine ⟨fun _ => .inl hword, fun _ => ⟨?_, ?_⟩⟩ <;> rintro rfl <;> revert hword <;> decide
  split at hscan
  · rename_i hquote
    obtain ⟨m, -, hpair⟩ := exists_of_map_eq_ok hscan
    simp only [Prod.mk.injEq, Piece.token.injEq] at hpair
    exact ⟨fun _ => .inr (by simpa using hquote), fun hkind => absurd hpair.1.symm hkind⟩
  rename_i hquote
  have hplain : kind ≠ .string := by
    rintro rfl
    split at hscan
    · simp at hscan
    · split at hscan <;> simp at hscan
  exact ⟨fun hkind => absurd hkind hplain, fun _ => by simpa using hquote⟩

/-- The text of a token determines its kind. -/
theorem kind_eq {kind kind' : TokenKind} {w x x' : Text} (h : Cuts kind w x)
    (h' : Cuts kind' w x') : kind = kind' := by
  obtain ⟨-, c, cs, rfl, hscan⟩ := h.alone
  obtain ⟨-, c', cs', hw, hscan'⟩ := h'.alone
  obtain ⟨rfl, rfl⟩ := List.cons.inj hw
  have hsame := (hscan true .start).symm.trans (hscan' true .start)
  simpa using hsame

end Cuts

/-- The brackets and the comma, which are operators by themselves. -/
def loneOperators : Text := "()[]\x7b\x7d,".toList

theorem operatorLength?_lone {c : Char} (hc : c ∈ loneOperators) (cs : Text) :
    operatorLength? (c :: cs) = some 1 := by
  have hlong : ∀ op ∈ longOperators, op ≠ [] ∧ op.head?.all (!loneOperators.contains ·) = true :=
    forall_mem_of_all (by decide)
  have hshort : ∀ d ∈ loneOperators, shortOperators.contains d = true :=
    forall_mem_of_all (by decide)
  have hfind : longOperators.find? (·.isPrefixOf (c :: cs)) = none := by
    rw [List.find?_eq_none]
    intro op hop hstarts
    obtain ⟨hne, hhead⟩ := hlong op hop
    obtain ⟨d, op, rfl⟩ := List.exists_cons_of_ne_nil hne
    rw [List.isPrefixOf_iff_prefix, List.cons_prefix_cons] at hstarts
    simp [hstarts.1, hc] at hhead
  unfold operatorLength?
  rw [hfind]
  simp only [hshort c hc, if_true]

theorem cuts_lone {c : Char} (hc : c ∈ loneOperators) (x : Text) : Cuts .op [c] x := by
  refine ⟨by simp, c, [], rfl, ?_⟩
  intro inBrackets here
  have hplain : ∀ d ∈ loneOperators, Text.isIndent d = false ∧ (d == '\\') = false ∧
      (d == '#') = false ∧ Text.isLineBreak d = false ∧ Text.isWordStart d = false ∧
      (d == '"' || d == '\'') = false ∧ d.isDigit = false ∧ (d == '.') = false :=
    forall_mem_of_all (by decide)
  obtain ⟨h₁, h₂, h₃, h₄, h₅, h₆, h₇, h₈⟩ := hplain c hc
  simp [scan, h₁, h₂, h₃, h₄, h₅, h₆, h₇, h₈, operatorLength?_lone hc]

end Lexeme

end SchemaTidy
