import SchemaTidy.Proofs.Tree.WellFormed

/-!
# Brackets and blocks balance

The lexer keeps two stacks, of open brackets and of open blocks, and both are empty at the end of a
source. So its tokens read as nested groups that hold nothing but words of the program, and the block
markers among them never close more blocks than have been opened.
-/

namespace SchemaTidy

/-! ## Brackets -/

/-- Tokens whose brackets are nested and matched, with words of the program alone between a bracket
and the one that belongs to it. -/
inductive Nested : List Token → Prop where
  | nil : Nested []
  | cons {t : Token} {ts : List Token} (hopening : t.isOpening = false)
      (hclosing : t.isClosing = false) (hts : Nested ts) : Nested (t :: ts)
  | group {opening closing : Token} {inner rest : List Token}
      (hbrackets : MatchingBrackets opening closing) (hwords : ∀ t ∈ inner, t.kind.isWord = true)
      (hinner : Nested inner) (hrest : Nested rest) : Nested (opening :: (inner ++ closing :: rest))

def EndsOutside (ts : List Token) : Prop := ∃ t, ts.getLast? = some t ∧ t.kind.isWord = false

theorem EndsOutside.ne_nil {ts : List Token} (h : EndsOutside ts) : ts ≠ [] := by
  rintro rfl
  obtain ⟨t, ht, -⟩ := h
  cases ht

theorem EndsOutside.of_append {ts us : List Token} (h : EndsOutside (ts ++ us)) (hus : us ≠ []) :
    EndsOutside us := by
  obtain ⟨t, ht, hkind⟩ := h
  refine ⟨t, ?_, hkind⟩
  cases hlast : us.getLast? with
  | none => exact absurd (List.getLast?_eq_none_iff.mp hlast) hus
  | some u => simpa [List.getLast?_append, hlast] using ht

theorem EndsOutside.of_word {ts us : List Token} {t : Token} (h : EndsOutside (ts ++ t :: us))
    (ht : t.kind.isWord = true) : EndsOutside us := by
  have hus : us ≠ [] := by
    rintro rfl
    obtain ⟨u, hu, hkind⟩ := h
    obtain rfl : t = u := by simpa using hu
    simp [ht] at hkind
  have h' : EndsOutside ((ts ++ [t]) ++ us) := by simpa using h
  exact h'.of_append hus

theorem EndsOutside.tail {us : List Token} {t : Token} (h : EndsOutside (t :: us))
    (ht : t.kind.isWord = true) : EndsOutside us :=
  EndsOutside.of_word (by simpa using h : EndsOutside ([] ++ t :: us)) ht

theorem bracketsAfter_of_noBracket {t : Token} (hspelling : IsSpelling t.kind t.text)
    (hopening : t.isOpening = false) (hclosing : t.isClosing = false) (brackets : List Char) :
    bracketsAfter t.kind t.text brackets = some brackets := by
  by_cases hword : t.kind.isWord = true
  · exact bracketsAfter_of_isLeaf hopening hclosing (hspelling.1 hword) brackets
  · exact bracketsAfter_of_ne_op (by rintro hop; simp [hop, TokenKind.isWord] at hword) _ _

theorem Token.isWord_of_isOpening {t : Token} (h : t.isOpening = true) : t.kind.isWord = true := by
  obtain ⟨-, -, hop, -⟩ := bracketsAfter_of_isOpening h []
  rw [hop]
  rfl

/-- The bracket that closes the innermost open one, with what stands before it and behind it. -/
structure ClosesAt (c : Char) (outer : List Char) (ts inner : List Token) (closing : Token)
    (rest : List Token) : Prop where
  split : ts = inner ++ closing :: rest
  words : ∀ t ∈ inner, t.kind.isWord = true
  nested : Nested inner
  isOp : closing.kind = .op
  text : closing.text = [Cursor.matching c]
  ordered : ∃ before, WellOrdered outer before (rest.map Token.spelling)

/-- An open bracket is closed. The induction is on the number of tokens, since the bracket that closes
one opened on the way is found first. -/
theorem exists_closesAt {c : Char} {outer : List Char} {before : Option TokenKind}
    (ts : List Token) (hends : EndsOutside ts)
    (hts : WellOrdered (c :: outer) before (ts.map Token.spelling)) :
    ∃ inner closing rest, ClosesAt c outer ts inner closing rest := by
  match ts with
  | [] => exact absurd rfl hends.ne_nil
  | t :: us =>
      obtain ⟨hspelling, hinside, -, brackets, hb, hus⟩ := hts
      have hword : t.kind.isWord = true := hinside.resolve_right (by simp)
      have hends' : EndsOutside us := hends.tail hword
      by_cases hclosing : t.isClosing = true
      · obtain ⟨d, hd, hop, htext⟩ := bracketsAfter_of_isClosing hclosing hb
        obtain ⟨rfl, rfl⟩ := List.cons.inj hd
        exact ⟨[], t, us, rfl, by simp, .nil, hop, htext, _, hus⟩
      by_cases hopening : t.isOpening = true
      · obtain ⟨d, hd, hop, htext, hafter⟩ := bracketsAfter_of_isOpening hopening (c :: outer)
        obtain rfl := Option.some.inj (hb.symm.trans hafter)
        obtain ⟨inner₁, closing₁, rest₁, h₁⟩ := exists_closesAt us hends' hus
        obtain ⟨before', hrest₁⟩ := h₁.ordered
        have hword₁ : closing₁.kind.isWord = true := by rw [h₁.isOp]; rfl
        have hends₁ : EndsOutside rest₁ := EndsOutside.of_word (h₁.split ▸ hends') hword₁
        have hlength : rest₁.length < us.length := by simp [h₁.split]; omega
        obtain ⟨inner₂, closing₂, rest₂, h₂⟩ := exists_closesAt rest₁ hends₁ hrest₁
        refine ⟨t :: (inner₁ ++ closing₁ :: inner₂), closing₂, rest₂, ?_, ?_, ?_, h₂.isOp, h₂.text,
          h₂.ordered⟩
        · simp [h₁.split, h₂.split]
        · intro u hu
          simp only [List.mem_cons, List.mem_append] at hu
          rcases hu with rfl | hu | rfl | hu
          · exact hword
          · exact h₁.words u hu
          · exact hword₁
          · exact h₂.words u hu
        · exact .group ⟨hop, h₁.isOp, d, hd, htext, h₁.text⟩ h₁.words h₁.nested h₂.nested
      · rw [Bool.not_eq_true] at hclosing hopening
        have hsame := bracketsAfter_of_noBracket hspelling hopening hclosing (c :: outer)
        obtain rfl := Option.some.inj (hb.symm.trans hsame)
        obtain ⟨inner, closing, rest, h⟩ := exists_closesAt us hends' hus
        refine ⟨t :: inner, closing, rest, by simp [h.split], ?_, .cons hopening hclosing h.nested,
          h.isOp, h.text, h.ordered⟩
        intro u hu
        rcases List.mem_cons.mp hu with rfl | hu
        · exact hword
        · exact h.words u hu
termination_by ts.length

/-- Outside of brackets, well-ordered tokens are nested. -/
theorem nested_of_wellOrdered {before : Option TokenKind} (ts : List Token) (hends : EndsOutside ts)
    (hts : WellOrdered [] before (ts.map Token.spelling)) : Nested ts := by
  match ts with
  | [] => exact .nil
  | t :: us =>
      obtain ⟨hspelling, -, -, brackets, hb, hus⟩ := hts
      have hclosing : t.isClosing = false := by
        rw [← Bool.not_eq_true]
        intro hclosing
        obtain ⟨_, hnil, -⟩ := bracketsAfter_of_isClosing hclosing hb
        cases hnil
      by_cases hopening : t.isOpening = true
      · obtain ⟨c, hc, hop, htext, hafter⟩ := bracketsAfter_of_isOpening hopening []
        obtain rfl := Option.some.inj (hb.symm.trans hafter)
        have hends' : EndsOutside us := hends.tail (Token.isWord_of_isOpening hopening)
        obtain ⟨inner, closing, rest, h⟩ := exists_closesAt us hends' hus
        obtain ⟨before', hrest⟩ := h.ordered
        have hlength : rest.length < us.length := by simp [h.split]; omega
        have hword : closing.kind.isWord = true := by rw [h.isOp]; rfl
        have hnested := nested_of_wellOrdered rest (EndsOutside.of_word (h.split ▸ hends') hword)
          hrest
        rw [h.split]
        exact .group ⟨hop, h.isOp, c, hc, htext, h.text⟩ h.words h.nested hnested
      · rw [Bool.not_eq_true] at hopening
        have hsame := bracketsAfter_of_noBracket hspelling hopening hclosing []
        obtain rfl := Option.some.inj (hb.symm.trans hsame)
        by_cases hnil : us = []
        · subst hnil
          exact .cons hopening hclosing .nil
        · have hends' : EndsOutside us :=
            EndsOutside.of_append (by simpa using hends : EndsOutside ([t] ++ us)) hnil
          exact .cons hopening hclosing (nested_of_wellOrdered us hends' hus)
termination_by ts.length

/-! ## Blocks -/

/-- Kinds of tokens among which every block is closed that is open before them, `depth` in number, or
opened among them. -/
def BlocksClose : Nat → List TokenKind → Prop
  | depth, [] => depth = 0
  | depth, kind :: kinds =>
      match kind with
      | .indent => BlocksClose (depth + 1) kinds
      | .dedent => 0 < depth ∧ BlocksClose (depth - 1) kinds
      | _ => BlocksClose depth kinds

theorem blocksClose_cons {depth : Nat} {kind : TokenKind} {kinds : List TokenKind}
    (hindent : kind ≠ .indent) (hdedent : kind ≠ .dedent) :
    BlocksClose depth (kind :: kinds) ↔ BlocksClose depth kinds := by
  cases kind <;> first | exact Iff.rfl | contradiction

theorem blocksClose_dedents (n : Nat) {depth : Nat} {kinds : List TokenKind}
    (h : BlocksClose depth kinds) :
    BlocksClose (n + depth) (List.replicate n .dedent ++ kinds) := by
  induction n with
  | zero => simpa using h
  | succ n ih =>
      rw [List.replicate_succ, List.cons_append, Nat.succ_add]
      exact ⟨Nat.succ_pos _, ih⟩

theorem BlocksClose.count_le {depth : Nat} {kinds before : List TokenKind}
    (h : BlocksClose depth kinds) (hbefore : before <+: kinds) :
    before.count .dedent ≤ depth + before.count .indent := by
  induction before generalizing depth kinds with
  | nil => simp
  | cons kind before ih =>
      obtain ⟨after, rfl⟩ := hbefore
      have hprefix : before <+: before ++ after := List.prefix_append _ _
      cases kind with
      | indent =>
          have hrest : BlocksClose (depth + 1) (before ++ after) := h
          have := ih hrest hprefix
          simp only [List.count_cons_self, List.count_cons_of_ne, ne_eq, reduceCtorEq,
            not_false_eq_true]
          omega
      | dedent =>
          have := ih h.2 hprefix
          have := h.1
          simp only [List.count_cons_self, List.count_cons_of_ne, ne_eq, reduceCtorEq,
            not_false_eq_true]
          omega
      | _ =>
          have hrest : BlocksClose depth (before ++ after) := h
          simpa using ih hrest hprefix

theorem BlocksClose.count_eq {depth : Nat} {kinds : List TokenKind} (h : BlocksClose depth kinds) :
    kinds.count .dedent = depth + kinds.count .indent := by
  induction kinds generalizing depth with
  | nil => simp [show depth = 0 from h]
  | cons kind kinds ih =>
      cases kind with
      | indent =>
          have := ih h
          simp only [List.count_cons_self, List.count_cons_of_ne, ne_eq, reduceCtorEq,
            not_false_eq_true]
          omega
      | dedent =>
          have := ih h.2
          have := h.1
          simp only [List.count_cons_self, List.count_cons_of_ne, ne_eq, reduceCtorEq,
            not_false_eq_true]
          omega
      | _ => simpa using ih h

namespace Cursor

theorem map_kind_markers (indents : List Nat) (kind : TokenKind) (p : Position) :
    (indents.map fun _ => marker kind p).map Token.kind = List.replicate indents.length kind := by
  rw [List.map_map]
  exact List.map_const' ..

theorem blocksClose_indentTo {c c' : Cursor} {width : Nat} {ts : List Token}
    {kinds : List TokenKind} (h : c.indentTo width = .ok (ts, c'))
    (hkinds : BlocksClose c'.indents.length kinds) :
    BlocksClose c.indents.length (ts.map Token.kind ++ kinds) := by
  simp only [indentTo] at h
  split at h
  · cases h
    exact hkinds
  split at h
  · split at h
    · cases h
      rw [map_kind_markers]
      have hlength : c.indents.length =
          (c.indents.takeWhile (width < ·)).length + (c.indents.dropWhile (width < ·)).length := by
        rw [← List.length_append, List.takeWhile_append_dropWhile]
      rw [hlength]
      exact blocksClose_dedents _ hkinds
    · cases h
  · cases h
    exact hkinds

theorem blocksClose_enterLine {c c' : Cursor} {ts : List Token} {kinds : List TokenKind}
    (h : c.enterLine = .ok (ts, c')) (hkinds : BlocksClose c'.indents.length kinds) :
    BlocksClose c.indents.length (ts.map Token.kind ++ kinds) := by
  unfold enterLine at h
  split at h
  · simp only at h
    split at h
    · cases h
      exact hkinds
    · exact (blocksClose_indentTo h hkinds :)
  · cases h
    exact hkinds

theorem blocksClose_advance {c c' : Cursor} {ch : Char} {cs : Text} {t : Option Token}
    {kinds : List TokenKind} (h : c.advance ch cs = .ok (t, c'))
    (hkinds : BlocksClose c'.indents.length kinds) :
    BlocksClose c.indents.length (t.toList.map Token.kind ++ kinds) := by
  unfold advance at h
  split at h
  · cases h
  · cases h
    exact hkinds
  · rename_i kind n hscan
    split at h
    · cases h
    · cases h
      have hkind := Lexeme.scan_kind hscan
      show BlocksClose c.indents.length (kind :: kinds)
      refine (blocksClose_cons ?_ ?_).mpr hkinds
      · rintro rfl
        simp at hkind
      · rintro rfl
        simp at hkind

theorem blocksClose_finish {c : Cursor} {ts : List Token} (h : c.finish = .ok ts) :
    BlocksClose c.indents.length (ts.map Token.kind) := by
  have hend (p : Position) (e : Token) (he : e.kind = .endMarker) :
      BlocksClose c.indents.length
        ((c.indents.map (fun _ => marker .dedent p) ++ [e]).map Token.kind) := by
    rw [List.map_append, map_kind_markers, List.map_singleton, he]
    have hnone : BlocksClose 0 [.endMarker] := rfl
    exact blocksClose_dedents _ hnone
  unfold finish at h
  split at h
  · cases h
  simp only at h
  split at h
  · cases h
    rw [List.append_assoc, List.singleton_append, List.map_cons]
    exact (blocksClose_cons (by simp [take]) (by simp [take])).mpr (hend _ _ rfl)
  · cases h
    exact hend _ _ rfl

/-- The blocks that are open at a cursor are closed by the tokens behind it. -/
theorem blocksClose_tokens {c : Cursor} {ts : List Token} (h : c.tokens = .ok ts) :
    BlocksClose c.indents.length (ts.map Token.kind) := by
  fun_induction tokens c generalizing ts with
  | case1 c e hl => cases h
  | case2 c markers c₁ hl hr =>
      obtain ⟨us, hus, rfl⟩ := exists_of_map_eq_ok h
      rw [List.map_append]
      exact blocksClose_enterLine hl (blocksClose_finish hus)
  | case3 c markers c₁ hl ch cs hr e ha => cases h
  | case4 c markers c₁ hl ch cs hr t c₂ ha ih =>
      obtain ⟨us, hus, rfl⟩ := exists_of_map_eq_ok h
      rw [List.append_assoc, List.map_append, List.map_append]
      exact blocksClose_enterLine hl (blocksClose_advance ha (ih hus))

end Cursor

/-! ## A source -/

theorem endsOutside_tokenize {source : Text} {ts : List Token} (h : tokenize source = .ok ts) :
    EndsOutside ts := by
  obtain ⟨init, last, rfl, hlast, -⟩ := tokenize_ends h
  exact ⟨last, by simp, by rw [hlast]; rfl⟩

theorem nested_tokenize {source : Text} {ts : List Token} (h : tokenize source = .ok ts) :
    Nested ts :=
  nested_of_wellOrdered ts (endsOutside_tokenize h) (wellOrdered_tokenize h)

theorem blocksClose_tokenize {source : Text} {ts : List Token} (h : tokenize source = .ok ts) :
    BlocksClose 0 (ts.map Token.kind) :=
  Cursor.blocksClose_tokens h

end SchemaTidy
