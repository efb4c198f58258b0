import SchemaTidy.Proofs.Tree.Groups

/-!
# Names of a parsed module

The tokens of every group of a module stand together among the tokens of the module, and each of them is
spelled as its kind is. So a keyword argument of a parsed module is named by a word.
-/

namespace SchemaTidy

/-! ## Tokens of groups -/

mutual

theorem tokens_within : ∀ {g h : Group}, h ∈ g.groups → h.tokens <:+: g.tokens
  | ⟨opening, elements, closing, kind, sortable⟩, h, hh => by
      rw [Group.groups] at hh
      rcases List.mem_cons.mp hh with rfl | hh
      · exact List.infix_rfl
      · exact (tokens_within_elements hh).trans ⟨[opening], [closing], rfl⟩

theorem tokens_within_items : ∀ {is : List Item} {h : Group}, h ∈ groupsOfItems is →
    h.tokens <:+: tokensOfItems is
  | .token u :: is, h, hh => by
      have hrest : h ∈ groupsOfItems is := hh
      exact (tokens_within_items hrest).trans (List.suffix_append [u] _).isInfix
  | .group g :: is, h, hh => by
      rcases List.mem_append.mp hh with hh | hh
      · exact (tokens_within hh).trans (List.prefix_append _ _).isInfix
      · exact (tokens_within_items hh).trans (List.suffix_append _ _).isInfix

theorem tokens_within_elements : ∀ {es : List Element} {h : Group}, h ∈ groupsOfElements es →
    h.tokens <:+: tokensOfElements es
  | ⟨items, comma⟩ :: es, h, hh => by
      rcases List.mem_append.mp hh with hh | hh
      · have hinner : h.tokens <:+: tokensOfItems items := tokens_within_items hh
        exact (hinner.trans (List.prefix_append _ comma.toList).isInfix).trans
          (List.prefix_append _ _).isInfix
      · exact (tokens_within_elements hh).trans (List.suffix_append _ _).isInfix

end

mutual

theorem Statement.tokens_within : ∀ {s : Statement} {h : Group}, h ∈ s.groups →
    h.tokens <:+: s.tokens
  | .simple line, h, hh => by
      have hinner : h.tokens <:+: tokensOfItems line.items := tokens_within_items hh
      exact hinner.trans (List.prefix_append _ [line.newline]).isInfix
  | .compound signature header newline ⟨indent, body, dedent⟩, h, hh => by
      rcases List.mem_append.mp hh with hh | hh
      · exact (tokens_within_items hh).trans (List.prefix_append _ _).isInfix
      · have hinner : h.tokens <:+: tokensOfBody body := tokens_within_body hh
        have hblock := hinner.trans ⟨[newline, indent], [dedent], rfl⟩
        exact hblock.trans (List.suffix_append (tokensOfItems header) _).isInfix

theorem tokens_within_body : ∀ {ss : List Statement} {h : Group}, h ∈ groupsOfBody ss →
    h.tokens <:+: tokensOfBody ss
  | s :: ss, h, hh => by
      rcases List.mem_append.mp hh with hh | hh
      · exact (Statement.tokens_within hh).trans (List.prefix_append _ _).isInfix
      · exact (tokens_within_body hh).trans (List.suffix_append _ _).isInfix

end

theorem Module.tokens_within {m : Module} {g : Group} (hg : g ∈ m.groups) :
    g.tokens <:+: m.tokens :=
  (tokens_within_body hg).trans (List.prefix_append _ [m.endMarker]).isInfix

theorem Lexeme.scan_name {inBrackets : Bool} {here : Position} {c : Char} {cs : Text} {n : Nat}
    (h : scan inBrackets here c cs = .ok (.token .name, n)) :
    Text.isWordStart c = true ∧ n = Text.lengthWhile Text.isWord cs := by
  unfold scan at h
  split at h
  · cases h
  split at h
  · split at h
    · cases h
    · split at h <;> cases h
  split at h
  · cases h
  split at h
  · split at h <;> cases h
  split at h
  · rename_i hstart
    refine ⟨hstart, ?_⟩
    simp only at h
    split at h
    · split at h
      · obtain ⟨m, -, hpair⟩ := exists_of_map_eq_ok h
        cases hpair
      · cases h
        rfl
    · cases h
      rfl
  split at h
  · obtain ⟨m, -, hpair⟩ := exists_of_map_eq_ok h
    cases hpair
  split at h
  · cases h
  · split at h <;> cases h

theorem Lexeme.isWord_of_cuts {w x : Text} (h : Cuts .name w x) : ∀ c ∈ w, Text.isWord c = true := by
  obtain ⟨-, c, cs, rfl, hscan⟩ := h.alone
  obtain ⟨hstart, hlength⟩ := scan_name (hscan true .start)
  rw [List.append_nil, Text.lengthWhile] at hlength
  have hall : cs.takeWhile Text.isWord = cs :=
    (List.takeWhile_prefix _).eq_of_length hlength.symm
  refine List.forall_mem_cons.mpr ⟨?_, fun d hd => ?_⟩
  · rw [Text.isWordStart, Bool.or_eq_true] at hstart
    rw [Text.isWord, Bool.or_eq_true]
    exact hstart.imp_left fun halpha => by rw [Text.isAlphanumeric, halpha]; rfl
  · rw [← hall] at hd
    exact List.mem_takeWhile_imp hd

theorem Lexeme.cuts_name {c : Char} {cs : Text} (hc : Text.isWordStart c = true)
    (hcs : ∀ d ∈ cs, Text.isWord d = true) : Cuts .name (c :: cs) [] := by
  have hne {d : Char} (hd : Text.isWordStart d = false) : c ≠ d := by
    rintro rfl
    rw [hc] at hd
    cases hd
  have hindent : Text.isIndent c = false := by
    simp [Text.isIndent, hne (d := ' ') (by decide), hne (d := '\t') (by decide),
      hne (d := '\x0c') (by decide)]
  have hbreak : Text.isLineBreak c = false := by
    simp [Text.isLineBreak, hne (d := '\n') (by decide), hne (d := '\r') (by decide)]
  have hslash : c ≠ '\\' := hne (by decide)
  have hcomment : c ≠ '#' := hne (by decide)
  have hlength : Text.lengthWhile Text.isWord cs = cs.length := by
    rw [Text.lengthWhile, List.takeWhile_eq_self_iff.mpr hcs]
  refine ⟨by simp, c, cs, rfl, fun inBrackets here => ?_⟩
  simp [scan, hindent, hbreak, hslash, hcomment, hc, hlength]

end SchemaTidy
