import SchemaTidy.Print.StringRun
import SchemaTidy.Proofs.Literal.Quotes

/-!
# Joining and cutting bodies

A body is severable if each of its escapes shows its own end: it has no octal escape, which a digit
would extend, and no name, in which blanks can stand. Bodies that mean something and are severable
can be joined, and a severable body can be cut behind any blank, without a change of what they mean.
-/

namespace SchemaTidy

/-- No escape of a body is octal or, unless it is one of bytes, a name. -/
def severable (bytes : Bool) : Text → Bool
  | [] => true
  | '\\' :: c :: cs => !c.isDigit && (bytes || c != 'N') && severable bytes cs
  | _ :: cs => severable bytes cs

theorem severable_escape (bytes : Bool) (c : Char) (cs : Text) :
    severable bytes ('\\' :: c :: cs) =
      (!c.isDigit && (bytes || c != 'N') && severable bytes cs) := by
  rw [severable]

theorem severable_cons (bytes : Bool) {c : Char} (hc : c ≠ '\\') (cs : Text) :
    severable bytes (c :: cs) = severable bytes cs := by
  rw [severable]
  intro d ds hd
  exact absurd hd hc

theorem severable_lineBreak (bytes : Bool) (cs : Text) :
    severable bytes ('\\' :: '\r' :: '\n' :: cs) = severable bytes cs := by
  rw [severable_escape, severable_cons bytes (by decide)]
  cases bytes <;> rfl

theorem severable_append (bytes : Bool) {q : Char} {a : Text} (ha : IsBody q a) (b : Text) :
    severable bytes (a ++ b) = (severable bytes a && severable bytes b) := by
  induction ha with
  | nil => rfl
  | char hescape hquote hbreak hcs ih =>
      rw [List.cons_append, severable_cons bytes hescape, severable_cons bytes hescape, ih]
  | escape c hcs ih =>
      rw [List.cons_append, List.cons_append, severable_escape, severable_escape, ih,
        ← Bool.and_assoc]
  | lineBreak hcs ih =>
      rw [List.cons_append, List.cons_append, List.cons_append, severable_lineBreak,
        severable_lineBreak, ih]

theorem severable_respell (bytes : Bool) (rule : Char → Bool → Bool) {q : Char} {t : Text}
    (h : IsBody q t) : severable bytes (respell rule t) = severable bytes t := by
  have hquotes {c : Char} (hc : isQuote c = true) :
      (!c.isDigit && (bytes || c != 'N')) = true := by
    rcases isQuote_iff.mp hc with rfl | rfl <;> cases bytes <;> rfl
  induction h with
  | nil => rfl
  | @char c cs hescape hquote hbreak hcs ih =>
      rw [respell_cons rule hescape, severable_cons bytes hescape]
      split
      · rename_i hrule
        rw [Bool.and_eq_true] at hrule
        rw [List.cons_append, List.singleton_append, severable_escape, hquotes hrule.1, ih,
          Bool.true_and]
      · rw [List.singleton_append, severable_cons bytes hescape, ih]
  | @escape c cs hcs ih =>
      rw [respell_escape, severable_escape]
      split
      · rename_i hrule
        rw [Bool.and_eq_true] at hrule
        rw [List.singleton_append, severable_cons bytes (quote_facts hrule.1).1, hquotes hrule.1, ih,
          Bool.true_and]
      · rw [List.cons_append, List.singleton_append, severable_escape, ih]
  | @lineBreak cs hcs ih =>
      rw [respell_lineBreak, severable_lineBreak, severable_lineBreak, ih]

theorem hasDigitEscape_tail {c : Char} {cs : Text} (h : hasDigitEscape (c :: cs) = false) :
    hasDigitEscape cs = false := by
  cases cs with
  | nil => rfl
  | cons d cs =>
      rw [hasDigitEscape, Bool.or_eq_false_iff] at h
      exact h.2

theorem occursIn_tail {pattern : Text} {c : Char} {cs : Text}
    (h : occursIn pattern (c :: cs) = false) : occursIn pattern cs = false := by
  rw [occursIn, Bool.or_eq_false_iff] at h
  exact h.2

theorem severable_of_checks {named : Text → Option Nat} {bytes : Bool} {q : Char} {t : Text}
    (h : IsBody q t) (hdigit : hasDigitEscape t = false)
    (hname : occursIn "\\N\x7b".toList t = false) {skip : Nat} (hskip : InReach skip t)
    {codes : List Nat} (hdecode : decode named bytes skip t = some codes) :
    severable bytes t = true := by
  induction h generalizing skip codes with
  | nil => rfl
  | @char c cs hescape hquote hbreak hcs ih =>
      have hrest {skip : Nat} (hskip : InReach skip cs) {codes : List Nat} :
          decode named bytes skip cs = some codes → severable bytes cs = true :=
        ih (hasDigitEscape_tail hdigit) (occursIn_tail hname) hskip
      rw [severable_cons bytes hescape]
      cases skip with
      | zero =>
          rw [decode_char named bytes hescape] at hdecode
          obtain ⟨rest, hdecode, -⟩ := Option.map_eq_some_iff.mp hdecode
          exact hrest (inReach_zero cs) hdecode
      | succ skip => exact hrest hskip.of_succ.2 hdecode
  | @escape c cs hcs ih =>
      obtain rfl := hskip.eq_zero_of_backslash
      have hc : c.isDigit = false := by
        rw [hasDigitEscape, Bool.or_eq_false_iff] at hdigit
        simpa using hdigit.1
      rw [decode_escape] at hdecode
      obtain ⟨⟨value, n⟩, hread, hdecode⟩ := Option.bind_eq_some_iff.mp hdecode
      obtain ⟨rest, hdecode, -⟩ := Option.map_eq_some_iff.mp hdecode
      obtain ⟨k, rfl, hk⟩ := inReach_of_escape? (hcs.not_splitsBreak c) hread
      have hrest := ih (hasDigitEscape_tail (hasDigitEscape_tail hdigit))
        (occursIn_tail (occursIn_tail hname)) hk hdecode
      have hnamed : (bytes || c != 'N') = true := by
        by_contra hnot
        obtain ⟨rfl, rfl⟩ : bytes = false ∧ c = 'N' := by simpa using hnot
        -- A name would have to follow in braces.
        rw [escape?_cons named false (hcs.not_splitsBreak 'N')] at hread
        obtain ⟨⟨code, m⟩, hcode, -⟩ := Option.map_eq_some_iff.mp hread
        unfold namedCode? at hcode
        split at hcode
        · simp [occursIn] at hname
        · cases hcode
      rw [severable_escape, hc, hnamed, hrest]
      rfl
  | @lineBreak cs hcs ih =>
      obtain rfl := hskip.eq_zero_of_backslash
      rw [decode_lineBreak] at hdecode
      rw [severable_lineBreak]
      exact ih (hasDigitEscape_tail (hasDigitEscape_tail (hasDigitEscape_tail hdigit)))
        (occursIn_tail (occursIn_tail (occursIn_tail hname))) (inReach_zero cs) hdecode

/-! ## What follows a body -/

theorem takeWhile_prefix_append (p : Char → Bool) (cs b : Text) :
    cs.takeWhile p <+: (cs ++ b).takeWhile p := by
  induction cs with
  | nil => exact List.nil_prefix
  | cons c cs ih =>
      by_cases hc : p c = true
      · simpa [hc] using ih
      · simp [hc]

theorem takeWhile_append_of_mem {p : Char → Bool} {d : Char} (hd : p d = false) {cs : Text}
    (h : d ∈ cs) (b : Text) : (cs ++ b).takeWhile p = cs.takeWhile p := by
  induction cs with
  | nil => cases h
  | cons c cs ih =>
      by_cases hc : p c = true
      · have hmem : d ∈ cs := by
          rcases List.mem_cons.mp h with rfl | hmem
          · exact absurd (hc.symm.trans hd) (by simp)
          · exact hmem
        simp [hc, ih hmem]
      · simp [hc]

theorem hexCode?_append {n : Nat} {cs : Text} (h : (hexCode? n cs).isSome ∨ ' ' ∈ cs) (b : Text) :
    hexCode? n (cs ++ b) = hexCode? n cs := by
  rcases h with h | h
  · obtain ⟨code, hcode⟩ := Option.isSome_iff_exists.mp h
    obtain ⟨rest, hrest⟩ := takeWhile_prefix_append isHexDigit cs b
    simp only [hexCode?, ← hrest, List.take_append_of_le_length (length_of_hexCode? hcode)]
  · simp only [hexCode?, takeWhile_append_of_mem (by decide : isHexDigit ' ' = false) h]

theorem isOctalDigit_eq_false {c : Char} (h : c.isDigit = false) : isOctalDigit c = false := by
  rw [← Bool.not_eq_true]
  intro hoctal
  have hall : ∀ c ∈ hexDigits.take 8, c.isDigit = true := List.all_eq_true.mp (by decide)
  exact absurd ((hall c (List.contains_iff_mem.mp hoctal)).symm.trans h) (by simp)

/-- An escape that shows its own end is read alike whatever follows, if it is valid or a blank stands
behind it. -/
theorem escape?_append {named : Text → Option Nat} {bytes : Bool} {c : Char} {cs b : Text}
    (hdigit : c.isDigit = false) (hname : (bytes || c != 'N') = true) (hcs : ¬ splitsBreak c cs)
    (hb : ¬ splitsBreak c (cs ++ b))
    (h : (escape? named bytes (c :: cs)).isSome ∨ ' ' ∈ c :: cs) :
    escape? named bytes (c :: (cs ++ b)) = escape? named bytes (c :: cs) := by
  have hnamed : (!bytes && c == 'N') = false := by
    revert hname
    cases bytes <;> simp
  rw [escape?_cons named bytes hcs] at h
  rw [escape?_cons named bytes hcs, escape?_cons named bytes hb]
  rw [isOctalDigit_eq_false hdigit, hnamed] at h ⊢
  simp only [Bool.false_eq_true, if_false] at h ⊢
  by_cases hline : Text.isLineBreak c = true
  · simp only [if_pos hline]
  simp only [if_neg hline] at h ⊢
  by_cases hx : (c == 'x') = true
  · obtain rfl := beq_iff_eq.mp hx
    simp only [if_pos hx] at h ⊢
    rw [hexCode?_append (by simpa using h)]
  simp only [if_neg hx] at h ⊢
  by_cases hu : (!bytes && c == 'u') = true
  · obtain rfl := beq_iff_eq.mp (Bool.and_eq_true_iff.mp hu).2
    simp only [if_pos hu] at h ⊢
    rw [hexCode?_append (by simpa using h)]
  simp only [if_neg hu] at h ⊢
  by_cases hU : (!bytes && c == 'U') = true
  · obtain rfl := beq_iff_eq.mp (Bool.and_eq_true_iff.mp hU).2
    simp only [if_pos hU, Option.isSome_map] at h ⊢
    rw [hexCode?_append (h.imp (Option.isSome_of_isSome_filter _ _) (by simp))]
  simp only [if_neg hU]

theorem not_splitsBreak_append {q : Char} {a b : Text} (ha : IsBody q a)
    (hb : b.head? ≠ some '\n') (c : Char) : ¬ splitsBreak c (a ++ b) := by
  rintro ⟨-, hhead⟩
  cases a with
  | nil => exact hb hhead
  | cons d ds => exact ha.head?_ne_lineFeed hhead

def EndsInBlank (a : Text) : Prop := a.getLast? = some ' '

theorem EndsInBlank.tail {c : Char} {cs : Text} (h : EndsInBlank (c :: cs)) :
    cs = [] ∨ EndsInBlank cs := by
  cases cs with
  | nil => exact .inl rfl
  | cons d ds => exact .inr (by rwa [EndsInBlank, List.getLast?_cons_cons] at h)

theorem EndsInBlank.mem {a : Text} (h : EndsInBlank a) : ' ' ∈ a := List.mem_of_getLast? h

/-- What a severable body means it means before any other body, if it is valid or ends in a blank. -/
theorem decode_append {named : Text → Option Nat} {bytes : Bool} {q : Char} {a b : Text}
    (ha : IsBody q a) (hsevers : severable bytes a = true) (hb : b.head? ≠ some '\n') {skip : Nat}
    (hskip : InReach skip a)
    (h : (decode named bytes skip a).isSome ∨ a = [] ∨ EndsInBlank a) :
    decode named bytes skip (a ++ b) =
      (decode named bytes skip a).bind fun codes => (decode named bytes 0 b).map (codes ++ ·) := by
  induction ha generalizing skip with
  | nil =>
      obtain rfl := hskip.eq_zero_of_nil
      simp
  | @char c cs hescape hquote hbreak hcs ih =>
      rw [severable_cons bytes hescape] at hsevers
      have hblank (h : c :: cs = [] ∨ EndsInBlank (c :: cs)) : cs = [] ∨ EndsInBlank cs :=
        (h.resolve_left (by simp)).tail
      cases skip with
      | zero =>
          rw [decode_char named bytes hescape, Option.isSome_map] at h
          have hrest := ih hsevers (inReach_zero cs) (h.imp_right hblank)
          rw [List.cons_append, decode_char named bytes hescape, decode_char named bytes hescape, hrest]
          cases decode named bytes 0 cs with
          | none => rfl
          | some codes => simp [Function.comp_def]
      | succ skip => exact ih hsevers hskip.of_succ.2 (h.imp_right hblank)
  | @escape c cs hcs ih =>
      obtain rfl := hskip.eq_zero_of_backslash
      rw [severable_escape, Bool.and_eq_true, Bool.and_eq_true, Bool.not_eq_true'] at hsevers
      obtain ⟨⟨hdigit, hname⟩, hsevers⟩ := hsevers
      have hbreak := hcs.not_splitsBreak c
      have hblank (h : '\\' :: c :: cs = [] ∨ EndsInBlank ('\\' :: c :: cs)) : EndsInBlank (c :: cs) :=
        (h.resolve_left (by simp)).tail.resolve_left (by simp)
      rw [decode_escape] at h
      have hread := escape?_append hdigit hname hbreak (not_splitsBreak_append hcs hb c)
        (h.imp Option.isSome_of_isSome_bind fun h => (hblank h).mem)
      rw [List.cons_append, List.cons_append, decode_escape, decode_escape, hread]
      cases hescape : escape? named bytes (c :: cs) with
      | none => rfl
      | some escape =>
          obtain ⟨value, n⟩ := escape
          obtain ⟨k, rfl, hk⟩ := inReach_of_escape? hbreak hescape
          rw [hescape, Option.bind_some, Option.isSome_map] at h
          have hrest := ih hsevers hk (h.imp_right fun h => (hblank h).tail)
          simp only [Option.bind_some, decode_succ, hrest]
          cases decode named bytes k cs with
          | none => rfl
          | some codes => simp [Function.comp_def]
  | @lineBreak cs hcs ih =>
      obtain rfl := hskip.eq_zero_of_backslash
      rw [severable_lineBreak] at hsevers
      rw [decode_lineBreak] at h ⊢
      rw [← ih hsevers (inReach_zero cs) (h.imp_right fun h => ?_)]
      · exact decode_lineBreak named bytes _
      · have htail := (h.resolve_left (by simp)).tail.resolve_left (by simp)
        exact (htail.tail.resolve_left (by simp)).tail

/-! ## Joining -/

theorem severable_flatten {bytes : Bool} {q : Char} {bodies : List Text}
    (hbodies : ∀ body ∈ bodies, IsBody q body ∧ severable bytes body = true) :
    severable bytes bodies.flatten = true := by
  induction bodies with
  | nil => rfl
  | cons body bodies ih =>
      obtain ⟨hbody, hsevers⟩ := hbodies body (by simp)
      rw [List.flatten_cons, severable_append bytes hbody, hsevers,
        ih fun b hb => hbodies b (by simp [hb])]
      rfl

/-- Joined bodies mean what they mean one by one. -/
theorem decode_flatten {named : Text → Option Nat} {bytes : Bool} {q : Char} {bodies : List Text}
    (hbodies : ∀ body ∈ bodies, IsBody q body ∧ severable bytes body = true) {codes : List Nat}
    (h : collect (decode named bytes 0) bodies = some codes) :
    decode named bytes 0 bodies.flatten = some codes := by
  induction bodies generalizing codes with
  | nil => exact h
  | cons body bodies ih =>
      rw [collect_cons] at h
      obtain ⟨first, hfirst, h⟩ := Option.bind_eq_some_iff.mp h
      obtain ⟨rest, hrest, rfl⟩ := Option.map_eq_some_iff.mp h
      obtain ⟨hbody, hsevers⟩ := hbodies body (by simp)
      have hothers : IsBody q bodies.flatten := .flatten fun b hb => (hbodies b (by simp [hb])).1
      rw [List.flatten_cons, decode_append hbody hsevers hothers.head?_ne_lineFeed (inReach_zero body)
        (.inl (by simp [hfirst])), hfirst, Option.bind_some,
        ih (fun b hb => hbodies b (by simp [hb])) hrest, Option.map_some]

/-! ## Cutting -/

theorem IsBody.of_append {q : Char} {a b : Text} (h : IsBody q (a ++ b))
    (hblank : a = [] ∨ EndsInBlank a) : IsBody q a ∧ IsBody q b := by
  generalize ht : a ++ b = t at h
  induction h generalizing a with
  | nil =>
      obtain ⟨rfl, rfl⟩ := List.append_eq_nil_iff.mp ht
      exact ⟨.nil, .nil⟩
  | @char c cs hescape hquote hbreak hcs ih =>
      cases a with
      | nil =>
          rw [List.nil_append] at ht
          exact ⟨.nil, ht ▸ .char hescape hquote hbreak hcs⟩
      | cons d ds =>
          obtain ⟨rfl, hrest⟩ := List.cons.inj ht
          obtain ⟨hds, hb⟩ := ih (hblank.resolve_left (by simp)).tail hrest
          exact ⟨.char hescape hquote hbreak hds, hb⟩
  | @escape c cs hcs ih =>
      match a, ht with
      | [], ht =>
          rw [List.nil_append] at ht
          exact ⟨.nil, ht ▸ .escape c hcs⟩
      | [d], ht =>
          obtain ⟨rfl, -⟩ := List.cons.inj ht
          simp [EndsInBlank] at hblank
      | d :: e :: ds, ht =>
          simp only [List.cons_append, List.cons.injEq] at ht
          obtain ⟨rfl, rfl, hrest⟩ := ht
          have htail := (hblank.resolve_left (by simp)).tail.resolve_left (by simp)
          obtain ⟨hds, hb⟩ := ih htail.tail hrest
          exact ⟨.escape e hds, hb⟩
  | @lineBreak cs hcs ih =>
      match a, ht with
      | [], ht =>
          rw [List.nil_append] at ht
          exact ⟨.nil, ht ▸ .lineBreak hcs⟩
      | [d], ht =>
          obtain ⟨rfl, -⟩ := List.cons.inj ht
          simp [EndsInBlank] at hblank
      | [d, e], ht =>
          simp only [List.cons_append, List.cons.injEq] at ht
          obtain ⟨rfl, rfl, -⟩ := ht
          simp [EndsInBlank] at hblank
      | d :: e :: f :: ds, ht =>
          simp only [List.cons_append, List.cons.injEq] at ht
          obtain ⟨rfl, rfl, rfl, hrest⟩ := ht
          have htail := (hblank.resolve_left (by simp)).tail.resolve_left (by simp)
          obtain ⟨hds, hb⟩ := ih (htail.tail.resolve_left (by simp)).tail hrest
          exact ⟨.lineBreak hds, hb⟩

/-- Induction over the parts of a text, of which all but the last are known to be cut off well. -/
theorem parts_induction {cuts : Text → Prop}
    {motive : (parts : List Text) → (∀ part ∈ parts.dropLast, cuts part) → Prop}
    (nil : ∀ h, motive [] h) (last : ∀ part h, motive [part] h)
    (cut : ∀ part parts h h', cuts part → motive parts h' → motive (part :: parts) h)
    (parts : List Text) (h : ∀ part ∈ parts.dropLast, cuts part) : motive parts h := by
  induction parts with
  | nil => exact nil h
  | cons part parts ih =>
      cases parts with
      | nil => exact last part h
      | cons next parts =>
          have hall := h
          rw [List.dropLast_cons_of_ne_nil (by simp), List.forall_mem_cons] at hall
          exact cut part _ h hall.2 hall.1 (ih hall.2)

/-- A severable body that is cut behind blanks means what its parts mean one by one. -/
theorem collect_decode_of_flatten {named : Text → Option Nat} {bytes : Bool} {q : Char}
    {parts : List Text} (hblank : ∀ part ∈ parts.dropLast, EndsInBlank part)
    (hbody : IsBody q parts.flatten) (hsevers : severable bytes parts.flatten = true)
    {codes : List Nat} (h : decode named bytes 0 parts.flatten = some codes) :
    (∀ part ∈ parts, IsBody q part) ∧ collect (decode named bytes 0) parts = some codes := by
  induction parts, hblank using parts_induction generalizing codes with
  | nil => exact ⟨by simp, h⟩
  | last part =>
      rw [List.flatten_cons, List.flatten_nil, List.append_nil] at hbody h
      refine ⟨by simpa using hbody, ?_⟩
      rw [collect_cons, h, collect_nil]
      simp
  | cut part parts _ _ hpart ih =>
      rw [List.flatten_cons] at hbody hsevers h
      obtain ⟨hfirst, hrest⟩ := hbody.of_append (.inr hpart)
      rw [severable_append bytes hfirst, Bool.and_eq_true] at hsevers
      rw [decode_append hfirst hsevers.1 hrest.head?_ne_lineFeed (inReach_zero part)
        (.inr (.inr hpart))] at h
      obtain ⟨first, hcodes, hmap⟩ := Option.bind_eq_some_iff.mp h
      obtain ⟨rest, hcodes', rfl⟩ := Option.map_eq_some_iff.mp hmap
      obtain ⟨hbodies, hcollect⟩ := ih hrest hsevers.2 hcodes'
      refine ⟨List.forall_mem_cons.mpr ⟨hfirst, hbodies⟩, ?_⟩
      rw [collect_cons, hcodes, hcollect]
      rfl

/-! ## Words and lines -/

theorem endsInBlank_splitAfter (t : Text) :
    ∀ word ∈ (Text.splitAfter (· == ' ') t).dropLast, EndsInBlank word := by
  induction t with
  | nil => simp [Text.splitAfter]
  | cons c cs ih =>
      intro word hword
      rw [Text.splitAfter] at hword
      split at hword
      · rename_i hc
        cases hwords : Text.splitAfter (· == ' ') cs with
        | nil => simp [hwords] at hword
        | cons l ls =>
            rw [hwords, List.dropLast_cons_of_ne_nil (by simp)] at hword
            rcases List.mem_cons.mp hword with rfl | hword
            · simpa [EndsInBlank] using hc
            · exact ih word (hwords ▸ hword)
      · split at hword
        · simp at hword
        · rename_i l ls hwords
          rw [hwords] at ih
          cases ls with
          | nil => simp at hword
          | cons m ls =>
              rw [List.dropLast_cons_of_ne_nil (by simp)] at hword ih
              rcases List.mem_cons.mp hword with rfl | hword
              · have hl := ih l (by simp)
                cases l with
                | nil => cases hl
                | cons d l => rwa [EndsInBlank, List.getLast?_cons_cons]
              · exact ih word (by simp [hword])

theorem fill_ne_nil (overhead available : Nat) (line : Text) (words : List Text) :
    StringRun.fill overhead available line words ≠ [] := by
  induction words generalizing line with
  | nil => simp [StringRun.fill]
  | cons word words ih =>
      rw [StringRun.fill]
      split
      · simp
      · exact ih _

theorem fill_lines (overhead available : Nat) (line : Text) {words : List Text}
    (hwords : ∀ word ∈ words.dropLast, EndsInBlank word)
    (hline : words ≠ [] → line = [] ∨ EndsInBlank line) :
    (StringRun.fill overhead available line words).flatten = line ++ words.flatten ∧
      ∀ l ∈ (StringRun.fill overhead available line words).dropLast, EndsInBlank l := by
  induction words generalizing line with
  | nil => simp [StringRun.fill]
  | cons word words ih =>
      have hrest : ∀ w ∈ words.dropLast, EndsInBlank w := by
        intro w hw
        cases words with
        | nil => simp at hw
        | cons next words => exact hwords w (by simp [List.dropLast_cons_of_ne_nil, hw])
      have hword : words ≠ [] → EndsInBlank word := by
        intro hne
        exact hwords word (by simp [List.dropLast_cons_of_ne_nil hne])
      rw [StringRun.fill]
      split
      · rename_i hfull
        have hne : line ≠ [] := by
          rintro rfl
          simp at hfull
        obtain ⟨hflatten, hblank⟩ := ih word hrest fun h => .inr (hword h)
        refine ⟨by rw [List.flatten_cons, hflatten, List.flatten_cons], ?_⟩
        intro l hl
        rw [List.dropLast_cons_of_ne_nil (fill_ne_nil _ _ _ _)] at hl
        rcases List.mem_cons.mp hl with rfl | hl
        · exact (hline (by simp)).resolve_left hne
        · exact hblank l hl
      · have hlonger : words ≠ [] → line ++ word = [] ∨ EndsInBlank (line ++ word) := by
          intro h
          right
          rw [EndsInBlank, List.getLast?_append, hword h, Option.some_or]
        obtain ⟨hflatten, hblank⟩ := ih (line ++ word) hrest hlonger
        exact ⟨by rw [hflatten, List.flatten_cons, List.append_assoc], hblank⟩

end SchemaTidy
