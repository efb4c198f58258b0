import SchemaTidy.Proofs.Literal.Usual

/-!
# Parts of a body

A body is put together from the bodies of several literals, and it is cut behind blanks. Respelling
its quotes, whether its quotes stand behind backslashes and whether it holds an escape that a longer
text could extend are all known from its parts.
-/

namespace SchemaTidy

/-! ## Respelling -/

/-- Whether no backslash at the end of a text waits for a character. -/
def closed : Text → Bool
  | [] => true
  | ['\\'] => false
  | '\\' :: _ :: cs => closed cs
  | _ :: cs => closed cs

theorem closed_cons {c : Char} (hc : c ≠ '\\') (cs : Text) : closed (c :: cs) = closed cs := by
  rw [closed]
  · rintro rfl
    exact absurd rfl hc
  · intro d ds hd
    exact absurd hd hc

theorem closed_escape (c : Char) (cs : Text) : closed ('\\' :: c :: cs) = closed cs := by
  rw [closed]

theorem IsBody.closed {q : Char} {t : Text} (h : IsBody q t) : closed t = true := by
  induction h with
  | nil => rfl
  | char hescape hquote hbreak hcs ih => rwa [closed_cons hescape]
  | escape c hcs ih => rwa [closed_escape]
  | lineBreak hcs ih => rwa [closed_escape, closed_cons (by decide)]

theorem EndsInBlank.closed {t : Text} (h : EndsInBlank t) : closed t = true := by
  fun_induction SchemaTidy.closed t with
  | case1 => rfl
  | case2 => simp [EndsInBlank] at h
  | case3 c cs ih =>
      rcases h.tail.resolve_left (by simp) |>.tail with rfl | htail
      · rfl
      · exact ih htail
  | case4 c cs _ _ ih =>
      rcases h.tail with rfl | htail
      · rfl
      · exact ih htail

theorem respell_append (rule : Char → Bool → Bool) {a : Text} (ha : closed a = true) (b : Text) :
    respell rule (a ++ b) = respell rule a ++ respell rule b := by
  fun_induction closed a with
  | case1 => rfl
  | case2 => cases ha
  | case3 c cs ih =>
      rw [List.cons_append, List.cons_append, respell_escape, respell_escape, ih ha,
        List.append_assoc]
  | case4 c cs hend hescape ih =>
      have hc : c ≠ '\\' := by
        rintro rfl
        cases cs with
        | nil => exact hend rfl rfl
        | cons d ds => exact hescape d ds rfl rfl
      rw [List.cons_append, respell_cons rule hc, respell_cons rule hc, ih ha, List.append_assoc]

theorem respell_flatten (rule : Char → Bool → Bool) {parts : List Text}
    (hparts : ∀ part ∈ parts.dropLast, closed part = true) :
    respell rule parts.flatten = (parts.map (respell rule)).flatten := by
  induction parts, hparts using parts_induction with
  | nil => rfl
  | last part => simp
  | cut part parts _ _ hpart ih =>
      rw [List.flatten_cons, respell_append rule hpart, ih, List.map_cons, List.flatten_cons]

theorem respell_setEscape_of_isBody {q : Char} {t : Text} (h : IsBody q t) :
    respell (setEscape q true) t = t := by
  induction h with
  | nil => rfl
  | char hescape hquote hbreak hcs ih =>
      rw [respell_cons _ hescape, ih]
      simp [setEscape, hquote]
  | escape c hcs ih =>
      rw [respell_escape, ih]
      simp [setEscape]
  | lineBreak hcs ih => rw [respell_lineBreak, ih]

theorem respell_id (t : Text) : respell (fun _ before => before) t = t := by
  fun_induction respell (fun _ before => before) t with
  | case1 => rfl
  | case2 c cs ih => rw [ih]; simp
  | case3 c cs _ ih => rw [ih]; simp

/-- A rule that takes the backslashes from a quote takes them once and for all. -/
theorem respell_setEscape_respell {rule : Char → Bool → Bool} {d : Char}
    (hrule : ∀ before, rule d before = false) {t : Text} :
    respell (setEscape d false) (respell rule t) = respell rule t := by
  rw [respell_respell]
  congr 1
  funext e before
  rw [setEscape]
  split
  · rename_i he
    rw [he, hrule]
  · rfl

/-! ## Quotes behind backslashes -/

/-- A text in which each quote `q` stands behind a backslash. -/
inductive Guarded (q : Char) : Text → Prop
  | nil : Guarded q []
  | char {c : Char} {cs : Text} (hquote : c ≠ q) (hcs : Guarded q cs) : Guarded q (c :: cs)
  | escape {cs : Text} (hcs : Guarded q cs) : Guarded q ('\\' :: q :: cs)

namespace Guarded

variable {q : Char}

theorem head?_ne (hq : q ≠ '\\') {t : Text} (h : Guarded q t) : t.head? ≠ some q := by
  cases h with
  | nil => simp
  | char hquote hcs => simpa using hquote
  | escape hcs => simpa using hq.symm

theorem append {a b : Text} (ha : Guarded q a) (hb : Guarded q b) : Guarded q (a ++ b) := by
  induction ha with
  | nil => exact hb
  | char hquote hcs ih => exact .char hquote ih
  | escape hcs ih => exact .escape ih

theorem flatten {parts : List Text} (h : ∀ part ∈ parts, Guarded q part) :
    Guarded q parts.flatten := by
  induction parts with
  | nil => exact .nil
  | cons part parts ih =>
      rw [List.forall_mem_cons] at h
      exact h.1.append (ih h.2)

theorem of_append {a b : Text} (h : Guarded q (a ++ b)) (hblank : a = [] ∨ EndsInBlank a) :
    Guarded q a ∧ Guarded q b := by
  generalize ht : a ++ b = t at h
  induction h generalizing a with
  | nil =>
      obtain ⟨rfl, rfl⟩ := List.append_eq_nil_iff.mp ht
      exact ⟨.nil, .nil⟩
  | @char c cs hquote hcs ih =>
      cases a with
      | nil =>
          rw [List.nil_append] at ht
          exact ⟨.nil, ht ▸ .char hquote hcs⟩
      | cons d ds =>
          obtain ⟨rfl, hrest⟩ := List.cons.inj ht
          obtain ⟨hds, hb⟩ := ih (hblank.resolve_left (by simp)).tail hrest
          exact ⟨.char hquote hds, hb⟩
  | @escape cs hcs ih =>
      match a, ht with
      | [], ht =>
          rw [List.nil_append] at ht
          exact ⟨.nil, ht ▸ .escape hcs⟩
      | [d], ht =>
          obtain ⟨rfl, -⟩ := List.cons.inj ht
          simp [EndsInBlank] at hblank
      | d :: e :: ds, ht =>
          simp only [List.cons_append, List.cons.injEq] at ht
          obtain ⟨rfl, rfl, hrest⟩ := ht
          have htail := (hblank.resolve_left (by simp)).tail.resolve_left (by simp)
          obtain ⟨hds, hb⟩ := ih htail.tail hrest
          exact ⟨.escape hds, hb⟩

theorem of_flatten {parts : List Text} (h : Guarded q parts.flatten)
    (hblank : ∀ part ∈ parts.dropLast, EndsInBlank part) : ∀ part ∈ parts, Guarded q part := by
  induction parts, hblank using parts_induction with
  | nil => simp
  | last part => simpa using h
  | cut part parts _ _ hpart ih =>
      rw [List.flatten_cons] at h
      obtain ⟨hfirst, hrest⟩ := h.of_append (.inr hpart)
      exact List.forall_mem_cons.mpr ⟨hfirst, ih hrest⟩

end Guarded

theorem IsBody.guarded {q : Char} (hq : isQuote q = true) {t : Text} (h : IsBody q t) :
    Guarded q t := by
  obtain ⟨hescape, hbreak, -⟩ := quote_facts hq
  have hother {c : Char} (hc : isQuote c = false) : c ≠ q := by
    rintro rfl
    exact absurd (hq.symm.trans hc) (by simp)
  induction h with
  | nil => exact .nil
  | char _ hquote _ _ ih => exact .char hquote ih
  | escape c _ ih =>
      by_cases hc : c = q
      · subst hc
        exact .escape ih
      · exact .char (hother rfl) (.char hc ih)
  | lineBreak _ ih => exact .char (hother rfl) (.char (hother rfl) (.char (hother rfl) ih))

/-- Quotes that are as many as the quotes behind backslashes all stand behind backslashes. -/
theorem guarded_of_occurrences {q : Char} (hq : q ≠ '\\') {t : Text}
    (h : occurrences [q] t = occurrences ['\\', q] t) : Guarded q t := by
  induction hlength : t.length using Nat.strongRecOn generalizing t with
  | ind length ih =>
      subst hlength
      cases t with
      | nil => exact .nil
      | cons c cs =>
          by_cases hescape : ['\\', q].isPrefixOf (c :: cs) = true
          · obtain ⟨ds, hds⟩ := List.isPrefixOf_iff_prefix.mp hescape
            obtain ⟨rfl, rfl⟩ : '\\' = c ∧ q :: ds = cs := by simpa using hds
            have hrest : occurrences [q] ds = occurrences ['\\', q] ds := by
              simpa [occurrences, List.isPrefixOf, hq] using h
            exact .escape (ih ds.length (by simp only [List.length_cons]; omega) hrest rfl)
          · have hle := occurrences_escaped_le q cs
            rw [occurrences, occurrences, if_neg hescape] at h
            by_cases hc : [q].isPrefixOf (c :: cs) = true
            · rw [if_pos hc] at h
              simp only [List.length_singleton, Nat.sub_self, List.drop_zero] at h
              omega
            · rw [if_neg hc] at h
              have hne : c ≠ q := by
                rintro rfl
                exact hc (by simp [List.isPrefixOf])
              exact .char hne (ih cs.length (by simp) h rfl)

/-! ## Escapes -/

/-- Whether a text looks, behind a backslash, like an escape that a longer text could extend. -/
def extendableTail (t : Text) : Bool := ['N', '{'].isPrefixOf t || t.head?.any Char.isDigit

/-- Whether a body holds what looks like an escape that a longer text could extend. -/
def extendable (body : Text) : Bool := occursIn "\\N\x7b".toList body || hasDigitEscape body

theorem extendable_cons (c : Char) (cs : Text) :
    extendable (c :: cs) = (c == '\\' && extendableTail cs || extendable cs) := by
  have hdigit : hasDigitEscape (c :: cs) =
      (c == '\\' && cs.head?.any Char.isDigit || hasDigitEscape cs) := by
    cases cs with
    | nil => simp [hasDigitEscape]
    | cons d ds => rw [hasDigitEscape, List.head?_cons, Option.any_some]
  have hname : occursIn "\\N\x7b".toList (c :: cs) =
      (c == '\\' && ['N', '{'].isPrefixOf cs || occursIn "\\N\x7b".toList cs) := by
    rw [occursIn, BEq.comm (a := c)]
    rfl
  rw [extendable, hdigit, hname, extendable, extendableTail]
  cases c == '\\' with
  | false => simp
  | true =>
      simp only [Bool.true_and]
      ac_rfl

theorem extendableTail_append {a : Text} (ha : EndsInBlank a) (b : Text) :
    extendableTail (a ++ b) = extendableTail a := by
  obtain ⟨w, rfl⟩ := List.getLast?_eq_some_iff.mp ha
  have hhead : (w ++ ' ' :: b).head? = (w ++ [' ']).head? := by cases w <;> rfl
  have hmem : ' ' ∉ ['N', '{'] := by decide
  rw [List.append_assoc, List.singleton_append, extendableTail, extendableTail, hhead,
    isPrefixOf_append_of_not_mem hmem, isPrefixOf_append_of_not_mem hmem]

theorem extendable_append {a : Text} (ha : a = [] ∨ EndsInBlank a) (b : Text) :
    extendable (a ++ b) = (extendable a || extendable b) := by
  induction a with
  | nil => rfl
  | cons c cs ih =>
      have htail := (ha.resolve_left (by simp)).tail
      have hescape : (c == '\\' && extendableTail (cs ++ b)) = (c == '\\' && extendableTail cs) := by
        rcases htail with rfl | htail
        · obtain rfl : c = ' ' := by simpa [EndsInBlank] using ha
          rfl
        · rw [extendableTail_append htail]
      rw [List.cons_append, extendable_cons, hescape, ih htail, extendable_cons, Bool.or_assoc]

theorem extendable_flatten {parts : List Text}
    (hblank : ∀ part ∈ parts.dropLast, EndsInBlank part) :
    extendable parts.flatten = parts.any extendable := by
  induction parts, hblank using parts_induction with
  | nil => rfl
  | last part => simp
  | cut part parts _ _ hpart ih =>
      rw [List.flatten_cons, extendable_append (.inr hpart), ih, List.any_cons]

namespace Respelled

variable {qs t u : Text}

/-- Two spellings start with the same characters if these are neither quotes nor backslashes. -/
theorem isPrefixOf_eq (hqs : AreQuotes qs) {p : Text} (hp : ∀ c ∈ p, IsStill c)
    (h : Respelled qs t u) : p.isPrefixOf u = p.isPrefixOf t := by
  induction p generalizing t u with
  | nil => rfl
  | cons d p ih =>
      obtain ⟨⟨hquote, hescape⟩, hp⟩ := List.forall_mem_cons.mp hp
      have hback : (d == '\\') = false := beq_false_of_ne hescape
      have hne {c : Char} (hc : c ∈ qs) : (d == c) = false := by
        apply beq_false_of_ne
        rintro rfl
        exact absurd (hquote.symm.trans (hqs _ hc)) (by simp)
      cases h with
      | nil => rfl
      | backslash => rfl
      | char _ h => simp [List.isPrefixOf, ih hp h]
      | escape => simp [List.isPrefixOf, hback]
      | gain hc => simp [List.isPrefixOf, hback, hne hc]
      | lose hc => simp [List.isPrefixOf, hback, hne hc]

theorem append_of_closed (hqs : AreQuotes qs) (h : Respelled qs t u) (hclosed : closed t = true)
    {t' u' : Text} (h' : Respelled qs t' u') : Respelled qs (t ++ t') (u ++ u') := by
  induction h with
  | nil => exact h'
  | backslash => cases hclosed
  | char hc _ ih => exact .char hc (ih (by rwa [closed_cons hc] at hclosed))
  | escape c _ ih => exact .escape c (ih (by rwa [closed_escape] at hclosed))
  | @gain c _ _ hc _ ih =>
      have hescape : c ≠ '\\' := fun hsame => hqs.ne_backslash (hsame ▸ hc)
      exact .gain hc (ih (by rwa [closed_cons hescape] at hclosed))
  | lose hc _ ih => exact .lose hc (ih (by rwa [closed_escape] at hclosed))

theorem extendableTail_eq (hqs : AreQuotes qs) (h : Respelled qs t u) :
    extendableTail u = extendableTail t := by
  have hname := h.isPrefixOf_eq hqs (p := ['N', '{']) (by simp [IsStill, isQuote])
  have hquote {c : Char} (hc : c ∈ qs) : c.isDigit = false := by
    rcases isQuote_iff.mp (hqs c hc) with rfl | rfl <;> rfl
  rw [extendableTail, extendableTail, hname]
  congr 1
  cases h with
  | nil => rfl
  | backslash => rfl
  | char => rfl
  | escape => rfl
  | gain hc => exact (hquote hc).symm
  | lose hc => exact hquote hc

theorem extendable_eq (hqs : AreQuotes qs) (h : Respelled qs t u) : extendable u = extendable t := by
  have hquote {c : Char} (hc : c ∈ qs) (cs : Text) :
      extendable ('\\' :: c :: cs) = extendable cs ∧ extendable (c :: cs) = extendable cs := by
    rcases isQuote_iff.mp (hqs c hc) with rfl | rfl <;> simp [extendable_cons, extendableTail]
  induction h with
  | nil => rfl
  | backslash => rfl
  | char hc _ ih =>
      rw [extendable_cons, extendable_cons, beq_false_of_ne hc, ih]
      rfl
  | @escape c t u h ih =>
      have hname := h.isPrefixOf_eq hqs (p := ['{']) (by simp [IsStill, isQuote])
      have htail : extendableTail (c :: u) = extendableTail (c :: t) := by
        simp only [extendableTail, List.isPrefixOf_cons_cons, hname, List.head?_cons]
      rw [extendable_cons, extendable_cons c, extendable_cons, extendable_cons c, htail,
        h.extendableTail_eq hqs, ih]
  | gain hc _ ih => rw [(hquote hc _).1, (hquote hc _).2, ih]
  | lose hc _ ih => rw [(hquote hc _).1, (hquote hc _).2, ih]

end Respelled

end SchemaTidy
