import SchemaTidy.Proofs.Literal.Quoted

/-!
# Bodies respelled around their fields

A pass that respells quotes works on both sides of a brace apart. It respells the outline of a body
as it respells a body, and it keeps a replacement field exactly if it keeps the field that stands
alone.
-/

namespace SchemaTidy

/-! ## Texts without fields -/

/-- A text of a body in which no replacement field opens. -/
inductive FieldFree (formatted : Bool) : Text → Prop
  | nil : FieldFree formatted []
  | char {c : Char} {l : Text} (hc : c ≠ '\\') (hbrace : formatted = true → c ≠ '{')
      (h : FieldFree formatted l) : FieldFree formatted (c :: l)
  | escape (c : Char) {l : Text} (h : FieldFree formatted l) : FieldFree formatted ('\\' :: c :: l)
  | braces {l : Text} (hformatted : formatted = true) (h : FieldFree formatted l) :
      FieldFree formatted ('{' :: '{' :: l)

section Sections

variable {formatted triple : Bool} {qs l b o u : Text} {fs : List Text}

namespace FieldFree

theorem prepend (hl : FieldFree formatted l) (h : Outlined formatted triple b fs o) :
    Outlined formatted triple (l ++ b) fs (l ++ o) := by
  induction hl with
  | nil => exact h
  | char hc hbrace _ ih => exact .char hc hbrace ih
  | escape c _ ih => exact .escape c ih
  | braces hformatted _ ih => exact .braces hformatted ih

theorem outlined (hl : FieldFree formatted l) : Outlined formatted triple l [] l := by
  have hall : Outlined formatted triple (l ++ []) [] (l ++ []) := hl.prepend .nil
  rwa [List.append_nil] at hall

theorem of_prepend (hl : FieldFree formatted l) (h : Outlined formatted triple (l ++ b) fs o) :
    ∃ o', Outlined formatted triple b fs o' := by
  induction hl generalizing o with
  | nil => exact ⟨o, h⟩
  | @char c l hc hbrace _ ih =>
      rw [List.cons_append] at h
      generalize l ++ b = rest at h ih
      cases h with
      | char _ _ h => exact ih h
      | escape => exact absurd rfl hc
      | braces hformatted => exact absurd rfl (hbrace hformatted)
      | field hformatted => exact absurd rfl (hbrace hformatted)
  | @escape c l _ ih =>
      rw [List.cons_append, List.cons_append] at h
      generalize l ++ b = rest at h ih
      cases h with
      | char hc => exact absurd rfl hc
      | escape _ h => exact ih h
  | @braces l hformatted _ ih =>
      rw [List.cons_append, List.cons_append] at h
      generalize htext : '{' :: '{' :: (l ++ b) = text at h
      cases h with
      | nil => cases htext
      | char hc hbrace =>
          obtain ⟨rfl, -⟩ := List.cons.inj htext
          exact absurd rfl (hbrace hformatted)
      | escape c h => simp at htext
      | braces _ h =>
          obtain rfl : l ++ b = _ := by simpa using htext
          exact ih h
      | @field f _ _ _ _ _ hopen _ =>
          cases f with
          | nil => simp at htext
          | cons d f =>
              obtain rfl : '{' = d := by simpa using congrArg (·.tail.head?) htext
              exact absurd rfl hopen

theorem respelled (hqs : AreQuotes qs) (h : FieldFree formatted l) (hu : Respelled qs l u) :
    FieldFree formatted u := by
  have hbrace : '{' ∉ qs := fun hmem => absurd (hqs _ hmem) (by decide)
  induction h generalizing u with
  | nil =>
      cases hu with
      | nil => exact .nil
  | char hc hplain _ ih =>
      cases hu with
      | backslash => exact absurd rfl hc
      | char _ hu => exact .char hc hplain (ih hu)
      | escape => exact absurd rfl hc
      | gain _ hu => exact .escape _ (ih hu)
      | lose => exact absurd rfl hc
  | escape c _ ih =>
      cases hu with
      | char hc => exact absurd rfl hc
      | escape _ hu => exact .escape c (ih hu)
      | gain hmem => exact absurd hmem hqs.ne_backslash
      | lose hmem hu =>
          refine .char ?_ ?_ (ih hu)
          · rintro rfl
            exact hqs.ne_backslash hmem
          · rintro - rfl
            exact hbrace hmem
  | braces hformatted _ ih =>
      cases hu with
      | char _ hu =>
          cases hu with
          | char _ hu => exact .braces hformatted (ih hu)
          | gain hmem => exact absurd hmem hbrace
      | gain hmem => exact absurd hmem hbrace

end FieldFree

theorem Outlined.cases_field (h : Outlined formatted triple b fs o) :
    (fs = [] ∧ o = b ∧ FieldFree formatted b) ∨
      ∃ l f b' fs' o', b = l ++ '{' :: (f ++ '}' :: b') ∧ fs = f :: fs' ∧
        o = l ++ '{' :: '}' :: o' ∧ FieldFree formatted l ∧ formatted = true ∧
        IsField triple f ∧ f.head? ≠ some '{' ∧ Outlined formatted triple b' fs' o' := by
  induction h with
  | nil => exact .inl ⟨rfl, rfl, .nil⟩
  | @char c b o fs hc hbrace h ih =>
      rcases ih with ⟨rfl, rfl, hb⟩ | ⟨l, f, b', fs', o', rfl, rfl, rfl, hl, hrest⟩
      · exact .inl ⟨rfl, rfl, .char hc hbrace hb⟩
      · exact .inr ⟨c :: l, f, b', fs', o', rfl, rfl, rfl, .char hc hbrace hl, hrest⟩
  | @escape c b o fs h ih =>
      rcases ih with ⟨rfl, rfl, hb⟩ | ⟨l, f, b', fs', o', rfl, rfl, rfl, hl, hrest⟩
      · exact .inl ⟨rfl, rfl, .escape c hb⟩
      · exact .inr ⟨'\\' :: c :: l, f, b', fs', o', rfl, rfl, rfl, .escape c hl, hrest⟩
  | @braces b o fs hformatted h ih =>
      rcases ih with ⟨rfl, rfl, hb⟩ | ⟨l, f, b', fs', o', rfl, rfl, rfl, hl, hrest⟩
      · exact .inl ⟨rfl, rfl, .braces hformatted hb⟩
      · exact .inr ⟨'{' :: '{' :: l, f, b', fs', o', rfl, rfl, rfl, .braces hformatted hl, hrest⟩
  | @field f b o fs hformatted hfield hopen h ih =>
      exact .inr ⟨[], f, b, fs, o, rfl, rfl, rfl, .nil, hformatted, hfield, hopen, h⟩

theorem Outlined.of_brace {g f : Text}
    (h : Outlined formatted triple ('{' :: (g ++ '}' :: u)) (f :: fs) o)
    (hformatted : formatted = true) (hopen : g.head? ≠ some '{') :
    ∃ y o', g ++ '}' :: u = f ++ '}' :: y ∧ Outlined formatted triple y fs o' := by
  generalize htext : '{' :: (g ++ '}' :: u) = text at h
  cases h with
  | char hc hbrace =>
      obtain ⟨rfl, -⟩ := List.cons.inj htext
      exact absurd rfl (hbrace hformatted)
  | escape => cases htext
  | braces =>
      cases g with
      | nil => simp at htext
      | cons d g =>
          obtain rfl : d = '{' := by simpa using congrArg (·.tail.head?) htext
          exact absurd rfl hopen
  | field _ _ _ h => exact ⟨_, _, (List.cons.inj htext).2, h⟩

/-! ## Respelling section by section -/

/-- `inner` respells what stands before a brace, and `last` what ends a body. -/
structure Sectional (qs : Text) (inner last : Text → Text) : Prop where
  are_quotes : AreQuotes qs
  respelled : ∀ t, Respelled qs t (inner t)
  apart : ∀ (a : Text) (c : Char) (b : Text), c = '{' ∨ c = '}' →
    last (a ++ c :: b) = inner a ++ last (c :: b)
  brace : ∀ (c : Char) (b : Text), c = '{' ∨ c = '}' → ∃ u, last (c :: b) = c :: u
  ends : ∀ {formatted : Bool} {l : Text}, FieldFree formatted l → FieldFree formatted (last l)

namespace Sectional

variable {inner last : Text → Text}

theorem inner_open (h : Sectional qs inner last) (f : Text) :
    ∃ g, inner ('{' :: f) = '{' :: g ∧ Respelled qs f g := by
  have hbrace : '{' ∉ qs := fun hmem => absurd (h.are_quotes _ hmem) (by decide)
  have hspelled := h.respelled ('{' :: f)
  generalize inner ('{' :: f) = u at hspelled
  cases hspelled with
  | char _ hrest => exact ⟨_, rfl, hrest⟩
  | gain hmem => exact absurd hmem hbrace

theorem last_field (h : Sectional qs inner last) (l f b : Text) :
    ∃ g u, inner ('{' :: f) = '{' :: g ∧ Respelled qs f g ∧ last ('}' :: b) = '}' :: u ∧
      last (l ++ '{' :: (f ++ '}' :: b)) = inner l ++ '{' :: (g ++ '}' :: u) := by
  obtain ⟨g, hg, hspelled⟩ := h.inner_open f
  obtain ⟨u, hu⟩ := h.brace '}' b (.inr rfl)
  refine ⟨g, u, hg, hspelled, hu, ?_⟩
  rw [h.apart l '{' _ (.inl rfl), ← List.cons_append, h.apart _ '}' b (.inr rfl), hg, hu,
    List.cons_append]

/-- The outline of a body is respelled as a body is, if the fields are kept. -/
theorem outlined (h : Sectional qs inner last) (hb : Outlined formatted triple b fs o)
    (hkept : ∀ f ∈ fs, inner ('{' :: f) = '{' :: f) :
    Outlined formatted triple (last b) fs (last o) := by
  induction fs generalizing b o with
  | nil =>
      rcases hb.cases_field with ⟨-, rfl, hfree⟩ | ⟨_, _, _, _, _, -, hcons, -⟩
      · exact (h.ends hfree).outlined
      · cases hcons
  | cons f fs ih =>
      rcases hb.cases_field with ⟨hnone, -⟩ |
        ⟨l, f', b', fs', o', rfl, hcons, rfl, hl, hformatted, hfield, hopen, hb'⟩
      · cases hnone
      obtain ⟨rfl, rfl⟩ := List.cons.inj hcons
      obtain ⟨g, u, hg, -, hu, hlast⟩ := h.last_field l f b'
      obtain ⟨_, v, -, hnil, hv, hlast'⟩ := h.last_field l [] o'
      cases hnil
      obtain rfl : g = f := (List.cons.inj (hg.symm.trans (hkept f (by simp)))).2
      have hrest : Outlined formatted triple ('}' :: u) fs ('}' :: v) := by
        rw [← hu, ← hv]
        exact ih (.char (by decide) (fun _ => by decide) hb') fun e he => hkept e (by simp [he])
      have hbehind : Outlined formatted triple u fs v := by
        cases hrest with
        | char _ _ hrest => exact hrest
      rw [List.nil_append] at hlast'
      rw [hlast, hlast']
      exact (hl.respelled h.are_quotes (h.respelled l)).prepend
        (.field hformatted hfield hopen hbehind)

theorem kept (h : Sectional qs inner last) (hb : Outlined formatted triple b fs o)
    (hlast : ∃ o', Outlined formatted triple (last b) fs o') :
    ∀ f ∈ fs, inner ('{' :: f) = '{' :: f := by
  induction fs generalizing b o with
  | nil => simp
  | cons f fs ih =>
      rcases hb.cases_field with ⟨hnone, -⟩ |
        ⟨l, f', b', fs', o', rfl, hcons, rfl, hl, hformatted, hfield, hopen, hb'⟩
      · cases hnone
      obtain ⟨rfl, rfl⟩ := List.cons.inj hcons
      obtain ⟨g, u, hg, hspelled, hu, hbody⟩ := h.last_field l f b'
      obtain ⟨o₂, hlast⟩ := hlast
      rw [hbody] at hlast
      obtain ⟨o₃, hlast⟩ := (hl.respelled h.are_quotes (h.respelled l)).of_prepend hlast
      have hopen' : g.head? ≠ some '{' := by
        cases hspelled with
        | nil => simp
        | backslash => simp
        | char => simpa using hopen
        | escape => simp
        | gain => simp
        | lose hmem =>
            rw [List.head?_cons, ne_eq, Option.some.injEq]
            rintro rfl
            exact absurd (h.are_quotes _ hmem) (by decide)
      obtain ⟨y, o₄, hsame, hy⟩ := hlast.of_brace hformatted hopen'
      obtain rfl := hspelled.eq_of_append h.are_quotes hsame
      obtain rfl : u = y := by simpa using hsame
      have hrest : ∀ e ∈ fs, inner ('{' :: e) = '{' :: e := by
        have hbehind : Outlined formatted triple ('}' :: u) fs ('}' :: o₄) :=
          .char (by decide) (fun _ => by decide) hy
        rw [← hu] at hbehind
        exact ih (.char (by decide) (fun _ => by decide) hb') ⟨_, hbehind⟩
      intro e he
      rcases List.mem_cons.mp he with rfl | he
      · exact hg
      · exact hrest e he

end Sectional

end Sections

end SchemaTidy
