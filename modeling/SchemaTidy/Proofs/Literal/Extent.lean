import SchemaTidy.Proofs.Literal.Respelled

/-!
# How far a literal extends

The body of a literal is cut at its replacement fields. What is left when the texts of the fields
are taken out is its outline. A literal ends at the first of its quotes in the outline that no
backslash stands before.
-/

namespace SchemaTidy

open Lexeme

/-! ## Frames on top of others -/

theorem literalStep_append_frames (here : Position) (c : Char) (cs : Text) (top : Frame)
    (frames outer : List Frame) :
    literalStep here c cs (top :: (frames ++ outer)) =
      (literalStep here c cs (top :: frames)).map (Prod.map id (· ++ outer)) := by
  -- A step puts frames on the top one, changes it or takes it away.
  have hif (p : Prop) [Decidable p] (x y : Except ParseError (Nat × List Frame)) :=
    apply_ite (Except.map (Prod.map id (· ++ outer))) p x y
  have hok (n : Nat) (new : List Frame) : Except.map (Prod.map id (· ++ outer))
      (.ok (n, new) : Except ParseError (Nat × List Frame)) = .ok (n, new ++ outer) := rfl
  have herror (e : ParseError) : Except.map (Prod.map id (· ++ outer))
      (.error e : Except ParseError (Nat × List Frame)) = .error e := rfl
  cases top with
  | body quote triple formatted start =>
      simp only [literalStep]
      repeat' split
      all_goals rfl
  | field triple depth inSpec start =>
      simp only [literalStep]
      cases cs.drop (Text.lengthWhile Text.isWord cs) with
      | nil => simp only [hif, hok, herror, List.cons_append]
      | cons q rest => simp only [hif, hok, herror, List.cons_append]

theorem literalTail_split {here : Position} {frames outer : List Frame} {cs : Text} {n : Nat}
    (h : literalTail here (frames ++ outer) cs = .ok n) :
    ∃ m here', m ≤ n ∧ literalTail here frames cs = .ok m ∧
      literalTail here' outer (cs.drop m) = .ok (n - m) := by
  induction hlength : cs.length using Nat.strongRecOn generalizing here frames cs n with
  | ind length ih =>
      cases frames with
      | nil => exact ⟨0, here, Nat.zero_le n, literalTail_nil here cs, h⟩
      | cons top frames =>
          cases cs with
          | nil =>
              rw [List.cons_append, literalTail] at h
              cases h
          | cons c cs =>
              rw [List.cons_append] at h
              obtain ⟨k, below, m, hstep, htail, rfl⟩ := exists_of_literalTail_cons h
              rw [literalStep_append_frames] at hstep
              cases hupper : literalStep here c cs (top :: frames) with
              | error e => simp [hupper, Except.map] at hstep
              | ok step =>
                  obtain ⟨k, frames'⟩ := step
                  simp only [hupper, Except.map, Prod.map, id] at hstep
                  cases hstep
                  rw [List.length_cons] at hlength
                  obtain ⟨l, here', hl, hclosed, hlower⟩ :=
                    ih (cs.drop k).length (by rw [List.length_drop]; omega) htail rfl
                  refine ⟨l + k + 1, here', by omega, literalTail_cons hupper hclosed rfl, ?_⟩
                  rw [List.drop_drop] at hlower
                  rw [List.drop_succ_cons, Nat.add_comm l k,
                    show m + k + 1 - (k + l + 1) = m - l by omega]
                  exact hlower

theorem literalTail_join {here : Position} {frames outer : List Frame} {cs : Text} {m n : Nat}
    (h : literalTail here frames cs = .ok m)
    (houter : ∀ here', literalTail here' outer (cs.drop m) = .ok n) :
    literalTail here (frames ++ outer) cs = .ok (m + n) := by
  fun_induction literalTail here frames cs generalizing m with
  | case1 here cs =>
      cases h
      simpa using houter here
  | case2 => cases h
  | case3 => cases h
  | case4 => cases h
  | case5 here top frames c rest k frames' hstep l htail ih =>
      cases h
      rw [List.drop_succ_cons, Nat.add_comm l k, ← List.drop_drop] at houter
      have hstep' : literalStep here c rest (top :: (frames ++ outer)) =
          .ok (k, frames' ++ outer) := by
        rw [literalStep_append_frames, hstep]
        rfl
      exact literalTail_cons hstep' (ih htail houter) (by omega)

/-! ## Replacement fields -/

/-- Where a replacement field ends whose opening brace stands before a text. -/
def fieldEnd? (triple : Bool) (cs : Text) : Option Nat :=
  (literalTail .nowhere [.field triple 0 false .nowhere] cs).toOption

/-- A text between the braces of a replacement field. -/
def IsField (triple : Bool) (f : Text) : Prop := fieldEnd? triple (f ++ ['}']) = some (f.length + 1)

theorem fieldEnd?_eq_some {triple : Bool} {cs : Text} {n : Nat} :
    fieldEnd? triple cs = some n ↔
      literalTail .nowhere [.field triple 0 false .nowhere] cs = .ok n := by
  rw [fieldEnd?]
  cases literalTail .nowhere [.field triple 0 false .nowhere] cs <;> simp [Except.toOption]

theorem IsField.literalTail {triple : Bool} {f : Text} (h : IsField triple f)
    (here start : Position) (y : Text) :
    literalTail here [.field triple 0 false start] (f ++ '}' :: y) = .ok (f.length + 1) := by
  obtain ⟨-, -, hsame⟩ := literalTail_append (fieldEnd?_eq_some.mp h)
  have hfield := hsame here [.field triple 0 false start] y rfl
  rw [List.take_of_length_le (by simp)] at hfield
  simpa using hfield

theorem IsField.fieldEnd? {triple : Bool} {f : Text} (h : IsField triple f) (y : Text) :
    fieldEnd? triple (f ++ '}' :: y) = some (f.length + 1) :=
  fieldEnd?_eq_some.mpr (h.literalTail .nowhere .nowhere y)

def Lexeme.Frame.isField : Frame → Bool
  | .field _ _ _ _ => true
  | .body _ _ _ _ => false

theorem literalStep_bottom {here : Position} {c : Char} {cs : Text} {frames frames' : List Frame}
    {n : Nat} (hbottom : frames.getLast?.any Frame.isField = true)
    (h : literalStep here c cs frames = .ok (n, frames')) :
    (frames' = [] ∧ n = 0 ∧ c = '}') ∨ frames'.getLast?.any Frame.isField = true := by
  cases frames with
  | nil => simp at hbottom
  | cons top outer =>
      cases outer with
      | cons next outer =>
          -- The bottom frame is none that the step looks at.
          right
          have happend := literalStep_append_frames here c cs top [] (next :: outer)
          rw [List.nil_append, h] at happend
          cases hstep : literalStep here c cs [top] with
          | error e => simp [hstep, Except.map] at happend
          | ok step =>
              simp only [hstep, Except.map, Prod.map, Except.ok.injEq, Prod.mk.injEq] at happend
              rw [List.getLast?_cons_cons, List.getLast?_cons] at hbottom
              rw [happend.2, List.getLast?_append, List.getLast?_cons, Option.some_or]
              exact hbottom
      | nil =>
          cases top with
          | body => simp [Frame.isField] at hbottom
          | field triple depth inSpec start =>
              simp only [literalStep] at h
              repeat' split at h
              all_goals cases h
              all_goals simp_all [Frame.isField]

theorem exists_brace_of_literalTail {here : Position} {frames : List Frame} {cs : Text} {n : Nat}
    (hbottom : frames.getLast?.any Frame.isField = true) (h : literalTail here frames cs = .ok n) :
    ∃ f y, cs = f ++ '}' :: y ∧ n = f.length + 1 := by
  fun_induction literalTail here frames cs generalizing n with
  | case1 => simp at hbottom
  | case2 => cases h
  | case3 => cases h
  | case4 => cases h
  | case5 here top outer c rest k frames' hstep m htail ih =>
      cases h
      rcases literalStep_bottom hbottom hstep with ⟨rfl, rfl, rfl⟩ | hbottom'
      · rw [literalTail, Except.ok.injEq] at htail
        subst htail
        exact ⟨[], rest, rfl, rfl⟩
      · obtain ⟨f, y, hdrop, rfl⟩ := ih hbottom' htail
        have hk := literalStep_le hstep
        refine ⟨c :: (rest.take k ++ f), y, ?_, ?_⟩
        · rw [List.cons_append, List.append_assoc, ← hdrop, List.take_append_drop]
        · simp only [List.length_cons, List.length_append, List.length_take]
          omega

theorem exists_field_of_literalTail {triple : Bool} {here start : Position} {cs : Text} {n : Nat}
    (h : literalTail here [.field triple 0 false start] cs = .ok n) :
    ∃ f y, cs = f ++ '}' :: y ∧ n = f.length + 1 ∧ IsField triple f := by
  obtain ⟨f, y, rfl, rfl⟩ := exists_brace_of_literalTail rfl h
  refine ⟨f, y, rfl, rfl, fieldEnd?_eq_some.mpr ?_⟩
  obtain ⟨-, -, hsame⟩ := literalTail_append h
  have hfield := hsame .nowhere [.field triple 0 false .nowhere] [] rfl
  rw [show f ++ '}' :: y = (f ++ ['}']) ++ y by simp, List.take_left' (by simp)] at hfield
  simpa using hfield

/-! ## Outlines -/

/-- A body with its replacement fields and its outline, in which nothing but the braces is left of a
field. Two braces for one open no field. -/
inductive Outlined (formatted triple : Bool) : Text → List Text → Text → Prop
  | nil : Outlined formatted triple [] [] []
  | char {c : Char} {b o : Text} {fs : List Text} (hc : c ≠ '\\')
      (hbrace : formatted = true → c ≠ '{') (h : Outlined formatted triple b fs o) :
      Outlined formatted triple (c :: b) fs (c :: o)
  | escape (c : Char) {b o : Text} {fs : List Text} (h : Outlined formatted triple b fs o) :
      Outlined formatted triple ('\\' :: c :: b) fs ('\\' :: c :: o)
  | braces {b o : Text} {fs : List Text} (hformatted : formatted = true)
      (h : Outlined formatted triple b fs o) :
      Outlined formatted triple ('{' :: '{' :: b) fs ('{' :: '{' :: o)
  | field {f b o : Text} {fs : List Text} (hformatted : formatted = true)
      (hfield : IsField triple f) (hopen : f.head? ≠ some '{') (h : Outlined formatted triple b fs o) :
      Outlined formatted triple ('{' :: (f ++ '}' :: b)) (f :: fs) ('{' :: '}' :: o)

/-- The replacement fields of a formatted body and its outline. -/
def cutFields (triple : Bool) : Text → List Text × Text
  | [] => ([], [])
  | '\\' :: c :: cs => (cutFields triple cs).map id ('\\' :: c :: ·)
  | '{' :: '{' :: cs => (cutFields triple cs).map id ('{' :: '{' :: ·)
  | '{' :: cs =>
      match fieldEnd? triple cs with
      | some n => (cutFields triple (cs.drop n)).map (cs.take (n - 1) :: ·) ('{' :: '}' :: ·)
      | none => ([], '{' :: cs)
  | c :: cs => (cutFields triple cs).map id (c :: ·)
termination_by cs => cs.length
decreasing_by all_goals simp only [List.length_cons, List.length_drop]; omega

theorem Outlined.cutFields_eq {triple : Bool} {b o : Text} {fs : List Text}
    (h : Outlined true triple b fs o) : cutFields triple b = (fs, o) := by
  induction h with
  | nil => rw [cutFields]
  | @char c b o fs hc hbrace h ih =>
      have hbrace : c ≠ '{' := hbrace rfl
      rw [cutFields, ih]
      · rfl
      · intro d ds hd
        exact absurd hd hc
      · intro ds hd
        exact absurd hd hbrace
      · exact hbrace
  | escape c h ih =>
      rw [cutFields, ih]
      rfl
  | braces hformatted h ih =>
      rw [cutFields, ih]
      rfl
  | @field f b o fs hformatted hfield hopen h ih =>
      have hend := hfield.fieldEnd? b
      have hdrop : (f ++ '}' :: b).drop (f.length + 1) = b := by simp [List.drop_append]
      rw [cutFields, hend]
      · simp only [hdrop, ih, Nat.add_sub_cancel, List.take_left]
        rfl
      · intro ds hd
        cases f with
        | nil => simp at hd
        | cons e f =>
            obtain ⟨rfl, -⟩ := List.cons.inj hd
            exact hopen rfl

def quotesOf (q : Char) (triple : Bool) : Text := List.replicate (if triple then 3 else 1) q

/-- Whether a body that stands before `quote` does not end earlier. The first `skip` characters
belong to an escape. -/
def staysOpen (quote : Text) (skip : Nat) : Text → Bool
  | [] => skip == 0
  | c :: cs =>
      match skip with
      | skip + 1 => staysOpen quote skip cs
      | 0 =>
          if c == '\\' then staysOpen quote (max 1 (Text.lineBreakLength cs)) cs
          else
            !quote.isPrefixOf (c :: (cs ++ quote)) && (quote.length == 3 || !Text.isLineBreak c) &&
              staysOpen quote 0 cs

theorem quotesOf_cons (q : Char) (triple : Bool) :
    quotesOf q triple = q :: List.replicate (if triple then 2 else 0) q := by
  cases triple <;> rfl

theorem length_quotesOf (q : Char) (triple : Bool) :
    (quotesOf q triple).length = if triple then 3 else 1 := by
  rw [quotesOf, List.length_replicate]

section Extent

variable {formatted triple : Bool} {q : Char}

theorem isPrefixOf_quotesOf_eq_false (hq : isQuote q = true) {c : Char} (hc : isQuote c = false)
    (cs : Text) : (quotesOf q triple).isPrefixOf (c :: cs) = false := by
  have hne : (q == c) = false := by
    rw [beq_eq_false_iff_ne]
    rintro rfl
    exact absurd (hq.symm.trans hc) (by simp)
  rw [quotesOf_cons, List.isPrefixOf, hne, Bool.false_and]

theorem staysOpen_char {c : Char} {cs : Text} (hc : c ≠ '\\') :
    staysOpen (quotesOf q triple) 0 (c :: cs) = true ↔
      (quotesOf q triple).isPrefixOf (c :: (cs ++ quotesOf q triple)) = false ∧
        (Text.isLineBreak c = true → triple = true) ∧ staysOpen (quotesOf q triple) 0 cs = true := by
  have hlength : ((quotesOf q triple).length == 3) = triple := by
    rw [length_quotesOf]
    cases triple <;> rfl
  rw [staysOpen, if_neg (by simpa using hc), hlength]
  cases triple <;> cases Text.isLineBreak c <;> simp

theorem staysOpen_of_ne {c : Char} (hescape : c ≠ '\\') (hne : c ≠ q)
    (hbreak : Text.isLineBreak c = false) (cs : Text) :
    staysOpen (quotesOf q triple) 0 (c :: cs) = staysOpen (quotesOf q triple) 0 cs := by
  have hopen : (quotesOf q triple).isPrefixOf (c :: (cs ++ quotesOf q triple)) = false := by
    rw [quotesOf_cons, List.isPrefixOf, beq_eq_false_iff_ne.mpr hne.symm, Bool.false_and]
  rw [Bool.eq_iff_iff, staysOpen_char hescape, hopen, hbreak]
  simp

theorem staysOpen_braces (hq : isQuote q = true) {c : Char} (hc : c = '{' ∨ c = '}') (cs : Text) :
    staysOpen (quotesOf q triple) 0 ('{' :: c :: cs) = staysOpen (quotesOf q triple) 0 cs := by
  have hne {d : Char} (hd : isQuote d = false) : d ≠ q := by
    rintro rfl
    exact absurd (hq.symm.trans hd) (by simp)
  rw [staysOpen_of_ne (by decide) (hne rfl) rfl]
  rcases hc with rfl | rfl
  · exact staysOpen_of_ne (by decide) (hne rfl) rfl cs
  · exact staysOpen_of_ne (by decide) (hne rfl) rfl cs

theorem staysOpen_escape {c : Char} {cs : Text} (quote : Text) (h : ¬ splitsBreak c cs) :
    staysOpen quote 0 ('\\' :: c :: cs) = staysOpen quote 0 cs := by
  have hlength : max 1 (Text.lineBreakLength (c :: cs)) = 1 := by
    by_cases hc : Text.isLineBreak c = true
    · rw [lineBreakLength_of_not_splitsBreak hc h]
      rfl
    · cases cs with
      | nil => simp [Text.lineBreakLength, hc]
      | cons d cs =>
          rw [Text.lineBreakLength_cons_cons, if_neg (by simpa [splitsBreak] using h), if_neg hc]
          rfl
  rw [staysOpen, if_pos (beq_self_eq_true _), hlength]
  rfl

theorem staysOpen_lineBreak (quote cs : Text) :
    staysOpen quote 0 ('\\' :: '\r' :: '\n' :: cs) = staysOpen quote 0 cs := rfl

/-- What stays open before a single quote is a body between single quotes. -/
theorem isBody_iff_staysOpen {t : Text} :
    IsBody q t ↔ staysOpen (quotesOf q false) 0 t = true := by
  constructor
  · intro h
    induction h with
    | nil => rfl
    | char hescape hquote hbreak hcs ih =>
        refine (staysOpen_char hescape).mpr ⟨?_, by simp [hbreak], ih⟩
        simp [quotesOf, List.isPrefixOf, hquote.symm]
    | escape c hcs ih => rwa [staysOpen_escape _ (hcs.not_splitsBreak c)]
    | lineBreak hcs ih => exact ih
  · intro h
    induction hlength : t.length using Nat.strongRecOn generalizing t with
    | ind length ih =>
        subst hlength
        cases t with
        | nil => exact .nil
        | cons c cs =>
            by_cases hc : c = '\\'
            · subst hc
              cases cs with
              | nil => cases h
              | cons d ds =>
                  by_cases hsplits : splitsBreak d ds
                  · obtain ⟨rfl, hhead⟩ := hsplits
                    obtain ⟨ds, rfl⟩ := List.head?_eq_some_iff.mp hhead
                    exact .lineBreak (ih ds.length (by simp only [List.length_cons]; omega) h rfl)
                  · rw [staysOpen_escape _ hsplits] at h
                    exact .escape d (ih ds.length (by simp only [List.length_cons]; omega) h rfl)
            · obtain ⟨hquotes, hbreak, hrest⟩ := (staysOpen_char hc).mp h
              refine .char hc ?_ ?_ (ih cs.length (by simp) hrest rfl)
              · rintro rfl
                simp [quotesOf, List.isPrefixOf] at hquotes
              · simpa using hbreak

namespace Outlined

variable {b o : Text} {fs : List Text}

theorem head?_lineFeed (h : Outlined formatted triple b fs o) :
    o.head? = some '\n' ↔ b.head? = some '\n' := by
  cases h <;> simp

theorem not_splitsBreak (h : Outlined formatted triple b fs o) {c : Char} {x : Text}
    (hsplits : ¬ splitsBreak c (b ++ x)) : ¬ splitsBreak c o := by
  rintro ⟨hc, hhead⟩
  obtain ⟨b, rfl⟩ := List.head?_eq_some_iff.mp (h.head?_lineFeed.mp hhead)
  exact hsplits ⟨hc, rfl⟩

theorem of_lineFeed (h : Outlined formatted triple ('\n' :: b) fs o) :
    ∃ o', o = '\n' :: o' ∧ Outlined formatted triple b fs o' := by
  cases h with
  | char hc hbrace h => exact ⟨_, rfl, h⟩

theorem isPrefixOf_replicate (hq : isQuote q = true) (h : Outlined formatted triple b fs o) (n : Nat)
    (x : Text) :
    (List.replicate n q).isPrefixOf (o ++ x) = (List.replicate n q).isPrefixOf (b ++ x) := by
  have hescape : (q == '\\') = false := by simpa using (quote_facts hq).1
  have hbrace : (q == '{') = false := by
    rcases isQuote_iff.mp hq with rfl | rfl <;> rfl
  induction h generalizing n with
  | nil => rfl
  | char hc _ _ ih =>
      cases n with
      | zero => simp
      | succ n => simp [List.replicate_succ, List.isPrefixOf, ih]
  | escape => cases n <;> simp [List.replicate_succ, List.isPrefixOf, hescape]
  | braces => cases n <;> simp [List.replicate_succ, List.isPrefixOf, hbrace]
  | field => cases n <;> simp [List.replicate_succ, List.isPrefixOf, hbrace]

end Outlined

theorem isPrefixOf_append_of_le {p a : Text} (h : p.length ≤ a.length) (y : Text) :
    p.isPrefixOf (a ++ y) = p.isPrefixOf a := by
  rw [Bool.eq_iff_iff, List.isPrefixOf_iff_prefix, List.isPrefixOf_iff_prefix]
  constructor
  · intro happ
    exact List.prefix_of_prefix_length_le happ (List.prefix_append a y) h
  · intro ha
    exact ha.trans (List.prefix_append a y)

theorem Outlined.isPrefixOf_quotesOf (hq : isQuote q = true) {b o : Text} {fs : List Text}
    (h : Outlined formatted triple b fs o) (c : Char) (rest : Text) :
    (quotesOf q triple).isPrefixOf (c :: (b ++ (quotesOf q triple ++ rest))) =
      (quotesOf q triple).isPrefixOf (c :: (o ++ quotesOf q triple)) := by
  have hfits : (quotesOf q triple).length ≤ (c :: (o ++ quotesOf q triple)).length := by
    simp only [List.length_cons, List.length_append]
    omega
  rw [← isPrefixOf_append_of_le hfits rest, List.cons_append, List.append_assoc]
  generalize quotesOf q triple ++ rest = x
  rw [quotesOf_cons, List.isPrefixOf, List.isPrefixOf, h.isPrefixOf_replicate hq]

/-! ## The moves of the scanner -/

/-- What the scanner goes over in a body before `quotesOf q triple`: `c` and `n` characters more. -/
inductive GoesOver (q : Char) (triple formatted : Bool) : Char → Text → Nat → Prop
  | char {c : Char} {cs : Text} (hc : c ≠ '\\') (hbrace : formatted = true → c ≠ '{')
      (hquotes : (quotesOf q triple).isPrefixOf (c :: cs) = false)
      (hbreak : Text.isLineBreak c = true → triple = true ∧ ¬ splitsBreak c cs) :
      GoesOver q triple formatted c cs 0
  | lineBreak (htriple : triple = true) (cs : Text) :
      GoesOver q triple formatted '\r' ('\n' :: cs) 1
  | escape {c : Char} {cs : Text} (h : ¬ splitsBreak c cs) :
      GoesOver q triple formatted '\\' (c :: cs) 1
  | escapedBreak (cs : Text) : GoesOver q triple formatted '\\' ('\r' :: '\n' :: cs) 2
  | lastBackslash : GoesOver q triple formatted '\\' [] 0
  | braces (hformatted : formatted = true) (cs : Text) :
      GoesOver q triple formatted '{' ('{' :: cs) 1

variable {here start : Position} {outer : List Frame} {c : Char} {cs : Text}

theorem literalStep_of_goesOver (hq : isQuote q = true) {n : Nat}
    (h : GoesOver q triple formatted c cs n) :
    literalStep here c cs (.body q triple formatted start :: outer) =
      .ok (n, .body q triple formatted start :: outer) := by
  have hbraceQuote : '{' ≠ q := by
    rintro rfl
    exact absurd hq (by decide)
  cases h with
  | char hc hbrace hquotes hbreak =>
      have hclosed : c = q → triple = true ∧ isTriple q (c :: cs) = false := by
        rintro rfl
        cases triple with
        | false => simp [quotesOf, List.isPrefixOf] at hquotes
        | true => exact ⟨rfl, hquotes⟩
      by_cases hline : Text.isLineBreak c = true
      · obtain ⟨htriple, hsplits⟩ := hbreak hline
        simp [literalStep, hc, hline, htriple, lineBreakLength_of_not_splitsBreak hline hsplits]
      · by_cases hcq : c = q
        · obtain ⟨htriple, hopen⟩ := hclosed hcq
          subst hcq
          simp [literalStep, hc, hline, htriple, hopen]
        · have hopen : ¬ (c = '{' ∧ formatted = true) := fun h => hbrace h.2 h.1
          simp [literalStep, hc, hline, hcq, hopen]
  | lineBreak htriple cs => simp [literalStep, Text.isLineBreak, Text.lineBreakLength, htriple]
  | escape h =>
      simp only [literalStep, beq_self_eq_true, if_true]
      split
      · rename_i hc
        rw [lineBreakLength_of_not_splitsBreak hc h]
      · rfl
  | escapedBreak cs => simp [literalStep, Text.isLineBreak, Text.lineBreakLength]
  | lastBackslash => simp [literalStep]
  | braces hformatted cs => simp [literalStep, Text.isLineBreak, hbraceQuote, hformatted]

theorem literalStep_quotes (hq : isQuote q = true)
    (h : (quotesOf q triple).isPrefixOf (c :: cs) = true) :
    literalStep here c cs (.body q triple formatted start :: outer) =
      .ok ((quotesOf q triple).length - 1, outer) := by
  obtain ⟨hescape, hline, -⟩ := quote_facts hq
  obtain rfl : q = c := by
    rw [quotesOf_cons] at h
    simp only [List.isPrefixOf, Bool.and_eq_true, beq_iff_eq] at h
    exact h.1
  cases triple with
  | false => simp [literalStep, hescape, hline, length_quotesOf]
  | true =>
      have htriple : isTriple q (q :: cs) = true := h
      simp [literalStep, hescape, hline, htriple, length_quotesOf]

theorem literalStep_field (hq : isQuote q = true) (hformatted : formatted = true)
    (h : cs.head? ≠ some '{') :
    literalStep here '{' cs (.body q triple formatted start :: outer) =
      .ok (0, .field triple 0 false start :: .body q triple formatted start :: outer) := by
  have hquote : '{' ≠ q := by
    rintro rfl
    exact absurd hq (by decide)
  subst hformatted
  cases cs with
  | nil => simp [literalStep, Text.isLineBreak, hquote]
  | cons d cs =>
      simp only [literalStep, Text.isLineBreak, beq_iff_eq, hquote]
      split <;> simp_all

/-- The scanner goes over a character, closes the literal, opens a replacement field or meets a line
break that it cannot go over. -/
theorem goesOver_cases (q : Char) (triple formatted : Bool) (c : Char) (cs : Text) :
    (∃ n, GoesOver q triple formatted c cs n) ∨ (quotesOf q triple).isPrefixOf (c :: cs) = true ∨
      (formatted = true ∧ c = '{' ∧ cs.head? ≠ some '{') ∨
      (Text.isLineBreak c = true ∧ c ≠ '\\' ∧ triple = false) := by
  by_cases hescape : c = '\\'
  · subst hescape
    left
    cases cs with
    | nil => exact ⟨0, .lastBackslash⟩
    | cons d ds =>
        by_cases hsplits : splitsBreak d ds
        · obtain ⟨rfl, hhead⟩ := hsplits
          obtain ⟨ds, rfl⟩ := List.head?_eq_some_iff.mp hhead
          exact ⟨2, .escapedBreak ds⟩
        · exact ⟨1, .escape hsplits⟩
  by_cases hquotes : (quotesOf q triple).isPrefixOf (c :: cs) = true
  · exact .inr (.inl hquotes)
  rw [Bool.not_eq_true] at hquotes
  by_cases hbrace : formatted = true ∧ c = '{'
  · obtain ⟨hformatted, rfl⟩ := hbrace
    by_cases hhead : cs.head? = some '{'
    · obtain ⟨ds, rfl⟩ := List.head?_eq_some_iff.mp hhead
      exact .inl ⟨1, .braces hformatted ds⟩
    · exact .inr (.inr (.inl ⟨hformatted, rfl, hhead⟩))
  have hplain : formatted = true → c ≠ '{' := fun hf hc => hbrace ⟨hf, hc⟩
  by_cases hline : Text.isLineBreak c = true
  · cases triple with
    | false => exact .inr (.inr (.inr ⟨hline, hescape, rfl⟩))
    | true =>
        left
        by_cases hsplits : splitsBreak c cs
        · obtain ⟨rfl, hhead⟩ := hsplits
          obtain ⟨ds, rfl⟩ := List.head?_eq_some_iff.mp hhead
          exact ⟨1, .lineBreak rfl ds⟩
        · exact ⟨0, .char hescape hplain hquotes fun _ => ⟨rfl, hsplits⟩⟩
  · exact .inl ⟨0, .char hescape hplain hquotes fun h => absurd h hline⟩

/-! ## The end of a literal -/

theorem literalTail_goesOver (hq : isQuote q = true) {m n total : Nat}
    (h : GoesOver q triple formatted c cs n)
    (hrest : ∀ here', literalTail here' [.body q triple formatted start] (cs.drop n) = .ok m)
    (htotal : m + n + 1 = total) :
    literalTail here [.body q triple formatted start] (c :: cs) = .ok total :=
  literalTail_cons (literalStep_of_goesOver hq h) (hrest _) htotal

theorem literalTail_field (hq : isQuote q = true) (hformatted : formatted = true) {f : Text}
    (hfield : IsField triple f) (hopen : f.head? ≠ some '{') {m total : Nat}
    (hrest : ∀ here', literalTail here' [.body q triple formatted start] cs = .ok m)
    (htotal : m + f.length + 2 = total) :
    literalTail here [.body q triple formatted start] ('{' :: (f ++ '}' :: cs)) = .ok total := by
  have hhead : (f ++ '}' :: cs).head? ≠ some '{' := by
    cases f with
    | nil => simp
    | cons d f => simpa using hopen
  have hdrop : (f ++ '}' :: cs).drop (f.length + 1) = cs := by simp [List.drop_append]
  have hinner (here' : Position) : literalTail here'
      ([.field triple 0 false start] ++ [.body q triple formatted start]) (f ++ '}' :: cs) =
      .ok (f.length + 1 + m) := by
    apply literalTail_join (hfield.literalTail here' start cs)
    intro here''
    rw [hdrop]
    exact hrest here''
  exact literalTail_cons (literalStep_field hq hformatted hhead) (hinner _) (by omega)

/-- The closing quotes end a literal. -/
theorem literalTail_quotes (hq : isQuote q = true) (rest : Text) :
    literalTail here [.body q triple formatted start] (quotesOf q triple ++ rest) =
      .ok (quotesOf q triple).length := by
  obtain ⟨qs, hqs⟩ : ∃ qs, quotesOf q triple = q :: qs := ⟨_, quotesOf_cons q triple⟩
  have hclosed : (quotesOf q triple).isPrefixOf (q :: (qs ++ rest)) = true := by
    rw [← List.cons_append, ← hqs, List.isPrefixOf_iff_prefix]
    exact List.prefix_append _ _
  have hstep : literalStep here q (qs ++ rest) [.body q triple formatted start] =
      .ok ((quotesOf q triple).length - 1, []) := literalStep_quotes hq hclosed
  rw [hqs] at hstep ⊢
  exact literalTail_cons hstep (literalTail_nil _ _) (by simp)

theorem exists_of_splitsBreak (hq : isQuote q = true) {b rest : Text}
    (h : splitsBreak c (b ++ (quotesOf q triple ++ rest))) : c = '\r' ∧ ∃ b', b = '\n' :: b' := by
  obtain ⟨hc, hhead⟩ := h
  refine ⟨hc, ?_⟩
  cases b with
  | nil =>
      rw [quotesOf_cons] at hhead
      obtain rfl : q = '\n' := by simpa using hhead
      cases hq
  | cons d b =>
      obtain rfl : d = '\n' := by simpa using hhead
      exact ⟨b, rfl⟩

/-- A literal ends behind a body whose outline stays open. -/
theorem Outlined.literalTail (hq : isQuote q = true) {b o : Text} {fs : List Text}
    (h : Outlined formatted triple b fs o) (hopen : staysOpen (quotesOf q triple) 0 o = true)
    (here start : Position) (rest : Text) :
    literalTail here [.body q triple formatted start] (b ++ (quotesOf q triple ++ rest)) =
      .ok (b.length + (quotesOf q triple).length) := by
  -- The scanner goes over a line break of two characters at once, so the induction is on the length.
  induction hlength : b.length using Nat.strongRecOn generalizing b fs o here with
  | ind length ih =>
      cases h with
      | nil =>
          subst hlength
          rw [List.nil_append, List.length_nil, Nat.zero_add]
          exact literalTail_quotes hq rest
      | @char c b o fs hc hbrace h =>
          obtain ⟨hquotes, hline, hrest⟩ := (staysOpen_char hc).mp hopen
          rw [← h.isPrefixOf_quotesOf hq c rest] at hquotes
          subst hlength
          by_cases hsplits : splitsBreak c (b ++ (quotesOf q triple ++ rest))
          · obtain ⟨rfl, b, rfl⟩ := exists_of_splitsBreak hq hsplits
            obtain ⟨o, rfl, hbody⟩ := h.of_lineFeed
            obtain ⟨-, -, hrest⟩ := (staysOpen_char (by decide)).mp hrest
            exact literalTail_goesOver hq (.lineBreak (hline rfl) _)
              (fun here' => ih b.length (by simp only [List.length_cons]; omega) hbody hrest
                here' rfl)
              (by simp only [List.length_cons]; omega)
          · exact literalTail_goesOver hq (.char hc hbrace hquotes fun h => ⟨hline h, hsplits⟩)
              (fun here' => ih b.length (by simp) h hrest here' rfl)
              (by simp only [List.length_cons]; omega)
      | @escape c b o fs h =>
          subst hlength
          by_cases hsplits : splitsBreak c (b ++ (quotesOf q triple ++ rest))
          · obtain ⟨rfl, b, rfl⟩ := exists_of_splitsBreak hq hsplits
            obtain ⟨o, rfl, hbody⟩ := h.of_lineFeed
            rw [staysOpen_lineBreak] at hopen
            exact literalTail_goesOver hq (.escapedBreak _)
              (fun here' => ih b.length (by simp only [List.length_cons]; omega) hbody hopen
                here' rfl)
              (by simp only [List.length_cons]; omega)
          · rw [staysOpen_escape _ (h.not_splitsBreak hsplits)] at hopen
            exact literalTail_goesOver hq (.escape hsplits)
              (fun here' => ih b.length (by simp only [List.length_cons]; omega) h hopen here' rfl)
              (by simp only [List.length_cons]; omega)
      | @braces b o fs hformatted h =>
          subst hlength
          rw [staysOpen_braces hq (.inl rfl)] at hopen
          exact literalTail_goesOver hq (.braces hformatted _)
            (fun here' => ih b.length (by simp only [List.length_cons]; omega) h hopen here' rfl)
            (by simp only [List.length_cons]; omega)
      | @field f b o fs hformatted hfield hhead h =>
          subst hlength
          rw [staysOpen_braces hq (.inr rfl)] at hopen
          rw [List.cons_append, List.append_assoc, List.cons_append]
          exact literalTail_field hq hformatted hfield hhead
            (fun here' => ih b.length
              (by simp only [List.length_cons, List.length_append]; omega) h hopen here' rfl)
            (by simp only [List.length_cons, List.length_append]; omega)

theorem GoesOver.outlined (hq : isQuote q = true) {n : Nat} (h : GoesOver q triple formatted c cs n)
    {b o rest : Text} {fs : List Text} (hdrop : cs.drop n = b ++ (quotesOf q triple ++ rest))
    (hbody : Outlined formatted triple b fs o)
    (hopen : staysOpen (quotesOf q triple) 0 o = true) :
    ∃ b' o', c :: cs = b' ++ (quotesOf q triple ++ rest) ∧ b'.length = b.length + n + 1 ∧
      Outlined formatted triple b' fs o' ∧ staysOpen (quotesOf q triple) 0 o' = true := by
  have hnone {d : Char} (hd : isQuote d = false) (x : Text) :
      (quotesOf q triple).isPrefixOf (d :: x) = false := isPrefixOf_quotesOf_eq_false hq hd x
  cases h with
  | char hc hbrace hquotes hbreak =>
      rw [List.drop_zero] at hdrop
      subst hdrop
      rw [hbody.isPrefixOf_quotesOf hq c rest] at hquotes
      exact ⟨c :: b, c :: o, rfl, rfl, .char hc hbrace hbody,
        (staysOpen_char hc).mpr ⟨hquotes, fun h => (hbreak h).1, hopen⟩⟩
  | lineBreak htriple ds =>
      obtain rfl : ds = b ++ (quotesOf q triple ++ rest) := by simpa using hdrop
      have hfeed : Outlined formatted triple ('\n' :: b) fs ('\n' :: o) :=
        .char (by decide) (fun _ => by decide) hbody
      have hopen' : staysOpen (quotesOf q triple) 0 ('\n' :: o) = true :=
        (staysOpen_char (by decide)).mpr ⟨hnone rfl _, fun _ => htriple, hopen⟩
      exact ⟨'\r' :: '\n' :: b, '\r' :: '\n' :: o, rfl, rfl,
        .char (by decide) (fun _ => by decide) hfeed,
        (staysOpen_char (by decide)).mpr ⟨hnone rfl _, fun _ => htriple, hopen'⟩⟩
  | @escape d ds hsplits =>
      obtain rfl : ds = b ++ (quotesOf q triple ++ rest) := by simpa using hdrop
      refine ⟨'\\' :: d :: b, '\\' :: d :: o, rfl, rfl, .escape d hbody, ?_⟩
      rw [staysOpen_escape _ (hbody.not_splitsBreak hsplits)]
      exact hopen
  | escapedBreak ds =>
      obtain rfl : ds = b ++ (quotesOf q triple ++ rest) := by simpa using hdrop
      have hfeed : Outlined formatted triple ('\n' :: b) fs ('\n' :: o) :=
        .char (by decide) (fun _ => by decide) hbody
      refine ⟨'\\' :: '\r' :: '\n' :: b, '\\' :: '\r' :: '\n' :: o, rfl, rfl,
        .escape '\r' hfeed, ?_⟩
      rw [staysOpen_lineBreak]
      exact hopen
  | lastBackslash =>
      rw [quotesOf_cons] at hdrop
      simp at hdrop
  | braces hformatted ds =>
      obtain rfl : ds = b ++ (quotesOf q triple ++ rest) := by simpa using hdrop
      refine ⟨'{' :: '{' :: b, '{' :: '{' :: o, rfl, rfl, .braces hformatted hbody, ?_⟩
      rw [staysOpen_braces hq (.inl rfl)]
      exact hopen

theorem exists_outlined_of_literalTail (hq : isQuote q = true) {n : Nat}
    (h : literalTail here [.body q triple formatted start] cs = .ok n) :
    ∃ b fs o rest, cs = b ++ (quotesOf q triple ++ rest) ∧
      n = b.length + (quotesOf q triple).length ∧ Outlined formatted triple b fs o ∧
      staysOpen (quotesOf q triple) 0 o = true := by
  induction hlength : cs.length using Nat.strongRecOn generalizing here cs n with
  | ind length ih =>
      cases cs with
      | nil =>
          rw [literalTail] at h
          cases h
      | cons c cs =>
          rw [List.length_cons] at hlength
          obtain ⟨k, frames, m, hstep, htail, rfl⟩ := exists_of_literalTail_cons h
          rcases goesOver_cases q triple formatted c cs with
            ⟨n, hmove⟩ | hclosed | ⟨hformatted, rfl, hhead⟩ | ⟨hline, hescape, rfl⟩
          · rw [literalStep_of_goesOver hq hmove] at hstep
            cases hstep
            obtain ⟨b, fs, o, rest, hdrop, rfl, hbody, hopen⟩ :=
              ih (cs.drop k).length (by rw [List.length_drop]; omega) htail rfl
            obtain ⟨b', o', hsplit, hsize, hbody', hopen'⟩ := hmove.outlined hq hdrop hbody hopen
            exact ⟨b', fs, o', rest, hsplit, by omega, hbody', hopen'⟩
          · rw [literalStep_quotes hq hclosed] at hstep
            cases hstep
            rw [literalTail, Except.ok.injEq] at htail
            obtain ⟨rest, hrest⟩ := List.isPrefixOf_iff_prefix.mp hclosed
            have hpos : 0 < (quotesOf q triple).length := by simp [quotesOf_cons]
            exact ⟨[], [], [], rest, hrest.symm, by rw [List.length_nil]; omega, .nil, rfl⟩
          · rw [literalStep_field hq hformatted hhead] at hstep
            cases hstep
            have hframes : literalTail (here.after ['{'])
                ([.field triple 0 false start] ++ [.body q triple formatted start]) cs = .ok m :=
              htail
            obtain ⟨k, here', hk, hupper, hlower⟩ := literalTail_split hframes
            obtain ⟨f, y, rfl, rfl, hfield⟩ := exists_field_of_literalTail hupper
            rw [show (f ++ '}' :: y).drop (f.length + 1) = y by simp [List.drop_append]] at hlower
            rw [List.length_append, List.length_cons] at hlength
            obtain ⟨b, fs, o, rest, rfl, hm, hbody, hopen⟩ := ih y.length (by omega) hlower rfl
            have hhead : f.head? ≠ some '{' := by
              cases f with
              | nil => simp
              | cons d f => simpa using hhead
            refine ⟨'{' :: (f ++ '}' :: b), f :: fs, '{' :: '}' :: o, rest, by simp,
              by simp only [List.length_cons, List.length_append]; omega,
              .field hformatted hfield hhead hbody, ?_⟩
            rw [staysOpen_braces hq (.inr rfl)]
            exact hopen
          · simp [literalStep, hescape, hline] at hstep

end Extent

end SchemaTidy
