import SchemaTidy.Print.Quote

/-!
# What a literal means

The value of a string literal that is neither raw nor formatted and has single quotes around it: its
body with escapes decoded. An escape reads letters, digits, blanks, hyphens and braces behind its
first character and nothing else, so that quotes and backslashes elsewhere do not matter to it.
-/

namespace SchemaTidy

/-! ## Escapes -/

/-- Hexadecimal digits; the octal ones come first. -/
def hexDigits : Text := "0123456789abcdefABCDEF".toList

def isHexDigit (c : Char) : Bool := hexDigits.contains c

def isOctalDigit (c : Char) : Bool := (hexDigits.take 8).contains c

def isNameChar (c : Char) : Bool := c.isAlphanum || c == ' ' || c == '-'

/-- The value of a digit in any base up to sixteen. -/
def digitValue (c : Char) : Nat := hexDigits.idxOf c.toLower

def digitsValue (base : Nat) (digits : Text) : Nat :=
  digits.foldl (fun n c => base * n + digitValue c) 0

/-- The code that a text starts with, of exactly `n` hexadecimal digits. -/
def hexCode? (n : Nat) (cs : Text) : Option Nat :=
  let digits := (cs.takeWhile isHexDigit).take n
  if digits.length = n then some (digitsValue 16 digits) else none

/-- The code point whose name in braces a text starts with, and the length of the name with them. -/
def namedCode? (named : Text → Option Nat) : Text → Option (Nat × Nat)
  | '{' :: cs =>
      let name := cs.takeWhile isNameChar
      if (cs.dropWhile isNameChar).head? = some '}' then
        (named name).map fun code => (code, name.length + 2)
      else none
  | _ => none

def simpleEscapes : List (Char × Nat) :=
  [('\\', 92), ('\'', 39), ('"', 34), ('a', 7), ('b', 8), ('f', 12), ('n', 10), ('r', 13), ('t', 9),
   ('v', 11)]

/-- Reads the escape whose backslash stands before a text: the values it denotes and the number of
characters it takes. `named` is the table of names of code points. A line break denotes nothing, and
a backslash without a meaning stands for itself. -/
def escape? (named : Text → Option Nat) (bytes : Bool) : Text → Option (List Nat × Nat)
  | [] => none
  | '\r' :: '\n' :: _ => some ([], 2)
  | c :: cs =>
      if Text.isLineBreak c then some ([], 1)
      else if isOctalDigit c then
        let digits := c :: (cs.takeWhile isOctalDigit).take 2
        let code := digitsValue 8 digits
        some ([if bytes then code % 256 else code], digits.length)
      else if c == 'x' then (hexCode? 2 cs).map fun code => ([code], 3)
      else if !bytes && c == 'u' then (hexCode? 4 cs).map fun code => ([code], 5)
      else if !bytes && c == 'U' then
        ((hexCode? 8 cs).filter (· ≤ 0x10FFFF)).map fun code => ([code], 9)
      else if !bytes && c == 'N' then
        (namedCode? named cs).map fun (code, n) => ([code], n + 1)
      else
        match simpleEscapes.lookup c with
        | some code => some ([code], 1)
        | none => some (['\\'.toNat, c.toNat], 1)

/-- The values that a body denotes behind its first `skip` characters; there are none if an escape is
not valid. -/
def decode (named : Text → Option Nat) (bytes : Bool) (skip : Nat) : Text → Option (List Nat)
  | [] => some []
  | c :: cs =>
      match skip with
      | skip + 1 => decode named bytes skip cs
      | 0 =>
          if c == '\\' then
            match escape? named bytes cs with
            | some (value, n) => (decode named bytes n cs).map (value ++ ·)
            | none => none
          else (decode named bytes 0 cs).map (c.toNat :: ·)

@[simp] theorem decode_nil (named : Text → Option Nat) (bytes : Bool) (skip : Nat) :
    decode named bytes skip [] = some [] := rfl

@[simp] theorem decode_succ (named : Text → Option Nat) (bytes : Bool) (skip : Nat) (c : Char)
    (cs : Text) : decode named bytes (skip + 1) (c :: cs) = decode named bytes skip cs := rfl

theorem decode_char (named : Text → Option Nat) (bytes : Bool) {c : Char} (hc : c ≠ '\\')
    (cs : Text) :
    decode named bytes 0 (c :: cs) = (decode named bytes 0 cs).map (c.toNat :: ·) := by
  simp [decode, hc]

theorem decode_escape (named : Text → Option Nat) (bytes : Bool) (cs : Text) :
    decode named bytes 0 ('\\' :: cs) =
      (escape? named bytes cs).bind fun escape =>
        (decode named bytes escape.2 cs).map (escape.1 ++ ·) := by
  simp only [decode, beq_self_eq_true, if_true]
  cases escape? named bytes cs <;> rfl

theorem decode_lineBreak (named : Text → Option Nat) (bytes : Bool) (cs : Text) :
    decode named bytes 0 ('\\' :: '\r' :: '\n' :: cs) = decode named bytes 0 cs := by
  simp [decode_escape, escape?]

/-! ## Values -/

/-- One item of the value of a literal. -/
inductive Datum where
  | byte (code : Nat)
  | point (code : Nat)
deriving DecidableEq, Repr

def isBytes (marks : Text) : Bool := marks.contains 'b' || marks.contains 'B'

def dataOf (marks : Text) (codes : List Nat) : List Datum :=
  codes.map (if isBytes marks then .byte else .point)

theorem dataOf_congr {marks marks' : Text} (h : isBytes marks' = isBytes marks) :
    dataOf marks' = dataOf marks := by
  funext codes
  rw [dataOf, dataOf, h]

def bodyValue? (named : Text → Option Nat) (marks body : Text) : Option (List Datum) :=
  (decode named (isBytes marks) 0 body).map (dataOf marks)

/-- The value of a literal with plain marks and single quotes. -/
def plainValue? (named : Text → Option Nat) (text : Text) : Option (List Datum) :=
  let marks := text.takeWhile (!isQuote ·)
  let quoted := text.dropWhile (!isQuote ·)
  if isRaw marks || isFormatted marks || startsTriple quoted then none
  else
    match quoted with
    | _ :: rest => bodyValue? named marks rest.dropLast
    | [] => none

/-- The values of several things, one behind the other. -/
def collect {α β : Type} (f : α → Option (List β)) (xs : List α) : Option (List β) :=
  (xs.mapM f).map List.flatten

def runValue? (named : Text → Option Nat) (texts : List Text) : Option (List Datum) :=
  collect (plainValue? named) texts

section Collect

variable {α β γ : Type}

@[simp] theorem collect_nil (f : α → Option (List β)) : collect f [] = some [] := rfl

theorem collect_cons (f : α → Option (List β)) (x : α) (xs : List α) :
    collect f (x :: xs) = (f x).bind fun value => (collect f xs).map (value ++ ·) := by
  simp only [collect, List.mapM_cons]
  cases f x with
  | none => rfl
  | some value =>
      cases xs.mapM f with
      | none => rfl
      | some values => rfl

theorem collect_map {f : α → Option (List β)} {g : γ → Option (List β)} {h : γ → α} {xs : List γ}
    (hsame : ∀ x ∈ xs, f (h x) = g x) : collect f (xs.map h) = collect g xs := by
  induction xs with
  | nil => rfl
  | cons x xs ih =>
      rw [List.map_cons, collect_cons, collect_cons, hsame x (by simp),
        ih fun y hy => hsame y (by simp [hy])]

theorem collect_congr {f g : α → Option (List β)} {xs : List α} (hsame : ∀ x ∈ xs, f x = g x) :
    collect f xs = collect g xs := by
  simpa using collect_map (h := id) hsame

theorem map_collect (f : α → Option (List β)) (g : β → γ) (xs : List α) :
    (collect f xs).map (List.map g) = collect (fun x => (f x).map (List.map g)) xs := by
  induction xs with
  | nil => rfl
  | cons x xs ih =>
      rw [collect_cons, collect_cons, ← ih]
      cases f x with
      | none => rfl
      | some value => cases collect f xs <;> simp

theorem mapM_map_eq_some {f : β → Option γ} {g : α → β} {h : α → γ} {xs : List α}
    (hsome : ∀ x ∈ xs, f (g x) = some (h x)) : (xs.map g).mapM f = some (xs.map h) := by
  induction xs with
  | nil => rfl
  | cons x xs ih =>
      rw [List.map_cons, List.mapM_cons, hsome x (by simp), ih fun y hy => hsome y (by simp [hy])]
      rfl

theorem isSome_of_collect {f : α → Option (List β)} {xs : List α} {value : List β}
    (h : collect f xs = some value) : ∀ x ∈ xs, ∃ part, f x = some part := by
  induction xs generalizing value with
  | nil => simp
  | cons x xs ih =>
      rw [collect_cons] at h
      obtain ⟨part, hpart, hrest⟩ := Option.bind_eq_some_iff.mp h
      obtain ⟨rest, hrest, -⟩ := Option.map_eq_some_iff.mp hrest
      intro y hy
      rcases List.mem_cons.mp hy with rfl | hy
      · exact ⟨part, hpart⟩
      · exact ih hrest y hy

theorem collect_dataOf (marks : Text) (f : α → Option (List Nat)) (xs : List α) :
    (collect f xs).map (dataOf marks) = collect (fun x => (f x).map (dataOf marks)) xs :=
  map_collect f _ xs

end Collect

/-! ## What an escape reads -/

/-- Characters that an escape can read behind its first one. -/
def isEscapeTail (c : Char) : Bool := isNameChar c || c == '{' || c == '}'

theorem isEscapeTail_of_isHexDigit {c : Char} (h : isHexDigit c = true) : isEscapeTail c = true := by
  have hall : ∀ c ∈ hexDigits, isEscapeTail c = true := List.all_eq_true.mp (by decide)
  exact hall c (List.contains_iff_mem.mp h)

theorem isHexDigit_of_isOctalDigit {c : Char} (h : isOctalDigit c = true) : isHexDigit c = true := by
  have hmem := List.contains_iff_mem.mp h
  exact List.contains_iff_mem.mpr (List.mem_of_mem_take hmem)

theorem isEscapeTail_of_isNameChar {c : Char} (h : isNameChar c = true) : isEscapeTail c = true := by
  simp [isEscapeTail, h]

/-- The first `n` characters of a text can be part of an escape that starts before it. -/
def InReach (n : Nat) (t : Text) : Prop := n ≤ (t.takeWhile isEscapeTail).length

theorem inReach_zero (t : Text) : InReach 0 t := Nat.zero_le _

theorem InReach.eq_zero_of_nil {n : Nat} (h : InReach n []) : n = 0 := Nat.le_zero.mp h

theorem InReach.eq_zero_of_backslash {n : Nat} {cs : Text} (h : InReach n ('\\' :: cs)) : n = 0 := by
  have hbackslash : isEscapeTail '\\' = false := by decide
  simpa [InReach, hbackslash] using h

theorem InReach.of_succ {n : Nat} {c : Char} {cs : Text} (h : InReach (n + 1) (c :: cs)) :
    isEscapeTail c = true ∧ InReach n cs := by
  rw [InReach, List.takeWhile_cons] at h
  split at h
  · rename_i hc
    exact ⟨hc, Nat.le_of_succ_le_succ h⟩
  · cases h

theorem takeWhile_takeWhile_of_imp {p q : Char → Bool} (h : ∀ c, p c = true → q c = true)
    (cs : Text) : (cs.takeWhile q).takeWhile p = cs.takeWhile p := by
  induction cs with
  | nil => rfl
  | cons c cs ih =>
      by_cases hp : p c = true
      · simp [hp, h c hp, ih]
      · by_cases hq : q c = true
        · simp [hp, hq]
        · simp [hp, hq]

theorem hexCode?_takeWhile (n : Nat) (cs : Text) :
    hexCode? n (cs.takeWhile isEscapeTail) = hexCode? n cs := by
  simp only [hexCode?, takeWhile_takeWhile_of_imp fun c => isEscapeTail_of_isHexDigit]

theorem namedCode?_takeWhile (named : Text → Option Nat) (cs : Text) :
    namedCode? named (cs.takeWhile isEscapeTail) = namedCode? named cs := by
  have hname (cs : Text) : (cs.takeWhile isEscapeTail).takeWhile isNameChar =
      cs.takeWhile isNameChar := takeWhile_takeWhile_of_imp (fun c => isEscapeTail_of_isNameChar) cs
  have hclosing (cs : Text) :
      ((cs.takeWhile isEscapeTail).dropWhile isNameChar).head? = some '}' ↔
        (cs.dropWhile isNameChar).head? = some '}' := by
    induction cs with
    | nil => simp
    | cons c cs ih =>
        by_cases hc : isNameChar c = true
        · simp [isEscapeTail_of_isNameChar hc, hc, ih]
        · by_cases htail : isEscapeTail c = true
          · simp [htail, hc]
          · have hne : c ≠ '}' := by
              rintro rfl
              exact htail (by decide)
            simp [htail, hc, hne]
  cases cs with
  | nil => rfl
  | cons c cs =>
      by_cases hc : c = '{'
      · subst hc
        have hbrace : isEscapeTail '{' = true := by decide
        simp only [List.takeWhile_cons, hbrace, if_true, namedCode?, hname, hclosing]
      · have hnone (cs : Text) : namedCode? named (c :: cs) = none := by
          unfold namedCode?
          split
          · simp_all
          · rfl
        rw [hnone, List.takeWhile_cons]
        split
        · exact hnone _
        · rfl

/-- Two characters behind a backslash that are one line break. -/
def splitsBreak (c : Char) (cs : Text) : Prop := c = '\r' ∧ cs.head? = some '\n'

theorem escape?_cons (named : Text → Option Nat) (bytes : Bool) {c : Char} {cs : Text}
    (h : ¬ splitsBreak c cs) :
    escape? named bytes (c :: cs) =
      if Text.isLineBreak c then some ([], 1)
      else if isOctalDigit c then
        let digits := c :: (cs.takeWhile isOctalDigit).take 2
        let code := digitsValue 8 digits
        some ([if bytes then code % 256 else code], digits.length)
      else if c == 'x' then (hexCode? 2 cs).map fun code => ([code], 3)
      else if !bytes && c == 'u' then (hexCode? 4 cs).map fun code => ([code], 5)
      else if !bytes && c == 'U' then
        ((hexCode? 8 cs).filter (· ≤ 0x10FFFF)).map fun code => ([code], 9)
      else if !bytes && c == 'N' then
        (namedCode? named cs).map fun (code, n) => ([code], n + 1)
      else
        match simpleEscapes.lookup c with
        | some code => some ([code], 1)
        | none => some (['\\'.toNat, c.toNat], 1) := by
  rw [escape?]
  rintro rest rfl rfl
  exact h ⟨rfl, rfl⟩

/-- An escape is read from the characters in its reach. -/
theorem escape?_congr (named : Text → Option Nat) (bytes : Bool) {c : Char} {cs cs' : Text}
    (h : ¬ splitsBreak c cs) (h' : ¬ splitsBreak c cs')
    (htail : cs'.takeWhile isEscapeTail = cs.takeWhile isEscapeTail) :
    escape? named bytes (c :: cs') = escape? named bytes (c :: cs) := by
  have hoctal : cs'.takeWhile isOctalDigit = cs.takeWhile isOctalDigit := by
    have himp (c : Char) (hc : isOctalDigit c = true) : isEscapeTail c = true :=
      isEscapeTail_of_isHexDigit (isHexDigit_of_isOctalDigit hc)
    rw [← takeWhile_takeWhile_of_imp himp, htail, takeWhile_takeWhile_of_imp himp]
  have hhex (n : Nat) : hexCode? n cs' = hexCode? n cs := by
    rw [← hexCode?_takeWhile, htail, hexCode?_takeWhile]
  have hnamed : namedCode? named cs' = namedCode? named cs := by
    rw [← namedCode?_takeWhile, htail, namedCode?_takeWhile]
  simp only [escape?_cons named bytes h, escape?_cons named bytes h', hoctal, hhex, hnamed]

theorem length_of_hexCode? {n code : Nat} {cs : Text} (h : hexCode? n cs = some code) :
    n ≤ (cs.takeWhile isHexDigit).length := by
  simp only [hexCode?] at h
  split at h
  · rename_i hlength
    rw [List.length_take] at hlength
    omega
  · cases h

theorem inReach_of_namedCode? {named : Text → Option Nat} {code n : Nat} {cs : Text}
    (h : namedCode? named cs = some (code, n)) : InReach n cs := by
  rw [← namedCode?_takeWhile] at h
  unfold namedCode? at h
  split at h
  · rename_i rest hrest
    split at h
    · rename_i hclosing
      obtain ⟨code', -, hpair⟩ := Option.map_eq_some_iff.mp h
      obtain ⟨-, rfl⟩ := Prod.mk.inj hpair
      have hpos : 0 < (rest.dropWhile isNameChar).length := by
        rw [List.length_pos_iff]
        intro hnil
        rw [hnil] at hclosing
        cases hclosing
      have hsplit := congrArg List.length (List.takeWhile_append_dropWhile (p := isNameChar) (l := rest))
      rw [List.length_append] at hsplit
      rw [InReach, hrest, List.length_cons]
      omega
    · cases h
  · cases h

/-- An escape takes its first character and more of those in its reach. -/
theorem inReach_of_escape? {named : Text → Option Nat} {bytes : Bool} {c : Char} {cs : Text}
    (hbreak : ¬ splitsBreak c cs) {value : List Nat} {n : Nat}
    (h : escape? named bytes (c :: cs) = some (value, n)) : ∃ k, n = k + 1 ∧ InReach k cs := by
  have hreach {p : Char → Bool} (hp : ∀ c, p c = true → isEscapeTail c = true) {n : Nat}
      (hn : n ≤ (cs.takeWhile p).length) : InReach n cs := by
    rw [← takeWhile_takeWhile_of_imp hp cs] at hn
    exact Nat.le_trans hn (List.takeWhile_prefix p).length_le
  have hhex {n code : Nat} (hcode : hexCode? n cs = some code) : InReach n cs :=
    hreach (fun c => isEscapeTail_of_isHexDigit) (length_of_hexCode? hcode)
  rw [escape?_cons named bytes hbreak] at h
  split at h
  · cases h
    exact ⟨0, rfl, inReach_zero cs⟩
  split at h
  · cases h
    refine ⟨_, rfl, hreach (fun c hc => isEscapeTail_of_isHexDigit (isHexDigit_of_isOctalDigit hc)) ?_⟩
    exact List.length_take_le' _ _
  split at h
  · obtain ⟨code, hcode, hpair⟩ := Option.map_eq_some_iff.mp h
    cases hpair
    exact ⟨2, rfl, hhex hcode⟩
  split at h
  · obtain ⟨code, hcode, hpair⟩ := Option.map_eq_some_iff.mp h
    cases hpair
    exact ⟨4, rfl, hhex hcode⟩
  split at h
  · obtain ⟨code, hcode, hpair⟩ := Option.map_eq_some_iff.mp h
    cases hpair
    exact ⟨8, rfl, hhex (Option.filter_eq_some_iff.mp hcode).1⟩
  split at h
  · obtain ⟨⟨code, n'⟩, hcode, hpair⟩ := Option.map_eq_some_iff.mp h
    cases hpair
    exact ⟨n', rfl, inReach_of_namedCode? hcode⟩
  split at h
  · cases h
    exact ⟨0, rfl, inReach_zero cs⟩
  · cases h
    exact ⟨0, rfl, inReach_zero cs⟩

end SchemaTidy
