import SchemaTidy.Proofs.Print.Reading
import SchemaTidy.Proofs.Tree.Reprint

/-!
# Chunks on one line

Chunks are sound when every word is a token, comments fit a line, brackets match and no word runs
into what follows it without a blank. Sound chunks on one line are read as the tokens they stand for.
-/

namespace SchemaTidy

def StringRun.flatPieces (run : StringRun) : List Text :=
  match run.merged with
  | some q => [q.text]
  | none => run.pieces

theorem StringRun.flat_eq (run : StringRun) : run.flat = List.intercalate [' '] run.flatPieces := by
  unfold flat flatPieces
  cases run.merged with
  | none => rfl
  | some q => simp

/-- A run whose literals, on one line or one for each line, are read as literals. -/
structure StringRun.Sound (run : StringRun) : Prop where
  ne_nil : run.flatPieces ≠ []
  flat : ∀ p ∈ run.flatPieces, Lexeme.Cuts .string p []
  lines : ∀ available, ∀ p ∈ run.lines available, Lexeme.Cuts .string p []

/-- A token sequence that a run may be printed as. -/
def StringRun.Prints (run : StringRun) (us : List Shape) : Prop :=
  ∃ ps, (ps = run.flatPieces ∨ ∃ available, ps = run.lines available) ∧
    us = ps.map (TokenKind.string, ·)

theorem StringRun.prints_flat (run : StringRun) :
    run.Prints (run.flatPieces.map (TokenKind.string, ·)) :=
  ⟨_, .inl rfl, rfl⟩

def gluedText : List Chunk → Text
  | .text t false :: cs => t ++ gluedText cs
  | _ => []

def literalsFollow : List Chunk → Bool
  | .strings _ spaced :: _ => !spaced
  | .bracket b :: _ => b.isVirtual && !b.spaced
  | _ => false

/-- The word `t`, which is no literal, is a token before chunks. It leads from some open brackets to
others. -/
def WordSound (brackets : List Char) (t : Text) (cs : List Chunk) (brackets' : List Char) : Prop :=
  ∃ kind : TokenKind, kind.isWord = true ∧ kind ≠ .string ∧ Lexeme.Cuts kind t (gluedText cs) ∧
    bracketsAfter kind t brackets = some brackets' ∧ (literalsFollow cs = true → kind = .op)

mutual

/-- Sound chunks, from some open brackets to others. -/
def ChunksSound : List Char → List Chunk → List Char → Prop
  | brackets, [], brackets' => brackets = brackets'
  | brackets, .text t _ :: cs, brackets' =>
      ∃ brackets₁, WordSound brackets t cs brackets₁ ∧ ChunksSound brackets₁ cs brackets'
  | brackets, .strings run _ :: cs, brackets' =>
      run.Sound ∧ literalsFollow cs = false ∧ ChunksSound brackets cs brackets'
  | brackets, .bracket b :: cs, brackets' =>
      b.Sound ∧ (b.isVirtual = true → literalsFollow cs = false) ∧ ChunksSound brackets cs brackets'

/-- A sound bracket. One that may be left out holds literals only. -/
def Bracket.Sound : Bracket → Prop
  | ⟨_, opening, closing, slots, openingComment, dangling, commaWhenExploded, commaWhenFlat,
      isVirtual, _⟩ =>
      (∃ c, (c = '(' ∨ c = '[' ∨ c = '{') ∧ opening = [c] ∧ closing = [Cursor.matching c]) ∧
        SlotsSound slots ∧ (∀ c ∈ openingComment, IsRemark c) ∧ (∀ c ∈ dangling, IsRemark c) ∧
        (commaWhenFlat = true → slots ≠ []) ∧
        (isVirtual = true → (∃ run spaced, run.Sound ∧
          slots = [⟨[.strings run spaced], [], [], none⟩]) ∧ commaWhenExploded = false ∧
          commaWhenFlat = false)

def SlotsSound : List Slot → Prop
  | [] => True
  | s :: ss => s.Sound ∧ SlotsSound ss

def Slot.Sound : Slot → Prop
  | ⟨chunks, leading, trailing, _⟩ =>
      chunks ≠ [] ∧ (∀ brackets, ChunksSound brackets chunks brackets) ∧
        (∀ c ∈ leading, IsRemark c) ∧ ∀ c ∈ trailing, IsRemark c

end

mutual

/-- A token sequence that chunks may be printed as. -/
def ChunksPrint : List Chunk → List Shape → Prop
  | [], us => us = []
  | c :: cs, us => ∃ vs ws, c.Prints vs ∧ ChunksPrint cs ws ∧ us = vs ++ ws

/-- A token sequence that a chunk may be printed as. -/
def Chunk.Prints : Chunk → List Shape → Prop
  | .text t _, us => ∃ kind : TokenKind, Lexeme.Cuts kind t [] ∧ us = [(kind, t)]
  | .strings run _, us => run.Prints us
  | .bracket b, us => b.Prints us

/-- A token sequence that a bracket may be printed as. -/
def Bracket.Prints : Bracket → List Shape → Prop
  | ⟨_, opening, closing, slots, _, _, commaWhenExploded, commaWhenFlat, isVirtual, _⟩, us =>
      ∃ vs, SlotsPrint (commaWhenExploded || commaWhenFlat) slots vs ∧
        (us = (.op, opening) :: (vs ++ [(.op, closing)]) ∨ isVirtual = true ∧ us = vs)

/-- A token sequence that slots may be printed as. The last one may end with a comma if `comma` is
set. -/
def SlotsPrint (comma : Bool) : List Slot → List Shape → Prop
  | [], us => us = []
  | s :: ss, us => ∃ vs ws, s.Prints vs ∧ us = vs ++ ws ∧
      ((ss = [] ∧ (ws = [] ∨ comma = true ∧ ws = [.comma])) ∨
        (ss ≠ [] ∧ ∃ ws', SlotsPrint comma ss ws' ∧ ws = .comma :: ws'))

/-- A token sequence that a slot may be printed as. -/
def Slot.Prints : Slot → List Shape → Prop
  | ⟨chunks, _, _, _⟩, us => ChunksPrint chunks us

end

/-! ## What follows a chunk -/

theorem StringRun.Sound.flat_cons {run : StringRun} (h : run.Sound) :
    ∃ c w, run.flat = c :: w ∧ (Text.isWordStart c = true ∨ c = '"' ∨ c = '\'') := by
  obtain ⟨p, ps, hpieces⟩ := List.exists_cons_of_ne_nil h.ne_nil
  obtain ⟨c, w, rfl, -, hstart, -⟩ := (h.flat p (by simp [hpieces])).head
  rw [run.flat_eq, hpieces]
  cases ps with
  | nil => exact ⟨c, w, by simp [List.intercalate], hstart rfl⟩
  | cons q qs =>
      exact ⟨c, w ++ [' '] ++ List.intercalate [' '] (q :: qs), by simp [List.intercalate],
        hstart rfl⟩

theorem forall_digit (p : Char → Bool) (h : ∀ n : Fin 10, p (Char.ofNat (48 + n)) = true) {c : Char}
    (hc : c.isDigit = true) : p c = true := by
  simp only [Char.isDigit, Bool.and_eq_true, decide_eq_true_eq] at hc
  have hlow : 48 ≤ c.toNat := hc.1
  have hhigh : c.toNat ≤ 57 := hc.2
  have hof := h ⟨c.toNat - 48, by omega⟩
  rwa [show 48 + (c.toNat - 48) = c.toNat by omega, Char.ofNat_toNat] at hof

theorem StringRun.Sound.ends {run : StringRun} (h : run.Sound) (x : Text) :
    Lexeme.Ends .op (run.flat ++ x) := by
  obtain ⟨c, w, hflat, hstart⟩ := h.flat_cons
  rw [hflat]
  intro d hd
  obtain rfl : c = d := by simpa using hd
  have htails : ∀ d ∈ Lexeme.operatorTails, Text.isWordStart d = false ∧ d ≠ '"' ∧ d ≠ '\'' :=
    Lexeme.forall_mem_of_all (by decide)
  refine ⟨fun hmem => ?_, ?_⟩
  · obtain ⟨hword, hdouble, hsingle⟩ := htails c hmem
    simp [hword, hdouble, hsingle] at hstart
  · rcases hstart with hstart | rfl | rfl
    · cases hdigit : c.isDigit with
      | false => rfl
      | true =>
          have hword := forall_digit (!Text.isWordStart ·) (by decide) hdigit
          simp [hstart] at hword
    · rfl
    · rfl

theorem Bracket.Sound.opening {b : Bracket} (h : b.Sound) :
    ∃ c, (c = '(' ∨ c = '[' ∨ c = '{') ∧ b.opening = [c] ∧ b.closing = [Cursor.matching c] := by
  cases b
  exact h.1

theorem Bracket.Sound.literals {b : Bracket} (h : b.Sound) (hvirtual : b.isVirtual = true) :
    ∃ run spaced, run.Sound ∧ b.slots = [⟨[.strings run spaced], [], [], none⟩] ∧
      b.commaWhenExploded = false ∧ b.commaWhenFlat = false ∧ b.flat = run.flat := by
  obtain ⟨_, opening, closing, slots, _, _, commaWhenExploded, commaWhenFlat, isVirtual, _⟩ := b
  obtain ⟨-, -, -, -, -, hliterals⟩ := h
  obtain rfl : isVirtual = true := hvirtual
  obtain ⟨⟨run, spaced, hrun, rfl⟩, hexploded, hflat⟩ := hliterals rfl
  refine ⟨run, spaced, hrun, rfl, hexploded, hflat, ?_⟩
  simp [Bracket.flat, flatSlots, Slot.flat, flatChunks, Chunk.flat, flatTail]

theorem Bracket.flat_of_not_isVirtual {b : Bracket} (h : b.isVirtual = false) :
    b.flat = b.opening ++ (flatSlots b.slots ++ (if b.commaWhenFlat then [','] else []) ++
      b.closing) := by
  cases b
  obtain rfl := h
  simp [Bracket.flat]

theorem isStop_opening {b : Bracket} (h : b.Sound) (x : Text) : IsStop (b.opening ++ x) := by
  obtain ⟨c, hc, hopening, -⟩ := h.opening
  rw [hopening]
  refine isStop_cons ?_ x
  rcases hc with rfl | rfl | rfl <;> decide

/-- What follows a word starts with the words that follow without a blank, and goes on with something
that no operator runs into. -/
theorem flatTail_split {brackets brackets' : List Char} {cs : List Chunk}
    (h : ChunksSound brackets cs brackets') {x : Text} (hx : IsStop x) :
    ∃ z, flatTail cs ++ x = gluedText cs ++ z ∧ Lexeme.Ends .op z ∧
      (gluedText cs = [] → literalsFollow cs = false → IsStop z) := by
  induction cs generalizing brackets with
  | nil => exact ⟨x, rfl, hx.ends rfl, fun _ _ => hx⟩
  | cons c cs ih =>
      cases hspaced : c.isSpaced with
      | true =>
          have hglued : gluedText (c :: cs) = [] := by
            cases c with
            | text t spaced =>
                obtain rfl : spaced = true := hspaced
                rfl
            | strings run spaced => rfl
            | bracket b => rfl
          have hstop : IsStop (flatTail (c :: cs) ++ x) := by
            rw [flatTail, hspaced]
            exact isStop_cons (by decide) _
          exact ⟨flatTail (c :: cs) ++ x, by rw [hglued, List.nil_append], hstop.ends rfl,
            fun _ _ => hstop⟩
      | false =>
          have htail : flatTail (c :: cs) = c.flat ++ flatTail cs := by
            rw [flatTail, hspaced]
            rfl
          rw [htail, List.append_assoc]
          cases c with
          | text t spaced =>
              obtain rfl : spaced = false := hspaced
              obtain ⟨brackets₁, ⟨kind, -, -, hcuts, -⟩, hcs⟩ := h
              obtain ⟨z, hz, hends, -⟩ := ih hcs
              refine ⟨z, ?_, hends, ?_⟩
              · rw [hz, gluedText, Chunk.flat, List.append_assoc]
              · intro hnil
                exact absurd (List.append_eq_nil_iff.mp hnil).1 hcuts.ne_nil
          | strings run spaced =>
              obtain rfl : spaced = false := hspaced
              exact ⟨run.flat ++ (flatTail cs ++ x), rfl, h.1.ends _, fun _ hfollow => by cases hfollow⟩
          | bracket b =>
              have hspaced' : b.spaced = false := hspaced
              rw [Chunk.flat]
              cases hvirtual : b.isVirtual with
              | true =>
                  obtain ⟨run, _, hrun, -, -, -, hflat⟩ := h.1.literals hvirtual
                  refine ⟨b.flat ++ (flatTail cs ++ x), rfl, ?_, ?_⟩
                  · rw [hflat]
                    exact hrun.ends _
                  · simp [literalsFollow, hvirtual, hspaced']
              | false =>
                  have hstop : IsStop (b.flat ++ (flatTail cs ++ x)) := by
                    rw [b.flat_of_not_isVirtual hvirtual, List.append_assoc]
                    exact isStop_opening h.1 _
                  exact ⟨b.flat ++ (flatTail cs ++ x), rfl, hstop.ends rfl, fun _ _ => hstop⟩

/-- A sound word is a token before the chunks that follow. -/
theorem cuts_flatTail {brackets₁ brackets' : List Char} {t : Text} {cs : List Chunk}
    {kind : TokenKind} (hkind : kind.isWord = true) (hcuts : Lexeme.Cuts kind t (gluedText cs))
    (hliterals : literalsFollow cs = true → kind = .op) (hcs : ChunksSound brackets₁ cs brackets')
    {x : Text} (hx : IsStop x) : Lexeme.Cuts kind t (flatTail cs ++ x) := by
  obtain ⟨z, hz, hends, hstop⟩ := flatTail_split hcs hx
  rw [hz]
  rw [← List.append_nil (gluedText cs)] at hcuts
  refine hcuts.exchange ?_
  rintro (rfl | hnil)
  · exact hends
  · cases hfollow : literalsFollow cs with
    | true =>
        obtain rfl := hliterals hfollow
        exact hends
    | false => exact (hstop hnil hfollow).ends hkind

theorem ends_flatTail {brackets brackets' : List Char} {cs : List Chunk}
    (hcs : ChunksSound brackets cs brackets') (hfollow : literalsFollow cs = false) {x : Text}
    (hx : IsStop x) : Lexeme.Ends .string (flatTail cs ++ x) := by
  obtain ⟨z, hz, -, hstop⟩ := flatTail_split hcs hx
  rw [hz]
  by_cases hnil : gluedText cs = []
  · rw [hnil, List.nil_append]
    exact (hstop hnil hfollow).ends rfl
  · unfold gluedText at hnil ⊢
    split at hnil
    · obtain ⟨brackets₁, ⟨kind, -, hkind, hcuts, -⟩, -⟩ := hcs
      obtain ⟨c, w, rfl, -, -, hquotes⟩ := hcuts.head
      intro d hd
      obtain rfl : c = d := by simpa using hd
      exact hquotes hkind
    · exact absurd rfl hnil

/-! ## Reading chunks on one line -/

theorem Reads.literals {run : StringRun} (hrun : run.Sound) {brackets brackets' : List Char}
    {w : Text} {us : List Shape} (hnext : ∀ x, IsStop x → Lexeme.Ends .string (w ++ x))
    (h : Reads brackets w us brackets') :
    Reads brackets (run.flat ++ w) (run.flatPieces.map (TokenKind.string, ·) ++ us) brackets' := by
  rw [run.flat_eq]
  obtain ⟨hne, hpieces, -⟩ := hrun
  generalize run.flatPieces = pieces at hne hpieces
  induction pieces with
  | nil => exact absurd rfl hne
  | cons p ps ih =>
      have hp : Lexeme.Cuts .string p [] := hpieces p (by simp)
      have hsame (w : Text) (bs : List Char) : bracketsAfter .string w bs = some bs :=
        bracketsAfter_of_ne_op (by simp) w bs
      cases ps with
      | nil =>
          rw [List.intercalate_singleton]
          exact Reads.word rfl (fun x hx => hp.before (hnext x hx)) (hsame p brackets) h
      | cons q qs =>
          have hrest := ih (by simp) fun r hr => hpieces r (List.mem_cons_of_mem _ hr)
          rw [List.intercalate_cons_cons, List.append_assoc, List.append_assoc]
          refine Reads.word rfl (fun x _ => hp.before ?_) (hsame p brackets)
            (hrest.blanks (w := [' ']) (by simp [Text.isIndent]))
          exact (isStop_cons (c := ' ') (by decide) _).ends rfl

theorem Reads.lone {c : Char} (hc : c ∈ Lexeme.loneOperators) {brackets brackets₁ brackets₂ : List Char}
    {w : Text} {us : List Shape} (hbrackets : bracketsAfter .op [c] brackets = some brackets₁)
    (h : Reads brackets₁ w us brackets₂) : Reads brackets (c :: w) ((.op, [c]) :: us) brackets₂ :=
  Reads.word rfl (fun _ _ => Lexeme.cuts_lone hc _) hbrackets h

/-- Literals that stay outside of the parentheses that they may get. -/
theorem Bracket.Sound.prints_flat {b : Bracket} (h : b.Sound) (hvirtual : b.isVirtual = true) :
    ∃ run : StringRun, run.Sound ∧ b.flat = run.flat ∧
      b.Prints (run.flatPieces.map (TokenKind.string, ·)) := by
  obtain ⟨run, spaced, hrun, hslots, -, -, hflat⟩ := h.literals hvirtual
  refine ⟨run, hrun, hflat, ?_⟩
  cases b
  refine ⟨_, ?_, .inr ⟨hvirtual, rfl⟩⟩
  obtain rfl := hslots
  exact ⟨_, [], ⟨_, [], run.prints_flat, rfl, rfl⟩, by simp, .inl ⟨rfl, .inl rfl⟩⟩

mutual

/-- A bracket on one line, before any text. -/
theorem reads_bracket : ∀ {b : Bracket} (brackets : List Char), b.Sound → b.isVirtual = false →
    ∃ us, b.Prints us ∧ ∀ {w : Text} {vs : List Shape} {brackets' : List Char},
      Reads brackets w vs brackets' → Reads brackets (b.flat ++ w) (us ++ vs) brackets'
  | ⟨spaced, opening, closing, slots, openingComment, dangling, commaWhenExploded, commaWhenFlat,
      isVirtual, forced⟩, brackets, hb, hvirtual => by
      obtain ⟨⟨c, hc, hopening, hclosing⟩, hslots, -, -, hcomma, -⟩ := hb
      obtain ⟨us, hus, hread⟩ := reads_slots (c :: brackets) hslots hcomma
      refine ⟨(.op, opening) :: (us ++ [(.op, closing)]), ⟨us, ?_, .inl rfl⟩, ?_⟩
      · exact hus (by simp +contextual)
      · intro w vs brackets' hw
        obtain rfl : isVirtual = false := hvirtual
        obtain ⟨hlone, hlone'⟩ := mem_loneOperators hc
        have hstop : ∀ x, IsStop x → IsStop ((Cursor.matching c :: w) ++ x) := by
          intro x _
          refine isStop_cons ?_ _
          rcases hc with rfl | rfl | rfl <;> decide
        have hrest := hread.append (hw.lone hlone' (bracketsAfter_closing hc brackets)) hstop
        have hall := hrest.lone hlone (bracketsAfter_opening hc brackets)
        simpa [Bracket.flat, hopening, hclosing] using hall

theorem reads_slots : ∀ {slots : List Slot} {comma : Bool} (brackets : List Char),
    SlotsSound slots → (comma = true → slots ≠ []) →
    ∃ us, (∀ {allowed : Bool}, (comma = true → allowed = true) → SlotsPrint allowed slots us) ∧
      Reads brackets (flatSlots slots ++ (if comma then [','] else [])) us brackets
  | [], comma, brackets, _, hcomma => by
      cases comma with
      | true => exact absurd rfl (hcomma rfl)
      | false => exact ⟨[], fun _ => rfl, Reads.nil⟩
  | [⟨chunks, leading, trailing, sortKey⟩], comma, brackets, hslots, _ => by
      obtain ⟨⟨-, hchunks, -⟩, -⟩ := hslots
      obtain ⟨us, hus, -, hread⟩ := reads_chunks (hchunks brackets)
      cases comma with
      | true =>
          refine ⟨us ++ [.comma], fun hallowed => ?_, ?_⟩
          · exact ⟨us, [.comma], hus, rfl, .inl ⟨rfl, .inr ⟨hallowed rfl, rfl⟩⟩⟩
          · refine hread.append (Reads.nil.lone (by decide) rfl) ?_
            exact fun x _ => isStop_cons (by decide) _
      | false =>
          refine ⟨us, fun _ => ⟨us, [], hus, by simp, .inl ⟨rfl, .inl rfl⟩⟩, ?_⟩
          simpa [flatSlots, Slot.flat] using hread
  | ⟨chunks, leading, trailing, sortKey⟩ :: s :: ss, comma, brackets, hslots, _ => by
      obtain ⟨⟨-, hchunks, -⟩, hrest⟩ := hslots
      obtain ⟨us, hus, -, hread⟩ := reads_chunks (hchunks brackets)
      obtain ⟨vs, hvs, hread'⟩ := @reads_slots (s :: ss) comma brackets hrest (by simp)
      refine ⟨us ++ .comma :: vs, fun hallowed => ?_, ?_⟩
      · exact ⟨us, .comma :: vs, hus, rfl, .inr ⟨by simp, vs, hvs hallowed, rfl⟩⟩
      · have hblank := hread'.blanks (w := [' ']) (by simp [Text.isIndent])
        have hcomma : Reads brackets (',' :: ([' '] ++ (flatSlots (s :: ss) ++
            (if comma then [','] else [])))) (.comma :: vs) brackets := hblank.lone (by decide) rfl
        have hall := hread.append hcomma fun x _ => isStop_cons (by decide) _
        simpa [flatSlots, Slot.flat] using hall

theorem reads_chunks : ∀ {brackets : List Char} {cs : List Chunk} {brackets' : List Char},
    ChunksSound brackets cs brackets' →
    ∃ us, ChunksPrint cs us ∧ Reads brackets (flatTail cs) us brackets' ∧
      Reads brackets (flatChunks cs) us brackets'
  | brackets, [], brackets', h => by
      obtain rfl := h
      exact ⟨[], rfl, Reads.nil, Reads.nil⟩
  | brackets, .text t spaced :: cs, brackets', h => by
      obtain ⟨brackets₁, ⟨kind, hkind, -, hcuts, hbrackets, hliterals⟩, hcs⟩ := h
      obtain ⟨us, hus, hread, -⟩ := reads_chunks hcs
      have hall := Reads.word hkind (fun x hx => cuts_flatTail hkind hcuts hliterals hcs hx)
        hbrackets hread
      refine ⟨(kind, t) :: us, ⟨[(kind, t)], us, ⟨kind, hcuts.alone, rfl⟩, hus, rfl⟩, ?_, hall⟩
      rw [flatTail, List.append_assoc]
      exact hall.blanks (by cases spaced <;> simp [Chunk.isSpaced, Text.isIndent])
  | brackets, .strings run spaced :: cs, brackets', h => by
      obtain ⟨hrun, hfollow, hcs⟩ := h
      obtain ⟨us, hus, hread, -⟩ := reads_chunks hcs
      have hall := Reads.literals hrun (fun x hx => ends_flatTail hcs hfollow hx) hread
      refine ⟨_, ⟨_, us, run.prints_flat, hus, rfl⟩, ?_, hall⟩
      rw [flatTail, List.append_assoc]
      exact hall.blanks (by cases spaced <;> simp [Chunk.isSpaced, Text.isIndent])
  | brackets, .bracket b :: cs, brackets', h => by
      obtain ⟨hb, hfollow, hcs⟩ := h
      obtain ⟨us, hus, hread, -⟩ := reads_chunks hcs
      obtain ⟨vs, hvs, hall⟩ : ∃ vs, b.Prints vs ∧
          Reads brackets (b.flat ++ flatTail cs) (vs ++ us) brackets' := by
        cases hvirtual : b.isVirtual with
        | true =>
            obtain ⟨run, hrun, hflat, hprints⟩ := hb.prints_flat hvirtual
            refine ⟨_, hprints, ?_⟩
            rw [hflat]
            exact Reads.literals hrun (fun x hx => ends_flatTail hcs (hfollow hvirtual) hx) hread
        | false =>
            obtain ⟨vs, hvs, hb⟩ := reads_bracket brackets hb hvirtual
            exact ⟨vs, hvs, hb hread⟩
      refine ⟨vs ++ us, ⟨vs, us, hvs, hus, rfl⟩, ?_, hall⟩
      rw [flatTail, List.append_assoc]
      exact hall.blanks (by cases hspaced : b.spaced <;> simp [Chunk.isSpaced, hspaced, Text.isIndent])

end

end SchemaTidy
