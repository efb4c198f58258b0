import SchemaTidy.Proofs.Print.Tokens
import SchemaTidy.Proofs.Tree.Comments

/-!
# Comments that printing keeps

Canonical printing has a row for each comment outside of brackets, except for those that a backslash
has put behind the end of a logical line. The print is read with all comments of its rows if words do
not fuse, no comment hides code and the literals are still literals.
-/

namespace SchemaTidy

/-! ## Literals of any width -/

namespace Lexeme

def isLiteral : Text → Bool
  | [] => false
  | c :: cs => (scan false .start c cs).toOption == some (.token .string, cs.length)

theorem isLiteral_iff {t : Text} : isLiteral t = true ↔ Cuts .string t [] := by
  constructor
  · intro h
    cases t with
    | nil => cases h
    | cons c cs =>
        cases hscan : scan false .start c cs with
        | error e => simp [isLiteral, hscan, Except.toOption] at h
        | ok piece =>
            obtain rfl : piece = (.token .string, cs.length) := by
              simpa [isLiteral, hscan, Except.toOption] using h
            simpa using cuts_of_scan hscan (by decide)
  · rintro ⟨-, c, cs, rfl, hscan⟩
    have hone := hscan false .start
    rw [List.append_nil] at hone
    simp [isLiteral, hone, Except.toOption]

end Lexeme

namespace StringRun

/-- The columns that suffice for words to stay on a line. -/
def room (line : Text) : List Text → Nat
  | [] => 0
  | word :: words => max (Text.width line + Text.width word) (room (line ++ word) words)

theorem fill_of_room_le {overhead available : Nat} {line : Text} {words : List Text}
    (h : overhead + room line words ≤ available) :
    fill overhead available line words = [line ++ words.flatten] := by
  induction words generalizing line with
  | nil => simp [fill]
  | cons word words ih =>
      rw [room] at h
      have hfits : ¬ available < overhead + Text.width line + Text.width word := by omega
      rw [fill, if_neg (by simp [hfits]), ih (by omega)]
      simp

/-- The columns that suffice for a run to stay on a line. -/
def widest (r : StringRun) : Nat :=
  match r.merged with
  | none => 0
  | some q => Text.width q.marks + 2 * q.quote.length + room [] (Text.splitAfter (· == ' ') q.body)

theorem lines_of_widest_le {r : StringRun} {available : Nat} (h : r.widest ≤ available) :
    r.lines available = r.flatPieces := by
  unfold widest at h
  unfold lines flatPieces
  cases hmerged : r.merged with
  | none => rfl
  | some q =>
      simp only [hmerged] at h
      simp only [fill_of_room_le h, List.nil_append, Text.flatten_splitAfter, List.map_singleton]

/-- Whether at some width a literal of a run is printed as something else. -/
def breaks (r : StringRun) : Bool :=
  (List.range (r.widest + 1)).any fun available => (r.lines available).any (!Lexeme.isLiteral ·)

/-- No width beyond the widest needs to be tried. -/
theorem breaks_eq_false_iff {r : StringRun} (hne : r.flatPieces ≠ []) :
    r.breaks = false ↔ r.Sound := by
  have hbreaks : r.breaks = false ↔
      ∀ available ≤ r.widest, ∀ p ∈ r.lines available, Lexeme.Cuts .string p [] := by
    simp only [breaks, List.any_eq_false, List.mem_range, Nat.lt_succ_iff, Bool.not_eq_true,
      Bool.not_eq_false', Lexeme.isLiteral_iff]
  have hflat := lines_of_widest_le (Nat.le_refl r.widest)
  rw [hbreaks]
  constructor
  · intro h
    have hpieces : ∀ p ∈ r.flatPieces, Lexeme.Cuts .string p [] := hflat ▸ h _ (Nat.le_refl _)
    refine ⟨hne, hpieces, fun available => ?_⟩
    rcases Nat.le_total available r.widest with hle | hle
    · exact h available hle
    · rwa [lines_of_widest_le hle]
  · exact fun h available _ => h.lines available

theorem flatPieces_ofTexts_ne_nil (style : Style) {texts : List Text} (h : texts ≠ []) :
    (ofTexts style texts).flatPieces ≠ [] := by
  unfold flatPieces ofTexts
  cases mergeLiterals? style texts with
  | none => simpa using h
  | some q => simp

end StringRun

/-- Whether at some width a literal of a module is printed as something else. -/
def Module.breaksLiterals (style : Style) (m : Module) : Bool :=
  (logicalLinesOf m.body).any fun items =>
    (literalRunsFrom [] items).any fun run =>
      !run.isEmpty && (StringRun.ofTexts style run).breaks

theorem Module.soundOn_of_breaksLiterals {style : Style} {m : Module}
    (h : m.breaksLiterals style = false) :
    ∀ items ∈ logicalLinesOf m.body, style.SoundOn (literalRunsFrom [] items) := by
  intro items hitems run hrun hne
  simp only [Module.breaksLiterals, List.any_eq_false, Bool.not_eq_true] at h
  have hbreaks := h items hitems run hrun
  rw [Bool.and_eq_false_iff] at hbreaks
  exact (StringRun.breaks_eq_false_iff (StringRun.flatPieces_ofTexts_ne_nil style hne)).mp
    (hbreaks.resolve_left (by simpa using hne))

/-! ## Comments of the tree -/

/-- Whether the end of some logical line has a comment on a line of its own, to which a backslash has
continued the logical line. -/
def Module.dropsComments (m : Module) : Bool :=
  m.tokens.any fun t => t.kind == .newline && !(Trivia.ownLineComments t.trivia).isEmpty

/-- A token from which all comments are printed: one that ends a line has no comment on a line of its
own, and one that opens a block has none at all. -/
def Token.IsKept (t : Token) : Prop :=
  (t.kind = .newline → Trivia.ownLineComments t.trivia = []) ∧ (t.kind = .indent → t.trivia = [])

theorem Token.IsKept.physicalComments {t : Token} (h : t.IsKept) (hkind : t.kind = .newline) :
    Trivia.physicalComments t.trivia =
      Trivia.physicalComments (commentTail (Trivia.sameLineComment? t.trivia).toList) := by
  rw [← Trivia.flatMap_comments, Trivia.comments, h.1 hkind, List.append_nil]
  cases Trivia.sameLineComment? t.trivia with
  | none => rfl
  | some c =>
      have hblank : (' ' : Char) ≠ '#' := by decide
      simp [commentTail, Trivia.physicalComments_cons hblank]

theorem outerCommentsFrom_line {items : List Item} (hitems : ItemsWellFormed items) {newline : Token}
    (hkind : newline.kind = .newline) (hkept : newline.IsKept) (rest : List Token) :
    outerCommentsFrom 0 (tokensOfItems items ++ newline :: rest) =
      printedInLine items newline ++ outerCommentsFrom 0 rest := by
  rw [outerCommentsFrom_items hitems, if_pos rfl, outerCommentsFrom, if_pos rfl,
    Token.depthAfter_of_ne_op (by simp [hkind]), hkept.physicalComments hkind, printedInLine,
    List.append_assoc]

mutual

theorem outerCommentsFrom_statement : ∀ {s : Statement}, s.WellFormed →
    (∀ t ∈ s.tokens, t.IsKept) → ∀ rest : List Token,
    outerCommentsFrom 0 (s.tokens ++ rest) = s.printedComments ++ outerCommentsFrom 0 rest
  | .simple ⟨items, newline, reformat⟩, hs, hkept, rest => by
      obtain ⟨hitems, -, hkind, -⟩ := hs
      have hline := outerCommentsFrom_line hitems.wellFormed hkind
        (hkept newline (by simp [Statement.tokens, Line.tokens])) rest
      simpa [Statement.tokens, Line.tokens, Statement.printedComments] using hline
  | .compound signature header newline ⟨indent, body, dedent⟩, hs, hkept, rest => by
      obtain ⟨⟨hindent, hdedent, -, hbody⟩, ⟨hkind, -⟩, original, horiginal, -, hcompound⟩ := hs
      have hline := outerCommentsFrom_line (itemsWellFormed_header horiginal.wellFormed hcompound)
        hkind (hkept newline (by simp [Statement.tokens]))
        (indent :: (tokensOfBody body ++ dedent :: rest))
      have hinner := outerCommentsFrom_body hbody
        (fun t ht => hkept t (by simp [Statement.tokens, Block.tokens, ht])) (dedent :: rest)
      have htrivia := (hkept indent (by simp [Statement.tokens, Block.tokens])).2 hindent
      rw [outerCommentsFrom, htrivia, Token.depthAfter_of_ne_op (by simp [hindent]), hinner,
        outerCommentsFrom, Token.depthAfter_of_ne_op (by simp [hdedent])] at hline
      simpa [Statement.tokens, Block.tokens, Statement.printedComments, Block.printedComments]
        using hline

theorem outerCommentsFrom_body : ∀ {ss : List Statement}, BodyWellFormed ss →
    (∀ t ∈ tokensOfBody ss, t.IsKept) → ∀ rest : List Token,
    outerCommentsFrom 0 (tokensOfBody ss ++ rest) = printedInBody ss ++ outerCommentsFrom 0 rest
  | [], _, _, _ => rfl
  | s :: ss, hss, hkept, rest => by
      have hhead := outerCommentsFrom_statement hss.1
        (fun t ht => hkept t (by simp [tokensOfBody, ht])) (tokensOfBody ss ++ rest)
      have htail := outerCommentsFrom_body hss.2
        (fun t ht => hkept t (by simp [tokensOfBody, ht])) rest
      rw [tokensOfBody, List.append_assoc, hhead, htail, printedInBody, List.append_assoc]

end

/-- The comments of a source outside of brackets are those that the rows of its tree hold. -/
theorem outerComments_eq_printedComments {source : Text} {m : Module} (h : parse source = .ok m)
    (hdrops : m.dropsComments = false) :
    ∃ ts, tokenize source = .ok ts ∧ outerComments ts = m.printedComments := by
  obtain ⟨ts, hts, hsame, hindents⟩ := outerComments_parse h
  refine ⟨ts, hts, hsame.trans ?_⟩
  have hkept : ∀ t ∈ m.tokens, t.IsKept := by
    intro t ht
    refine ⟨fun hkind => ?_, hindents t ht⟩
    have hkeeps := List.any_eq_false.mp hdrops t ht
    simpa [hkind] using hkeeps
  have hbody := outerCommentsFrom_body (parse_wellFormed h)
    (fun t ht => hkept t (by simp [Module.tokens, ht])) [m.endMarker]
  simpa [outerComments, Module.tokens, Module.printedComments, outerCommentsFrom] using hbody

/-! ## Main statement -/

/-- Canonical printing keeps the comments outside of brackets in their order, unless a backslash has
put one behind the end of its line, words fuse, a comment hides code or a literal is broken. -/
theorem print_keeps_comments {source : Text} {m : Module} (h : parse source = .ok m) {c : Config}
    (hconfig : c.validate = .ok ()) (hmode : c.style.mode = .canonical)
    (hdrops : m.dropsComments = false) (hfuse : m.fusesWords c.style = false)
    (hcode : m.hidesCode = false) (hliterals : m.breaksLiterals c.style = false) :
    ∃ ts ts', tokenize source = .ok ts ∧ tokenize (m.print c.style) = .ok ts' ∧
      (outerComments ts).Sublist (commentsOf ts') := by
  obtain ⟨ts, hts, hcomments⟩ := outerComments_eq_printedComments h hdrops
  have hsound := Module.soundOn_of_breaksLiterals hliterals
  simp only [Module.fusesWords, List.any_eq_false, Bool.not_eq_true] at hfuse
  simp only [Module.hidesCode, List.any_eq_false, Bool.not_eq_true] at hcode
  obtain ⟨-, ts', -, hts', -, hkept⟩ := tokenize_rows (parse_wellFormed h)
    (Config.indentSize_pos hconfig) hcode fun items hitems => ⟨hsound items hitems, hfuse items hitems⟩
  have hprint : m.print c.style = m.printCanonical c.style := by simp only [Module.print, hmode]
  rw [hprint]
  exact ⟨ts, ts', hts, hts', hcomments ▸ hkept⟩

/-- A source with comments before, behind and below statements, below a block and at its end, one of
them with a carriage return, and literals that are merged. -/
def commentedSource : Text :=
  ("# a\nclass S(B):  # b\n  x = [1,  # in\n    2]  # c \n  y = 'it ' 'is'\n\n  # d\n" ++
    "# e\r# f\nz = 1  # g\n# h").toList

theorem print_keeps_comments_commentedSource :
    ∃ m ts', parse commentedSource = .ok m ∧ tokenize (m.print {}) = .ok ts' ∧
      (["# a", "# b", "# c", "# d", "# e", "# f", "# g", "# h"].map String.toList).Sublist
        (commentsOf ts') := by
  have hsource : ((parse commentedSource).toOption.any fun m =>
      !m.dropsComments && !m.fusesWords {} && !m.hidesCode && !m.breaksLiterals {}) = true := by
    decide +kernel
  have houter : (tokenize commentedSource).toOption.map outerComments =
      some (["# a", "# b", "# c", "# d", "# e", "# f", "# g", "# h"].map String.toList) := by
    decide +kernel
  cases hm : parse commentedSource with
  | error e => simp [hm, Except.toOption] at hsource
  | ok m =>
      simp only [hm, Except.toOption, Option.any_some, Bool.and_eq_true, Bool.not_eq_true'] at hsource
      obtain ⟨⟨⟨hdrops, hfuse⟩, hcode⟩, hliterals⟩ := hsource
      obtain ⟨ts, ts', hts, hts', hkept⟩ :=
        print_keeps_comments hm (c := {}) (by rfl) rfl hdrops hfuse hcode hliterals
      rw [hts] at houter
      exact ⟨m, ts', rfl, hts', Option.some.inj houter ▸ hkept⟩

end SchemaTidy
