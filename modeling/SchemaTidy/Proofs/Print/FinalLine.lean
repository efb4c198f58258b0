import SchemaTidy.Proofs.Print.Respacing
import SchemaTidy.Proofs.Tree.FinalLine

/-!
# Printing a source without a final line terminator

A source whose last line has no terminator is printed as the same source with a line feed behind it,
exactly unless the line feed makes its last comment part of a block.
-/

namespace SchemaTidy

theorem Text.trim_concat {p : Char → Bool} {c : Char} (hc : p c = true) (t : Text) :
    trim p (t ++ [c]) = trim p t := by
  have hdrop : (t ++ [c]).dropWhile p = [] ∧ t.dropWhile p = [] ∨
      (t ++ [c]).dropWhile p = t.dropWhile p ++ [c] := by
    rw [List.dropWhile_append]
    split
    · rename_i hnil
      exact .inl ⟨by simp [hc], List.isEmpty_iff.mp hnil⟩
    · exact .inr rfl
  unfold trim
  rcases hdrop with ⟨hnil, hnil'⟩ | hconcat
  · rw [hnil, hnil']
  · rw [hconcat, trimEnd_concat hc]

namespace Trivia

theorem line?_lineFeed {row : Text} (hrow : ∀ c ∈ row, c ≠ '\n') :
    line? (row ++ ['\n']) = line? row ∨ (line? row = none ∧ line? (row ++ ['\n']) = some .blank) := by
  have hlast : (row.getLast? == some '\n') = false := by
    cases h : row.getLast? with
    | none => rfl
    | some c => simpa using hrow c (List.mem_of_getLast? h)
  unfold line?
  rw [Text.trim_concat (by decide)]
  cases hcomment : comment? (Text.trim Text.isBlank row) with
  | some text => simp [hcomment]
  | none => cases hempty : (Text.trim Text.isBlank row).isEmpty <;> simp [hcomment, hlast, hempty]

theorem lines_lineFeed {t : Text} (ht : Unterminated t) :
    lines (t ++ ['\n']) = lines t ∨ lines (t ++ ['\n']) = lines t ++ [.blank] := by
  obtain ⟨ls, row, hrow, hsplit, hsplit'⟩ := splitAfter_lineFeed ht
  have hlast : (if row = [] then [] else [row]).filterMap line? = (line? row).toList := by
    split
    · rename_i hnil
      rw [hnil]
      rfl
    · rw [List.filterMap_cons]
      cases line? row <;> rfl
  have hend : [row ++ ['\n']].filterMap line? = (line? (row ++ ['\n'])).toList := by
    rw [List.filterMap_cons]
    cases line? (row ++ ['\n']) <;> rfl
  rw [lines, lines, hsplit, hsplit', List.filterMap_append, List.filterMap_append, hlast, hend]
  rcases line?_lineFeed hrow with hsame | ⟨hnone, hblank⟩
  · exact .inl (by rw [hsame])
  · exact .inr (by simp [hnone, hblank])

end Trivia

/-! ## Blank lines at the end -/

def printedLines (rows : List (Option Text)) : List Text :=
  (((rows.dropWhile Option.isNone).map (·.getD [])).reverse.dropWhile List.isEmpty).reverse

theorem printedLines_blank (rows : List (Option Text)) :
    printedLines (rows ++ [none]) = printedLines rows := by
  unfold printedLines
  rw [List.dropWhile_append]
  split
  · rename_i hnil
    rw [List.isEmpty_iff.mp hnil]
    rfl
  · simp

theorem printCanonical_eq (style : Style) (m : Module) : m.printCanonical style =
    joinLines m.lineBreak
      (printedLines (rowsOf style 0 m.body ++ triviaRows style 0 m.endMarker.trivia)) := rfl

/-! ## Leads -/

theorem lineLeads_eq {is js : List Item} {newline newline' : Token}
    (h : (tokensOfItems is ++ [newline]).map Token.trivia =
      (tokensOfItems js ++ [newline']).map Token.trivia) :
    lineLeads is newline = lineLeads js newline' := by
  have hremarks {ts us : List Token} (h : ts.map Token.trivia = us.map Token.trivia) :
      ts.map Token.remarks = us.map Token.remarks := by
    have hfactor : Token.remarks =
        (fun t => Lead.remarks (Trivia.sameLineComment? t) (Trivia.ownLineComments t)) ∘
          Token.trivia := rfl
    rw [hfactor, ← List.map_map, h, List.map_map]
  unfold lineLeads
  cases hts : tokensOfItems is with
  | nil =>
      cases hus : tokensOfItems js with
      | nil => simpa [hts, hus] using hremarks h
      | cons u us => simpa [hts, hus] using congrArg List.length h
  | cons t ts =>
      cases hus : tokensOfItems js with
      | nil => simpa [hts, hus] using congrArg List.length h
      | cons u us =>
          rw [hts, hus, List.cons_append, List.cons_append, List.map_cons, List.map_cons] at h
          obtain ⟨hfirst, hrest⟩ := List.cons.inj h
          simp only [Token.rowsBefore, hfirst, hremarks hrest]

mutual

theorem Statement.leads_eq : ∀ {s t : Statement}, s.bare = t.bare →
    s.tokens.map Token.trivia = t.tokens.map Token.trivia → s.leads = t.leads
  | .simple _, .simple _, _, h => lineLeads_eq h
  | .compound signature header newline block, .compound signature' header' newline' block', hbare,
      h => by
      injection hbare with _ hheader _ hblock
      rw [Statement.tokens, Statement.tokens, List.append_cons (tokensOfItems header),
        List.append_cons (tokensOfItems header')] at h
      obtain ⟨hline, hrest⟩ := map_append_inj h (by simp [length_tokensOfItems_eq hheader])
      rw [Statement.leads, Statement.leads, lineLeads_eq hline, Block.leads_eq hblock hrest]
  | .simple _, .compound .., hbare, _ => by cases hbare
  | .compound .., .simple _, hbare, _ => by cases hbare

theorem Block.leads_eq : ∀ {b c : Block}, b.bare = c.bare →
    b.tokens.map Token.trivia = c.tokens.map Token.trivia → b.leads = c.leads
  | ⟨indent, body, dedent⟩, ⟨indent', body', dedent'⟩, hbare, h => by
      injection hbare with _ hbody _
      rw [Block.tokens, Block.tokens, List.map_cons, List.map_cons] at h
      obtain ⟨hindent, hrest⟩ := List.cons.inj h
      have hlength : (tokensOfBody body).length = (tokensOfBody body').length := by
        simpa [tokensOfBody_bare] using congrArg (fun ss => (tokensOfBody ss).length) hbody
      obtain ⟨hinner, hend⟩ := map_append_inj hrest hlength
      have hdedent : dedent.trivia = dedent'.trivia := (List.cons.inj hend).1
      rw [Block.leads, Block.leads, leadsOf_eq hbody hinner]
      simp only [Token.remarks, Token.rowsBefore, hindent, hdedent]

theorem leadsOf_eq : ∀ {ss ts : List Statement}, bareBody ss = bareBody ts →
    (tokensOfBody ss).map Token.trivia = (tokensOfBody ts).map Token.trivia →
    leadsOf ss = leadsOf ts
  | [], [], _, _ => rfl
  | s :: ss, t :: ts, hbare, h => by
      injection hbare with hst hrest
      have hlength : s.tokens.length = t.tokens.length := by
        simpa [Statement.tokens_bare] using congrArg (fun u => u.tokens.length) hst
      obtain ⟨hhead, htail⟩ := map_append_inj h hlength
      rw [leadsOf, leadsOf, Statement.leads_eq hst hhead, leadsOf_eq hrest htail]
  | [], _ :: _, hbare, _ => by cases hbare
  | _ :: _, [], hbare, _ => by cases hbare

end

/-! ## The two prints -/

theorem shape_attachedClosing (columns : List Nat) (p : Position) (t : Text) :
    (attachedClosing columns p t).map Token.shape =
      List.replicate columns.length (.dedent, []) ++ [(.endMarker, [])] := by
  simp [attachedClosing, Token.shape, TokenKind.isWord, Function.comp_def, List.map_const']

theorem unterminated_behindTrailers (columns : List Nat) {t : Text} (ht : Unterminated t) :
    Unterminated (behindTrailers columns t) := by
  induction columns generalizing t with
  | nil => exact ht
  | cons n ns ih => exact ih (ht.drop _)

theorem Module.lineBreak_eq {m : Module} (h : BodyWellFormed m.body) :
    m.lineBreak = (firstTerminator? (tokensOfBody m.body)).getD ['\n'] := by
  rw [Module.lineBreak, lineBreakOf?_eq h]

section Sources

variable {source source' : Text} {m m' : Module} (h : parse source = .ok m)
  (h' : parse source' = .ok m')
include h h'

theorem rowsOf_eq_of_trivia (hshape : m.tokens.map Token.shape = m'.tokens.map Token.shape)
    (htrivia : (tokensOfBody m.body).map Token.trivia = (tokensOfBody m'.body).map Token.trivia)
    (style : Style) (depth : Nat) : rowsOf style depth m.body = rowsOf style depth m'.body := by
  have hbare : bareBody m.body = bareBody m'.body :=
    congrArg Module.body (bare_parse_eq h h' hshape)
  exact rowsOf_eq style hbare (parse_wellFormed h) (leadsOf_eq hbare htrivia) depth

/-- A line feed that ends the last line is not seen. -/
theorem printCanonical_line {out : List Token} {columns : List Nat} {p p' : Position}
    {newline : Token} (hkind : newline.kind = .newline) (htext : newline.text = [])
    (hm : m.tokens = out ++ newline :: attachedClosing columns p [])
    (hm' : m'.tokens = out ++ { newline with text := ['\n'] } :: attachedClosing columns p' [])
    (style : Style) : m.printCanonical style = m'.printCanonical style := by
  have hshape : m.tokens.map Token.shape = m'.tokens.map Token.shape := by
    rw [hm, hm', List.map_append, List.map_append, List.map_cons, List.map_cons,
      shape_attachedClosing, shape_attachedClosing]
    simp [Token.shape, hkind, TokenKind.isWord]
  rw [List.append_cons] at hm hm'
  obtain ⟨hbody, hend⟩ := tokensOfBody_of_attachedClosing hm
  obtain ⟨hbody', hend'⟩ := tokensOfBody_of_attachedClosing hm'
  have htrivia : (tokensOfBody m.body).map Token.trivia = (tokensOfBody m'.body).map Token.trivia := by
    simp [hbody, hbody']
  have hbreak : m.lineBreak = m'.lineBreak := by
    have hdedents (q : Position) : firstTerminator? ((trailersOf columns []).map fun moved =>
        (⟨.dedent, [], moved, q⟩ : Token)) = none := firstTerminator?_of_not (by simp)
    rw [Module.lineBreak_eq (parse_wellFormed h), Module.lineBreak_eq (parse_wellFormed h'), hbody,
      hbody', firstTerminator?_append, firstTerminator?_append, firstTerminator?_append,
      firstTerminator?_append, hdedents, hdedents]
    cases firstTerminator? out <;>
      simp [firstTerminator?, Token.spelling, isTerminator, hkind, htext]
  rw [printCanonical_eq, printCanonical_eq, hbreak, rowsOf_eq_of_trivia h h' hshape htrivia, hend,
    hend']

/-- A line feed behind the trivia at the end is not seen when it changes no trailer. -/
theorem printCanonical_trivia {out : List Token} {columns : List Nat} {p p' : Position}
    {trivia : Text} (htrivia : Unterminated trivia)
    (hm : m.tokens = out ++ attachedClosing columns p trivia)
    (hm' : m'.tokens = out ++ attachedClosing columns p' (trivia ++ ['\n']))
    (hsame : trailersOf columns (trivia ++ ['\n']) = trailersOf columns trivia ∧
      behindTrailers columns (trivia ++ ['\n']) = behindTrailers columns trivia ++ ['\n'])
    (style : Style) : m.printCanonical style = m'.printCanonical style := by
  have hshape : m.tokens.map Token.shape = m'.tokens.map Token.shape := by
    rw [hm, hm', List.map_append, List.map_append, shape_attachedClosing, shape_attachedClosing]
  obtain ⟨hbody, hend⟩ := tokensOfBody_of_attachedClosing hm
  obtain ⟨hbody', hend'⟩ := tokensOfBody_of_attachedClosing hm'
  have hbodies : (tokensOfBody m.body).map Token.trivia =
      (tokensOfBody m'.body).map Token.trivia := by
    simp [hbody, hbody', hsame.1]
  have hbreak : m.lineBreak = m'.lineBreak := by
    have hdedents (t : Text) (q : Position) : firstTerminator? ((trailersOf columns t).map
        fun moved => (⟨.dedent, [], moved, q⟩ : Token)) = none := firstTerminator?_of_not (by simp)
    rw [Module.lineBreak_eq (parse_wellFormed h), Module.lineBreak_eq (parse_wellFormed h'), hbody,
      hbody', firstTerminator?_append, firstTerminator?_append, hdedents, hdedents]
  rw [printCanonical_eq, printCanonical_eq, hbreak, rowsOf_eq_of_trivia h h' hshape hbodies, hend,
    hend', triviaRows, triviaRows, hsame.2]
  rcases Trivia.lines_lineFeed (unterminated_behindTrailers columns htrivia) with hlines | hlines
  · rw [hlines]
  · rw [hlines, List.map_append, ← List.append_assoc]
    exact congrArg _ (printedLines_blank _).symm

end Sources

/-! ## Main statement -/

/-- A source without a final line terminator is printed as the same source with a line feed behind it,
unless the line feed makes its last comment part of a block. -/
theorem print_lineFeed {source : Text} (hsource : Unterminated source) {m m' : Module}
    (h : parse source = .ok m) (h' : parse (source ++ ['\n']) = .ok m') {style : Style}
    (hmode : style.mode = .canonical) (hcuts : m.cutsTrailer = false) :
    m.print style = m'.print style := by
  have hprint : m.printCanonical style = m'.printCanonical style := by
    obtain ⟨out, columns, p, p', ⟨newline, hkind, htext, hm, hm'⟩ |
      ⟨trivia, htrivia, hsorted, hout, hm, hm'⟩⟩ := tokens_parse_lineFeed hsource h h'
    · exact printCanonical_line h h' hkind htext hm hm' style
    · refine printCanonical_trivia h h' htrivia hm hm' ?_ style
      refine trailersOf_lineFeed hsorted htrivia fun n hn => ?_
      obtain ⟨signature, header, newline, block, hlast, hcolumn⟩ :=
        getLast?_of_attachedClosing (parse_wellFormed h) hm hout hn
      have hend := (tokensOfBody_of_attachedClosing hm).2
      rw [Module.cutsTrailer, hlast, hend] at hcuts
      simpa [hcolumn] using hcuts
  simpa only [Module.print, hmode] using hprint

/-- A source with comments at the end of its blocks and without a final line terminator. -/
def unterminatedSource : Text :=
  "class S(B):\r\n  if a:\r\n    x = [1]  # b\r\n    # c\r\n\r\n  # d\r\n# e".toList

theorem print_lineFeed_unterminatedSource :
    ∃ m m', parse unterminatedSource = .ok m ∧ parse (unterminatedSource ++ ['\n']) = .ok m' ∧
      m.print {} = m'.print {} := by
  have hsource : ((parse unterminatedSource).toOption.any fun m =>
      (parse (unterminatedSource ++ ['\n'])).toOption.isSome && !m.cutsTrailer) = true := by
    decide +kernel
  have hlast : Unterminated unterminatedSource := by
    intro c hc
    have he : unterminatedSource.getLast? = some 'e' := by decide
    obtain rfl : 'e' = c := Option.some.inj (he.symm.trans hc)
    rfl
  cases hm : parse unterminatedSource with
  | error e => simp [hm, Except.toOption] at hsource
  | ok m =>
      cases hm' : parse (unterminatedSource ++ ['\n']) with
      | error e => simp [hm, hm', Except.toOption] at hsource
      | ok m' =>
          simp only [hm, hm', Except.toOption, Option.any_some, Option.isSome_some, Bool.true_and,
            Bool.not_eq_true'] at hsource
          exact ⟨m, m', rfl, rfl, print_lineFeed hlast hm hm' rfl hsource⟩

end SchemaTidy
