import SchemaTidy.Print.Quote
import SchemaTidy.Text.Width

/-!
# Runs of string literals

Adjacent string literals are printed as one unit. Plain ones are merged into one body, which can be
cut behind any blank.
-/

namespace SchemaTidy

/-- Whether a body holds a backslash directly before a digit. -/
def hasDigitEscape : Text → Bool
  | c :: d :: cs => (c == '\\' && d.isDigit) || hasDigitEscape (d :: cs)
  | _ => false

def occursIn (pattern : Text) : Text → Bool
  | [] => pattern.isEmpty
  | c :: cs => pattern.isPrefixOf (c :: cs) || occursIn pattern cs

/-- Adjacent literals in their own spellings and, where possible, as one literal. -/
structure StringRun where
  pieces : List Text
  merged : Option QuotedText
deriving DecidableEq, Repr

/-- The marks of a literal as the style spells them. -/
def QuotedText.styledMarks (style : Style) (q : QuotedText) : Text :=
  if style.normalizeQuotes then normalizeMarks q.marks else q.marks

/-- Whether a literal can be joined with others that have the given marks. Escapes that a longer
text could extend stand in the way. -/
def QuotedText.joins (style : Style) (marks : Text) (q : QuotedText) : Bool :=
  q.styledMarks style == marks && !q.isTriple && !occursIn "\\N\x7b".toList q.body &&
    !hasDigitEscape q.body

/-- The body of a literal re-escaped for double quotes. -/
def QuotedText.doubleBody? (marks : Text) (q : QuotedText) : Option Text :=
  if q.quote == ['"'] then
    some (if isRaw marks then q.body else flipQuotes true ['\''] q.body)
  else (requote? marks q.quote ['"'] q.body).map Prod.snd

def mergeLiterals? (style : Style) (texts : List Text) : Option QuotedText :=
  if !style.wrapStrings then none
  else
    match texts.mapM QuotedText.ofText? with
    | none | some [] => none
    | some (first :: others) =>
        let literals := first :: others
        let marks := first.styledMarks style
        if !literals.all (·.joins style marks) || isFormatted marks then none
        else if style.normalizeQuotes then
          match literals.mapM (·.doubleBody? marks) with
          | none => none
          | some bodies =>
              let chosen := chooseQuotes ⟨marks, ['"'], bodies.flatten⟩ style.preferFewerEscapes
              (QuotedText.ofText? chosen.text).map fun q => { q with marks }
        else if literals.all (·.quote == first.quote) then
          some ⟨marks, first.quote, literals.flatMap (·.body)⟩
        else none

namespace StringRun

def ofTexts (style : Style) (texts : List Text) : StringRun :=
  ⟨texts.map (normalizeLiteral style), mergeLiterals? style texts⟩

def flat (r : StringRun) : Text :=
  match r.merged with
  | some q => q.text
  | none => List.intercalate [' '] r.pieces

/-- Fills lines with words: a word goes to the next line when the line would be wider than
`available`, the width `overhead` of marks and quotes included. -/
def fill (overhead available : Nat) (line : Text) : List Text → List Text
  | [] => [line]
  | word :: words =>
      if !line.isEmpty && available < overhead + Text.width line + Text.width word then
        line :: fill overhead available word words
      else fill overhead available (line ++ word) words

/-- One literal for each line, at most `available` columns wide where the words allow it. -/
def lines (r : StringRun) (available : Nat) : List Text :=
  match r.merged with
  | none => r.pieces
  | some q =>
      (fill (Text.width q.marks + 2 * q.quote.length) available []
        (Text.splitAfter (· == ' ') q.body)).map fun body => ({ q with body } : QuotedText).text

end StringRun

end SchemaTidy
