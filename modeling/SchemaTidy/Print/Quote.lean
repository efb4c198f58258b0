import SchemaTidy.Config.Basic
import SchemaTidy.Literal

/-!
# Quotes of string literals

Chooses marks and quotes of a literal without changing its value: double quotes unless they need more
backslashes than the literal has, never in the expressions of a formatted string, and never by
changing what a raw string means.
-/

namespace SchemaTidy

/-- A string literal cut into its marks, its quotes and its body. -/
structure QuotedText where
  marks : Text
  quote : Text
  body : Text
deriving DecidableEq, Repr

namespace QuotedText

/-- Cuts a literal; there is no cut if the literal is not closed by its own quotes. -/
def ofText? (text : Text) : Option QuotedText :=
  let quoted := text.dropWhile (!isQuote ·)
  let quote := quoted.take (if startsTriple quoted then 3 else 1)
  if quoted.isEmpty || quoted.length < 2 * quote.length || !quote.isSuffixOf quoted then none
  else
    some ⟨text.takeWhile (!isQuote ·), quote,
      (quoted.drop quote.length).take (quoted.length - 2 * quote.length)⟩

def text (q : QuotedText) : Text := q.marks ++ q.quote ++ q.body ++ q.quote

def isTriple (q : QuotedText) : Bool := q.quote.length == 3

end QuotedText

/-- The marks of a literal in their usual spelling: no `u`, and `f` and `b` in lower case. -/
def normalizeMarks (marks : Text) : Text :=
  (marks.filter fun c => c != 'u' && c != 'U').map fun c =>
    if c == 'F' then 'f' else if c == 'B' then 'b' else c

def isRaw (marks : Text) : Bool := marks.contains 'r' || marks.contains 'R'

def isFormatted (marks : Text) : Bool := marks.contains 'f' || marks.contains 'F'

def backslashes (t : Text) : Nat := Text.lengthWhile (· == '\\') t

/-- Whether `t` is a run of backslashes of the wanted parity and then `quote`. -/
def quoteFollows (escaped : Bool) (quote t : Text) : Bool :=
  (backslashes t % 2 == 1) == escaped && quote.isPrefixOf (t.drop (backslashes t))

/-- The run of backslashes at the start of `t` with one less, if `escaped`, or one more, and then
`quote`. -/
def flipEscape (escaped : Bool) (quote t : Text) : Text :=
  List.replicate (if escaped then backslashes t - 1 else backslashes t + 1) '\\' ++ quote

/-- Takes a backslash from quotes that are escaped, or gives one to quotes that are not. A quote
counts only behind a character that is no backslash, or at the start of the text, and that character
cannot be part of the quote before, so one pass can miss a quote that follows another. -/
def flipQuotesFrom (escaped : Bool) (quote : Text) (atStart : Bool) : Text → Text
  | [] => []
  | c :: cs =>
      if c != '\\' && quoteFollows escaped quote cs then
        c :: flipEscape escaped quote cs ++
          flipQuotesFrom escaped quote false (cs.drop (backslashes cs + quote.length))
      else if atStart && quoteFollows escaped quote (c :: cs) then
        flipEscape escaped quote (c :: cs) ++
          flipQuotesFrom escaped quote false
            (cs.drop (backslashes (c :: cs) + quote.length - 1))
      else c :: flipQuotesFrom escaped quote false cs
termination_by t => t.length
decreasing_by all_goals simp only [List.length_cons, List.length_drop]; omega

/-- Two passes, of which the second finds the quotes that the first has missed. -/
def flipQuotes (escaped : Bool) (quote t : Text) : Text :=
  flipQuotesFrom escaped quote true (flipQuotesFrom escaped quote true t)

/-- Number of occurrences of a text that do not overlap, counted from the left. -/
def occurrences (pattern : Text) : Text → Nat
  | [] => 0
  | c :: cs =>
      if pattern.isPrefixOf (c :: cs) then occurrences pattern (cs.drop (pattern.length - 1)) + 1
      else occurrences pattern cs
termination_by t => t.length
decreasing_by all_goals simp only [List.length_cons, List.length_drop]; omega

/-- Re-escapes a body written between quotes `old` for quotes `new`. Gives the body without
redundant escapes and the converted body. A raw body can only be taken over as it is, and only if
each of its new quotes is escaped. -/
def requote? (marks old new body : Text) : Option (Text × Text) :=
  if isRaw marks then
    if occurrences new body == occurrences ('\\' :: new) body then some (body, body) else none
  else
    let cleaned := flipQuotes true new body
    some (cleaned, flipQuotes false new (flipQuotes true old cleaned))

/-- Whether a replacement field of a formatted body holds a backslash. `depth` is the number of open
braces. -/
def fieldHasBackslash : Nat → Text → Bool
  | _, [] => false
  | 0, '{' :: '{' :: cs => fieldHasBackslash 0 cs
  | 0, c :: cs => fieldHasBackslash (if c == '{' then 1 else 0) cs
  | depth + 1, c :: cs =>
      c == '\\' ||
        fieldHasBackslash (if c == '{' then depth + 2 else if c == '}' then depth else depth + 1) cs

def otherQuote (quote : Text) : Text :=
  if quote == "'''".toList then "\"\"\"".toList
  else if quote == ['"'] then ['\'']
  else ['"']

/-- Whether the quotes are replaced, given the number of backslashes before and after. -/
def prefersOther (preferFewer : Bool) (quote : Text) (before after : Nat) : Bool :=
  if preferFewer then after < before || (after == before && quote != ['"']) else quote != ['"']

def chooseQuotes (q : QuotedText) (preferFewer : Bool) : QuotedText :=
  if q.quote == "\"\"\"".toList then q
  else
    let new := otherQuote q.quote
    match requote? q.marks q.quote new q.body with
    | none => q
    | some (cleaned, converted) =>
        if isFormatted q.marks && fieldHasBackslash 0 converted then { q with body := cleaned }
        else
          let converted :=
            if new == "\"\"\"".toList && converted.getLast? == some '"' then
              converted.dropLast ++ ['\\', '"']
            else converted
          if prefersOther preferFewer q.quote (cleaned.count '\\') (converted.count '\\') then
            ⟨q.marks, new, converted⟩
          else { q with body := cleaned }

def normalizeLiteral (style : Style) (text : Text) : Text :=
  if style.normalizeQuotes then
    match QuotedText.ofText? text with
    | some q =>
        (chooseQuotes { q with marks := normalizeMarks q.marks } style.preferFewerEscapes).text
    | none => text
  else text

end SchemaTidy
