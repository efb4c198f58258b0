import SchemaTidy.Text.Basic

/-!
# Coloured diffs

Added and removed lines, file names and hunk headers of a diff in the colours of a terminal.
-/

namespace SchemaTidy

inductive ColorChoice where
  /-- When they are shown on a terminal. -/
  | auto
  | always
  | never
deriving DecidableEq, Repr

namespace ColorChoice

def label : ColorChoice → String
  | auto => "auto"
  | always => "always"
  | never => "never"

def ofLabel? (label : String) : Option ColorChoice :=
  [auto, always, never].find? (·.label == label)

def enabled (terminal : Bool) : ColorChoice → Bool
  | auto => terminal
  | always => true
  | never => false

end ColorChoice

def control (parameters : String) : Text := '\x1b' :: '[' :: parameters.toList ++ ['m']

/-- The sequences in front of a line of a diff, none for a plain line. -/
def lineColor? (line : Text) : Option Text :=
  if "+++".toList.isPrefixOf line || "---".toList.isPrefixOf line then
    some (control "39" ++ control "1")
  else
    match line with
    | '+' :: _ => some (control "38;5;10" ++ control "0")
    | '-' :: _ => some (control "38;5;9" ++ control "0")
    | '@' :: '@' :: _ => some (control "38;5;14" ++ control "0")
    | _ => none

/-- A line of a diff with its terminator, in colour. -/
def colorLine (line : Text) : Text :=
  match lineColor? line with
  | none => line
  | some sequence =>
      let body := line.takeWhile (· != '\n')
      sequence ++ body ++ control "0" ++ control "0" ++ line.drop body.length

def showDiff (color : Bool) (diff : Text) : Text :=
  if color then (Text.splitAfter (· == '\n') diff).flatMap colorLine else diff

end SchemaTidy
