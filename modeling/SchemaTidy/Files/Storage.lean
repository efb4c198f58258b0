import SchemaTidy.Files.Discovery

/-!
# Storage

The operations that a run needs of a file system. The run itself is written once, for every monad
with such operations.
-/

namespace SchemaTidy

inductive FileError where
  | notFound
  | notDirectory
  | isDirectory
  | tooManyLinks
  /-- The bytes of the file are no UTF-8 text. -/
  | invalidText
  /-- Any other condition, in the words of the system. -/
  | other (message : String)
deriving DecidableEq, Repr

def FileError.message : FileError → String
  | notFound => "No such file or directory (os error 2)"
  | notDirectory => "Not a directory (os error 20)"
  | isDirectory => "Is a directory (os error 21)"
  | tooManyLinks => "Too many levels of symbolic links (os error 40)"
  | invalidText => "stream did not contain valid UTF-8"
  | other message => message

/-- Access to files by path. -/
structure Storage (m : Type → Type) where
  /-- What a path leads to, links followed, or nothing. -/
  lookup : Text → m (Option Entry)
  /-- The text of a file. -/
  read : Text → m (Except FileError Text)
  /-- Replaces the text of a file. -/
  write : Text → Text → m (Except FileError Unit)

end SchemaTidy
