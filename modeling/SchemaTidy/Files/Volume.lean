import SchemaTidy.Files.Storage

/-!
# Volumes

A file system held in memory: a tree of directories, files and links. Its root is the working
directory, so absolute paths start there as well, and nothing above it can be reached.
-/

namespace SchemaTidy

inductive Volume where
  /-- A file, with its text if its bytes are UTF-8. -/
  | file (content : Option Text)
  | link (target : Text)
  | directory (entries : List (Text × Volume))
deriving Inhabited

namespace Volume

def find? (entries : List (Text × Volume)) (name : Text) : Option Volume :=
  (entries.find? (·.1 == name)).map Prod.snd

/-- The node at a location, which is a list of names from the root. Links are not followed. -/
def at? : List Text → Volume → Option Volume
  | [], v => some v
  | name :: rest, .directory entries => (find? entries name).bind (at? rest)
  | _ :: _, _ => none

def setAt (new : Volume) : List Text → Volume → Volume
  | [], _ => new
  | name :: rest, .directory entries =>
      .directory (entries.map fun (n, v) => if n == name then (n, setAt new rest v) else (n, v))
  | _ :: _, v => v

/-- Puts a node at a location, with the directories that lead to it. -/
def place (new : Volume) : List Text → Volume → Volume
  | [], _ => new
  | name :: rest, v =>
      let entries := match v with
        | .directory entries => entries
        | _ => []
      match find? entries name with
      | some inner =>
          .directory (entries.map fun (n, w) => if n == name then (n, place new rest inner) else (n, w))
      | none => .directory (entries ++ [(name, place new rest (.directory []))])

/-- Where a path that is read in the directory at `here` starts. -/
def start (here : List Text) (path : Text) : List Text :=
  if path.head? == some '/' then [] else here

/-- Follows the pieces of a path from the directory at `here`, through at most `links` links. -/
def follow (root : Volume) (links : Nat) (here : List Text) :
    List Text → Except FileError (List Text)
  | [] => .ok here
  | piece :: rest =>
      match root.at? here with
      | some (.directory entries) =>
          if piece.isEmpty || piece == ['.'] then follow root links here rest
          else if piece == ['.', '.'] then
            if here.isEmpty then .error .notFound else follow root links here.dropLast rest
          else
            match find? entries piece with
            | none => .error .notFound
            | some (.link target) =>
                match links with
                | 0 => .error .tooManyLinks
                | links + 1 =>
                    if target.isEmpty then .error .notFound
                    else follow root links (start here target) (PathText.pieces target ++ rest)
            | some _ => follow root links (here ++ [piece]) rest
      | _ => .error .notDirectory
termination_by ps => (links, ps.length)

/-- The number of links that one path may lead through. -/
def maxLinks : Nat := 40

def locate (root : Volume) (path : Text) : Except FileError (List Text) :=
  if path.isEmpty then .error .notFound else root.follow maxLinks [] (PathText.pieces path)

/-- Whether the link at a location leads to a directory. -/
def leadsToDirectory (root : Volume) (location : List Text) : Bool :=
  match root.follow maxLinks [] location with
  | .ok target =>
      match root.at? target with
      | some (.directory _) => true
      | _ => false
  | .error _ => false

mutual

def toEntry (root : Volume) (location : List Text) : Volume → Entry
  | .file _ => .file
  | .link _ => if root.leadsToDirectory location then .directoryLink else .file
  | .directory entries => .directory (toEntries root location entries)

/-- The entries of a directory as discovery sees them. -/
def toEntries (root : Volume) (location : List Text) : List (Text × Volume) → List (Text × Entry)
  | [] => []
  | (name, v) :: rest =>
      (name, toEntry root (location ++ [name]) v) :: toEntries root location rest

end

def lookup (root : Volume) (path : Text) : Option Entry :=
  match root.locate path with
  | .ok location => (root.at? location).map (toEntry root location)
  | .error _ => none

def read (root : Volume) (path : Text) : Except FileError Text :=
  match root.locate path with
  | .error e => .error e
  | .ok location =>
      match root.at? location with
      | some (.file (some text)) => .ok text
      | some (.file none) => .error .invalidText
      | some (.directory _) => .error .isDirectory
      | _ => .error .notFound

/-- Replaces the text of the file that a path leads to. -/
def write (root : Volume) (path text : Text) : Except FileError Volume :=
  match root.locate path with
  | .error e => .error e
  | .ok location =>
      match root.at? location with
      | some (.file _) => .ok (setAt (.file (some text)) location root)
      | some (.directory _) => .error .isDirectory
      | _ => .error .notFound

/-- A volume as the state of a computation. -/
def storage : Storage (StateM Volume) where
  lookup path := do return (← get).lookup path
  read path := do return (← get).read path
  write path text := do
    match (← get).write path text with
    | .ok root => set root; return .ok ()
    | .error e => return .error e

end Volume

end SchemaTidy
