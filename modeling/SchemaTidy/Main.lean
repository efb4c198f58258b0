import SchemaTidy.CommandLine.Program

/-!
# Command line

Runs the program on the files of the system.
-/

namespace SchemaTidy

def FileError.ofSystem : IO.Error → FileError
  | .noFileOrDirectory _ _ _ => .notFound
  | .inappropriateType _ code message =>
      if code == 20 then .notDirectory
      else if code == 21 then .isDirectory
      else .other message
  | e => .other (toString e)

namespace Disk

partial def entryOf (e : IO.FS.DirEntry) : IO Entry := do
  match (← e.path.symlinkMetadata).type with
  | .dir => return .directory (← (← e.path.readDir).toList.mapM fun inner => do
      return (inner.fileName.toList, ← entryOf inner))
  | .symlink => return if ← e.path.isDir then .directoryLink else .file
  | _ => return .file

def lookup (path : Text) : IO (Option Entry) := do
  try
    let real ← IO.FS.realPath (String.ofList path)
    if ← real.isDir then
      return some (.directory (← (← real.readDir).toList.mapM fun e => do
        return (e.fileName.toList, ← entryOf e)))
    return some .file
  catch _ => return none

def read (path : Text) : IO (Except FileError Text) := do
  try
    match String.fromUTF8? (← IO.FS.readBinFile (String.ofList path)) with
    | some text => return .ok text.toList
    | none => return .error .invalidText
  catch e => return .error (.ofSystem e)

def write (path text : Text) : IO (Except FileError Unit) := do
  try
    IO.FS.writeFile (String.ofList path) (String.ofList text)
    return .ok ()
  catch e => return .error (.ofSystem e)

def storage : Storage IO := ⟨lookup, read, write⟩

end Disk

end SchemaTidy

open SchemaTidy in
/-- Runs the program with the arguments of the command line. -/
def main (arguments : List String) : IO UInt32 := do
  match CommandLine.parse (arguments.map String.toList) with
  | .error e =>
      IO.eprintln ("error: " ++ e.message)
      return 2
  | .ok command =>
      let terminal := (← (← IO.getStdout).isTty) && (← IO.getEnv "NO_COLOR").isNone
      let output ← CommandLine.execute Disk.storage terminal command
      IO.print (String.ofList output.stdout)
      IO.eprint (String.ofList output.stderr)
      return output.exitCode.toUInt32
