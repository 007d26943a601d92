import FieldPath.CommandLine.Execution
import FieldPath.Home

/-!
# The program

Reads what a command needs, carries it out, and prints the response.
-/

namespace FieldPath

namespace CommandLine

/-- The content of an open file. A directory can be opened, but not read. -/
def readContent (handle : IO.FS.Handle) : IO Entry := do
  try
    let bytes ← handle.readBinToEnd
    return .file bytes.toList
  catch _ => return .directory

def readEntry (name : String) : IO Entry := do
  try readContent (← IO.FS.Handle.mk name .read)
  catch _ => return .missing

def readSettings : IO Settings := do
  match ← IO.getEnv "HOME" with
  | none => return .default
  | some home =>
      match ← readEntry (home ++ "/.config/fieldwalk/config.toml") with
      | .file content => return (Home.file content).load
      | _ => return .default

/-- What is left on standard input, after what has been read already. -/
partial def readInput (stdin : IO.FS.Stream) (read : ByteArray) : IO Bytes := do
  let chunk ← stdin.read 65536
  if chunk.isEmpty then return read.toList
  else readInput stdin (read ++ chunk)

def readSources (i : Invocation) : IO Sources := do
  let entries ← i.files.mapM fun name => return (name, ← readEntry name)
  let input ← if i.readsInput then readInput (← IO.getStdin) .empty else pure []
  return ⟨fun name => (entries.lookup name).getD .missing, input, ← readSettings⟩

end CommandLine

end FieldPath

open FieldPath.CommandLine in
def main (args : List String) : IO UInt32 := do
  let response ← match read args with
    | .ok invocation => pure (invocation.run (← readSources invocation))
    | .error refusal => pure refusal.response
  IO.print (unlines response.output)
  IO.eprint (unlines response.errors)
  return .ofNat response.status.code
