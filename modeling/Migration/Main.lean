import Migration.Host.CommandLine

/-!
# The program

Reads the files that the command names, runs the command, writes back what it changed and prints the
response.
-/

namespace Migration

/-- The cause of a failure to read a file, in this library's terms. -/
def FileError.ofSystem : IO.Error → FileError
  | .noFileOrDirectory .. => .notFound
  | .inappropriateType _ 21 _ => .isADirectory
  | .inappropriateType .. => .notADirectory
  | .invalidArgument _ _ "name too long" => .nameTooLong
  | e => .other (toString e)

/-- The text of a file. -/
def readFileText (path : String) : IO (Except FileError String) := do
  if path.toList.contains '\x00' then return .error .nulInPath
  try
    let bytes ← IO.FS.readBinFile path
    match String.fromUTF8? bytes with
    | some text => return .ok text
    | none => return .error .notText
  catch e => return .error (.ofSystem e)

end Migration

open Migration

/-- Run the program with its arguments. -/
def main (args : List String) : IO UInt32 := do
  let paths := match CommandLine.parse args with
    | .ok command => CommandLine.pathsOf command
    | .error _ => []
  let texts ← paths.mapM fun path => do return (path, ← readFileText path)
  let read : FileReader := fun path =>
    ((texts.find? (·.1 == path)).map (·.2)).getD (.error .notFound)
  match CommandLine.run read args with
  | none =>
    IO.eprintln "a change has no end"
    return 134
  | some result =>
    for (path, text) in result.writes do
      IO.FS.writeFile path text
    IO.print result.stdout
    return result.exit.toUInt32
