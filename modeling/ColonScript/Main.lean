import ColonScript.CommandLine
import ColonScript.Folder

/-!
# The executable

Reads the files that the command line names and prints the report.
-/

namespace ColonScript

/-- Reads the text at a path of the file system. -/
def readPath (path : String) : IO (Except String String) := do
  try
    let bytes ← IO.FS.readBinFile path
    return (Folder.decode bytes).mapError ReadError.message
  catch
    | .noFileOrDirectory .. => return .error ReadError.notFound.message
    | .inappropriateType .. => return .error ReadError.isADirectory.message
    | e => return .error (toString e)

/-- Follows a command line and gives the exit code. -/
def follow (argv : List String) : IO UInt32 := do
  let files := match CommandLine.Options.read? {} (argv.drop 1) with
    | some o => o.files
    | none => []
  let texts ← files.mapM fun path => return (path, ← readPath path)
  let read (path : String) : Except String String :=
    (texts.lookup path).getD (.error ReadError.notFound.message)
  let report := CommandLine.run read argv
  (← IO.getStdout).putStr report.stdout
  (← IO.getStderr).putStr report.stderr
  return UInt32.ofNat report.exit

end ColonScript

/-- Follows the command line. -/
def main (argv : List String) : IO UInt32 :=
  ColonScript.follow argv
