/-!
# Files

A folder holds files under their names.  Reading a path gives the text of a file, or the reason
why there is none.
-/

namespace ColonScript

/-- Why a path cannot be read as a text. -/
inductive ReadError where
  /-- There is nothing at this path. -/
  | notFound
  /-- The path goes on after the name of a file. -/
  | notADirectory
  /-- The path leads to a folder. -/
  | isADirectory
  /-- The bytes of the file are no UTF-8. -/
  | notText
deriving DecidableEq, Repr

/-- The wording of an error. -/
def ReadError.message : ReadError → String
  | notFound => "No such file or directory (os error 2)"
  | notADirectory => "Not a directory (os error 20)"
  | isADirectory => "Is a directory (os error 21)"
  | notText => "stream did not contain valid UTF-8"

/-- Files by their names. -/
structure Folder where
  files : List (String × ByteArray) := []

namespace Folder

/-- The text of some bytes in UTF-8. -/
def decode (bytes : ByteArray) : Except ReadError String :=
  match String.fromUTF8? bytes with
  | some text => .ok text
  | none => .error .notText

/-- The steps of a path, without those that stay in the same folder at its front. -/
def steps : List String → List String
  | "." :: rest => steps rest
  | "" :: rest => steps rest
  | path => path

/-- Reads the text at a path. -/
def read (folder : Folder) (path : String) : Except ReadError String :=
  if path.isEmpty then .error .notFound
  else match steps (path.splitOn "/") with
    | [] => .error .isADirectory
    | name :: more =>
      match folder.files.lookup name with
      | none => .error .notFound
      | some bytes => if more.isEmpty then decode bytes else .error .notADirectory

end Folder

end ColonScript
