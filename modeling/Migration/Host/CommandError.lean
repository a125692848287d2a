import Migration.ConfigurationError
import Migration.Imports.Reconcile
import Migration.Json.Basic
import Migration.ParseError

/-!
# Why a command fails

A command fails as a whole when its arguments, its manifest or its list of types cannot be used, and
for a single file when that file cannot be read or changed. Each cause has a code, which is also the
exit code of the program; the greater the code, the more severe the cause.
-/

namespace Migration

/-- Why a file cannot be read or written. -/
inductive FileError where
  | notFound
  | notADirectory
  | isADirectory
  /-- The path, or a segment of it, has too many bytes. -/
  | nameTooLong
  | nulInPath
  | notText
  /-- Any other cause, in the words of the operating system. -/
  | other (message : String)
deriving DecidableEq, Repr

/-- The wording of each cause. -/
def FileError.message : FileError → String
  | .notFound => "No such file or directory (os error 2)"
  | .notADirectory => "Not a directory (os error 20)"
  | .isADirectory => "Is a directory (os error 21)"
  | .nameTooLong => "File name too long (os error 36)"
  | .nulInPath => "file name contained an unexpected NUL byte"
  | .notText => "stream did not contain valid UTF-8"
  | .other message => message

/-- Why a command fails, as a whole or for one file. -/
inductive CommandError where
  | noInputFiles
  /-- The file is no list of names of types. -/
  | notATypeList (path : String)
  | configuration (cause : ConfigurationError)
  | parse (path : String) (cause : ParseError)
  /-- A recipe could not find an import that it needs for the file. -/
  | resolution (path recipe : String) (cause : ResolutionError)
  | file (path : String) (cause : FileError)
deriving DecidableEq, Repr

namespace CommandError

/-- The wording of each cause. -/
def message : CommandError → String
  | .noInputFiles => "invalid arguments: no input files"
  | .notATypeList path => "invalid arguments: " ++ path ++ " is not a JSON list of type names:"
  | .configuration cause => "invalid configuration: " ++ cause.message
  | .parse path cause => "cannot parse " ++ path ++ ": " ++ cause.message
  | .resolution path recipe cause => path ++ ": " ++ recipe ++ ": " ++ cause.message
  | .file path cause => path ++ ": " ++ cause.message

/-- The code of each cause. -/
def code : CommandError → Nat
  | .noInputFiles => 2
  | .notATypeList _ => 2
  | .configuration _ => 2
  | .parse _ _ => 2
  | .resolution _ _ _ => 3
  | .file _ _ => 4

def toJson (e : CommandError) : Json :=
  .obj [("code", .nat e.code), ("message", .str e.message)]

end CommandError

end Migration
