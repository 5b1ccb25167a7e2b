import ReadingOrder.Exclusion
import ReadingOrder.Json.Error
/-!
# Errors

Planning fails for one of five causes: a directory cannot be read or the
root is not a directory, the rule file cannot be read, an exclusion pattern
does not compile, some other input or output fails, or a configuration is
not valid JSON of the right shape. Each cause has one wording,
`OrderError.message`, and a name for its kind, `OrderError.kind`.

Failures of the file system are the operating system's: each has a fixed
wording followed by its error number. A path with a NUL byte never reaches
the file system and is refused with a wording of its own, without a number.
-/

namespace ReadingOrder

/-- **A failure reported by the file system.** -/
inductive OsError where
  | notFound
  | notADirectory
  | isADirectory
  | tooManyLinks
  | alreadyExists
  | nameTooLong
  | nulByte
  deriving DecidableEq, Repr

/-- The wording of a file-system failure, with its error number. -/
def OsError.message : OsError → String
  | .notFound => "No such file or directory (os error 2)"
  | .notADirectory => "Not a directory (os error 20)"
  | .isADirectory => "Is a directory (os error 21)"
  | .tooManyLinks => "Too many levels of symbolic links (os error 40)"
  | .alreadyExists => "File exists (os error 17)"
  | .nameTooLong => "File name too long (os error 36)"
  | .nulByte => "file name contained an unexpected NUL byte"

/-- **A failed input or output**: a file-system failure, one met at a path
while walking a directory tree, or one described in words. -/
inductive IoError where
  | os (e : OsError)
  | walk (path : String) (e : OsError)
  | other (text : String)
  deriving DecidableEq, Repr

/-- The wording of a failed input or output. -/
def IoError.message : IoError → String
  | .os e => e.message
  | .walk p e => "IO error for operation on " ++ p ++ ": " ++ e.message
  | .other t => t

/-- The messages of a failed input or output and of the failure under it:
a failure met while walking has the file system's own failure under it. -/
def IoError.causes : IoError → List String
  | .walk p e => [(IoError.walk p e).message, e.message]
  | c => [c.message]

/-- **Why planning failed.** -/
inductive OrderError where
  | fileSystem (path : String) (cause : IoError)
  | config (path : String) (cause : IoError)
  | pattern (e : ExclusionError)
  | io (cause : IoError)
  | json (e : Json.Error)

namespace OrderError

/-- The name of the kind of failure. -/
def kind : OrderError → String
  | .fileSystem .. => "FileSystem"
  | .config .. => "Config"
  | .pattern _ => "Pattern"
  | .io _ => "Io"
  | .json _ => "Json"

/-- **The wording of a failure.** -/
def message : OrderError → String
  | .fileSystem p c => "cannot read directory " ++ p ++ ": " ++ c.message
  | .config p c => "cannot read rule file " ++ p ++ ": " ++ c.message
  | .pattern e => "invalid exclusion pattern '" ++ e.pattern ++ "': " ++ e.reason.message
  | .io c => "I/O error: " ++ c.message
  | .json e => "JSON error: " ++ e.message

/-- The messages of the causes underneath a failure, outermost first: the
failure of the file system under a failed read, the pattern's own complaint
under a refused pattern, the bare failure under the others. -/
def causes : OrderError → List String
  | .fileSystem _ c => c.causes
  | .config _ c => c.causes
  | .pattern e => [e.reason.message]
  | .io c => c.causes
  | .json e => [e.message]

end OrderError

end ReadingOrder
