import ReadingOrder.Path.Basic
/-!
# Sequences

A sequence is the print order broken down by directory: for each directory,
in the order the directories are printed, the files printed from it. The
flat print order is the concatenation of the files.

Two look-ups by directory path are offered. `filesIn` takes the first entry
for a directory and `lastFilesFor` the last one; the tree rendering uses the
last, and on a sequence built by planning, where each directory has exactly
one entry, the two agree.
-/

namespace ReadingOrder

/-- **The files printed from one directory**, in print order. -/
structure DirectoryFiles where
  directory : String
  depth : Nat
  files : List String
  deriving DecidableEq, Repr, Inhabited

/-- **A print order, by directory.** -/
structure Sequence where
  directories : List DirectoryFiles
  deriving DecidableEq, Repr, Inhabited

namespace Sequence

/-- The flat print order. -/
def paths (s : Sequence) : List String :=
  s.directories.flatMap (·.files)

/-- The number of files printed. -/
def length (s : Sequence) : Nat :=
  (s.directories.map (·.files.length)).foldr (· + ·) 0

/-- Whether nothing is printed. -/
def isEmpty (s : Sequence) : Bool :=
  s.length == 0

/-- The files of the first entry for a directory, none if it has no entry. -/
def filesIn (s : Sequence) (dir : String) : List String :=
  ((s.directories.find? fun d => Path.same d.directory dir).map (·.files)).getD []

/-- The files of the last entry for a directory, none if it has no entry. -/
def lastFilesFor (s : Sequence) (dir : String) : List String :=
  filesIn ⟨s.directories.reverse⟩ dir

end Sequence

end ReadingOrder
