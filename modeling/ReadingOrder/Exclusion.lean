import ReadingOrder.Glob
/-!
# Exclusions

Two lists of glob patterns say which directories and which files are left
out of a plan. Both are matched against a path relative to the ordering
root, and a directory that is left out takes its whole subtree with it.

All patterns are compiled up front; the first pattern that does not compile,
directories before files, is reported with its text.
-/

namespace ReadingOrder

/-- **A pattern that does not compile**, with the reason. -/
structure ExclusionError where
  pattern : String
  reason : Glob.PatternError
  deriving DecidableEq, Repr

/-- **Compiled exclusions.** -/
structure Exclusions where
  dirs : List Glob.Pattern := []
  files : List Glob.Pattern := []
  deriving DecidableEq, Repr

namespace Exclusions

/-- Compiles a list of patterns, stopping at the first that does not. -/
def compileAll : List String → Except ExclusionError (List Glob.Pattern)
  | [] => .ok []
  | p :: ps =>
    match Glob.Pattern.compile p with
    | .error e => .error ⟨p, e⟩
    | .ok q => (compileAll ps).map (q :: ·)

/-- **Compiles directory and file exclusions**, directories first. -/
def compile (dirs files : List String) : Except ExclusionError Exclusions := do
  let d ← compileAll dirs
  let f ← compileAll files
  return ⟨d, f⟩

/-- Whether a directory, given relative to the root, is left out. -/
def excludesDir (e : Exclusions) (relative : String) : Bool :=
  e.dirs.any (·.matches relative)

/-- Whether a file, given relative to the root, is left out. -/
def excludesFile (e : Exclusions) (relative : String) : Bool :=
  e.files.any (·.matches relative)

end Exclusions

end ReadingOrder
