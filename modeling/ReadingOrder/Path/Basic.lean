/-!
# Paths

A path is kept as the text it was written as, and what it means is its list of
components: an optional root, an optional leading `.`, and then names and `..`
steps. Empty pieces between slashes and inner `.` pieces carry no meaning and
are not components, so `/r/./a/` and `/r/a` name the same place and compare
equal (`Path.same`), while `a/../b` and `b` do not: nothing here looks at the
file system, and a `..` after a name may cross a symbolic link.

`Path.normalize` is lexical clean-up: `.` disappears, `..` cancels the name
before it, is swallowed by the root, and is kept at the front of a relative
path. `Path.depthBelow` counts the names of a path below a root, and
`Path.tag` is the name a directory is shown by.

A file name splits at its last dot into a stem and an extension, unless that
dot is the first character: `.bashrc` has no extension, `a.` has the empty one.
-/

namespace ReadingOrder

/-- **A component of a path**: the root, a leading `.`, a `..` step, or a
name, which is any non-empty text without a slash other than `.` and `..`. -/
inductive Component where
  | root
  | current
  | up
  | name (text : String)
  deriving DecidableEq, Repr, Inhabited

namespace Component

/-- The text a component is written as. -/
def text : Component → String
  | root => "/"
  | current => "."
  | up => ".."
  | name s => s

end Component

namespace Path

/-- Cuts a list of characters at every slash; `n` slashes give `n + 1`
pieces, some of them empty. -/
def splitSlash : List Char → List (List Char)
  | [] => [[]]
  | c :: cs =>
    if c = '/' then [] :: splitSlash cs
    else
      match splitSlash cs with
      | [] => [[c]]
      | p :: ps => (c :: p) :: ps

/-- The meaning of one piece between slashes: nothing for an empty piece or
`.`, a step up for `..`, a name otherwise. -/
def ofPiece : List Char → List Component
  | [] => []
  | ['.'] => []
  | ['.', '.'] => [.up]
  | p => [.name (String.ofList p)]

/-- The components of the pieces that follow a root or a leading `.`. -/
def ofPieces (ps : List (List Char)) : List Component :=
  ps.flatMap ofPiece

/-- The components of a path given as characters. A leading slash is the
root; otherwise a first piece `.` is kept as `current`, the only place where
a `.` is a component. -/
def componentsOfList : List Char → List Component
  | '/' :: cs => .root :: ofPieces (splitSlash cs)
  | cs =>
    match splitSlash cs with
    | ['.'] :: rest => .current :: ofPieces rest
    | ps => ofPieces ps

/-- **The components of a path.** -/
def components (s : String) : List Component :=
  componentsOfList s.toList

/-- Two paths are the same when they have the same components. -/
def same (a b : String) : Bool :=
  components a == components b

/-- Writes components back as a path: the root is a leading slash and the
other components are joined by slashes. -/
def render : List Component → String
  | .root :: rest => "/" ++ "/".intercalate (rest.map Component.text)
  | cs => "/".intercalate (cs.map Component.text)

/-- Whether a path starts at the root. -/
def isAbsolute (s : String) : Bool :=
  s.toList.head? == some '/'

/-- Appends `p` to `base` as written: an absolute `p` replaces `base`, and a
slash is put between the two unless `base` is empty or already ends in one. -/
def join (base p : String) : String :=
  if isAbsolute p then p
  else if base.isEmpty || base.toList.getLast? == some '/' then base ++ p
  else base ++ "/" ++ p

/-- One step of lexical clean-up over a stack whose top is its head: `.` is
dropped; `..` removes a name on top, is swallowed by the root, and is kept
otherwise; anything else is pushed. -/
def push (out : List Component) : Component → List Component
  | .current => out
  | .up =>
    match out with
    | .root :: _ => out
    | .name _ :: rest => rest
    | _ => .up :: out
  | c => c :: out

/-- The clean-up of a component list. -/
def clean (cs : List Component) : List Component :=
  (cs.foldl push []).reverse

/-- **Lexical normalisation.** A path whose clean-up is empty is `.`. -/
def normalize (s : String) : String :=
  match clean (components s) with
  | [] => "."
  | cs => render cs

/-- Drops `pre` from the front of `cs`, if `cs` starts with it. -/
def dropPrefix? : List Component → List Component → Option (List Component)
  | [], cs => some cs
  | _ :: _, [] => none
  | p :: ps, c :: cs => if p = c then dropPrefix? ps cs else none

/-- The number of names in a list that holds only names and `.`, and nothing
for any other list. -/
def countNames : List Component → Option Nat
  | [] => some 0
  | .name _ :: rest => (countNames rest).map (· + 1)
  | .current :: rest => countNames rest
  | _ :: _ => none

/-- **The depth of `path` below `root`**: the number of names that `path` has
after the components of `root`. Below the root `.`, every relative path
counts whole. A path outside the root, or with a `..` or a root after it, has
no depth. -/
def depthBelow (root path : String) : Option Nat :=
  let rc := components root
  let pc := components path
  let rest :=
    if rc = [.current] ∧ pc.head? ≠ some .root then some pc else dropPrefix? rc pc
  rest.bind countNames

/-- **A path relative to a root**: the components after the root's, joined
by slashes; a path not below the root stays as it is. -/
def relativeTo (root path : String) : String :=
  match dropPrefix? (components root) (components path) with
  | some rest => "/".intercalate (rest.map Component.text)
  | none => path

/-- The last component of a path if it is a name. -/
def fileName? (s : String) : Option String :=
  match (components s).getLast? with
  | some (.name n) => some n
  | _ => none

/-- **The name a directory is shown by**: its last name, or the whole path
when it does not end in a name (`/`, `..`, the empty path). -/
def tag (s : String) : String :=
  (fileName? s).getD s

/-- The components of the directory holding a path: all but the last, when the
last is a name, `.` or `..`. The root and the empty path have none. -/
def parentOf? (cs : List Component) : Option (List Component) :=
  match cs.getLast? with
  | none => none
  | some .root => none
  | some _ => some cs.dropLast

/-- The directory holding a path, written back as a path. -/
def parent? (s : String) : Option String :=
  (parentOf? (components s)).map render

/-- Splits a file name at its last dot into stem and extension. A name
without a dot, or whose only dot is its first character, is all stem. -/
def splitName (n : String) : String × Option String :=
  let r := n.toList.reverse
  match r.dropWhile (· ≠ '.') with
  | [] => (n, none)
  | _ :: before =>
    if before = [] then (n, none)
    else (String.ofList before.reverse, some (String.ofList (r.takeWhile (· ≠ '.')).reverse))

/-- The file name of a path without its last extension. -/
def stem? (s : String) : Option String :=
  (fileName? s).map fun n => (splitName n).1

/-- The last extension of a path's file name, without its dot. -/
def extension? (s : String) : Option String :=
  (fileName? s).bind fun n => (splitName n).2

/-- Names are ordered character by character, which for UTF-8 text is the
order of their bytes. -/
def nameLe (a b : String) : Bool :=
  decide (a ≤ b)

example : normalize "" = "." ∧ normalize "/.." = "/" ∧ normalize "a/../.." = ".." ∧
    normalize "./src/./lib" = "src/lib" ∧ normalize "/tmp/a//b/" = "/tmp/a/b" := by
  decide

example : tag "/" = "/" ∧ tag "a/.." = "a/.." ∧ tag "a/." = "a" ∧ tag "/work/src" = "src" := by
  decide

example : depthBelow "." "src/lib" = some 2 ∧ depthBelow "." "../src" = none ∧
    depthBelow "/w/r" "/w/r" = some 0 ∧ depthBelow "/w/r" "/w/other" = none := by
  decide

example : splitName ".hidden.h" = (".hidden", some "h") ∧ splitName "a." = ("a", some "") ∧
    splitName ".bashrc" = (".bashrc", none) ∧ splitName "calc.test.cpp" = ("calc.test", some "cpp") := by
  decide

end Path

end ReadingOrder
