import ReadingOrder.Path.Basic
/-!
# Volumes

A volume is a file system as data: every place below the root is a list of
names from the root, and holds a regular file with its text, a directory,
or a symbolic link with the text of its target. The root is always a
directory. A volume also has a current directory, from which relative paths
start.

Nothing here follows links; `Volume.Resolve` reads paths the way the
operating system does.
-/

namespace ReadingOrder

/-- **What a place holds.** -/
inductive Node where
  | file (content : String)
  | dir
  | link (target : String)
  deriving DecidableEq, Repr, Inhabited

/-- A place in a volume: the names leading to it from the root. -/
abbrev Place := List String

/-- **A file system as data.** -/
structure Volume where
  /-- Every place below the root, with what it holds. -/
  nodes : List (Place × Node)
  /-- The directory relative paths start from. -/
  cwd : Place
  deriving DecidableEq, Repr, Inhabited

namespace Volume

/-- The volume holding only its root, which is also its current directory. -/
def empty : Volume :=
  ⟨[], []⟩

/-- What a place holds, if anything. -/
def lookup (v : Volume) (p : Place) : Option Node :=
  if p = [] then some .dir else (v.nodes.find? (·.1 = p)).map (·.2)

/-- Puts a node at a place, replacing what was there. -/
def put (v : Volume) (p : Place) (n : Node) : Volume :=
  { v with nodes := v.nodes.filter (·.1 ≠ p) ++ [(p, n)] }

/-- **The entries of a directory**, by name in byte order. -/
def entries (v : Volume) (p : Place) : List (String × Node) :=
  let inside := v.nodes.filterMap fun (q, n) =>
    match q.getLast? with
    | some name => if q.dropLast = p then some (name, n) else none
    | none => none
  inside.mergeSort fun a b => Path.nameLe a.1 b.1

/-- The text of a place as an absolute path. -/
def placeText (p : Place) : String :=
  "/" ++ "/".intercalate p

end Volume

end ReadingOrder
