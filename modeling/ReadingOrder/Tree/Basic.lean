import ReadingOrder.Path.Basic
/-!
# Directory trees

A directory tree keeps its directories in an arena: a node is named by its
position, the root is node `0`, and every node records its normalised path,
the tag it is shown by, its parent, its children in their significant order,
and its depth. Paths are unique in a tree, so a path names at most one node,
and looking a path up compares components, never text.

Nodes are only ever added, each as the last child of a node already present,
so the parent of a node stands before it in the arena. That is what bounds
the walks below: a pre-order visits every node once and an ancestor walk
meets every node at most once, so the number of nodes is enough fuel for
both on every tree that `insert` builds.
-/

namespace ReadingOrder

/-- **One directory of a tree.** -/
structure DirNode where
  /-- The normalised path of the directory. -/
  identifier : String
  /-- The name the directory is shown by. -/
  tag : String
  /-- The node the directory sits in; the root has none. -/
  parent : Option Nat
  /-- The directories inside, in order. -/
  children : List Nat
  /-- How many levels below the root the directory is. -/
  depth : Nat
  deriving DecidableEq, Repr, Inhabited

/-- **A directory tree**, its nodes in the order they were added. -/
structure DirTree where
  nodes : Array DirNode
  deriving Repr, Inhabited

namespace DirTree

/-- The tree of a root directory alone. -/
def new (root : String) : DirTree :=
  let identifier := Path.normalize root
  ⟨#[⟨identifier, Path.tag identifier, none, [], 0⟩]⟩

/-- The number of nodes. -/
def size (t : DirTree) : Nat :=
  t.nodes.size

/-- The node at a position. -/
def get? (t : DirTree) (id : Nat) : Option DirNode :=
  t.nodes[id]?

/-- The path of the root. -/
def rootPath (t : DirTree) : String :=
  ((t.get? 0).map (·.identifier)).getD "."

/-- **The node whose path is the same as `p`.** -/
def find (t : DirTree) (p : String) : Option Nat :=
  t.nodes.findIdx? fun n => Path.same n.identifier p

/-- Whether some node has the path `p`. -/
def contains (t : DirTree) (p : String) : Bool :=
  (t.find p).isSome

/-- The parent of a node; none for the root and for a position with no node. -/
def parent (t : DirTree) (id : Nat) : Option Nat :=
  (t.get? id).bind (·.parent)

/-- The children of a node in order; none for a position with no node. -/
def children (t : DirTree) (id : Nat) : List Nat :=
  ((t.get? id).map (·.children)).getD []

/-- **Adds a directory as the last child of `parent`.** A path already in the
tree is not added again and gives back its node, whatever `parent` is; a
position with no node as parent adds nothing. -/
def insert (t : DirTree) (parent : Nat) (p : String) : DirTree × Option Nat :=
  let identifier := Path.normalize p
  match t.find identifier with
  | some existing => (t, some existing)
  | none =>
    match t.get? parent with
    | none => (t, none)
    | some pn =>
      let id := t.size
      let node : DirNode := ⟨identifier, Path.tag identifier, some parent, [], pn.depth + 1⟩
      (⟨(t.nodes.modify parent fun n => { n with children := n.children ++ [id] }).push node⟩, some id)

/-- The stack walk behind `preOrder`: the top of the stack is visited, and
its children go on the stack so that the first child comes next. -/
def preOrderWalk (t : DirTree) : Nat → List Nat → List Nat
  | 0, _ => []
  | _ + 1, [] => []
  | fuel + 1, id :: stack => id :: preOrderWalk t fuel (t.children id ++ stack)

/-- **The nodes in pre-order**: each node before its children, children in
their stored order. -/
def preOrder (t : DirTree) : List Nat :=
  preOrderWalk t t.size [0]

/-- The walk behind `isAncestorOf`: climbs parent links from `start`. -/
def climbsTo (t : DirTree) (a : Nat) : Nat → Option Nat → Bool
  | 0, _ => false
  | _ + 1, none => false
  | fuel + 1, some p => p == a || climbsTo t a fuel (t.parent p)

/-- **Whether `a` lies on the parent chain above `d`**; never true of a node
and itself. -/
def isAncestorOf (t : DirTree) (a d : Nat) : Bool :=
  climbsTo t a t.size (t.parent d)

/-- **The tree of a root and a list of directories**, each put under the
node of the parent of its normal form, which must already be in the tree
(the parent of a single name is the current directory; the root of the file
system has none). The first directory whose parent is missing is returned
instead. -/
def ofDirs (root : String) (dirs : List String) : Except String DirTree :=
  let step (t : DirTree) (d : String) : Except String DirTree :=
    match (Path.parent? (Path.normalize d)).bind fun p => t.find (Path.normalize p) with
    | some pid => pure (t.insert pid d).1
    | none => throw d
  List.foldlM step (new root) dirs

end DirTree

end ReadingOrder
