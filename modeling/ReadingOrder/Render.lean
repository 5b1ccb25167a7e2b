import ReadingOrder.Tree.Basic
import ReadingOrder.Sequence.Basic
/-!
# Drawing a tree

A tree is drawn as indented text with box-drawing characters. The first line
is a label, by default the root's tag. Below each directory come first its
files, by file name, then its subdirectories, each with a trailing slash and
followed by its own contents. Every item is introduced by `├── `, or by
`└── ` when it is the last item of its directory, and the contents of a
subdirectory are indented by `│   ` below an item that has more siblings
after it and by four spaces below a last item.

Files are listed only when a sequence is given; a directory's files are
those of the sequence's last entry for it, and a path without a file name is
left out.
-/

namespace ReadingOrder

/-- **How a tree is drawn**: with the files of a sequence or without, and
with a label for the root or its tag. -/
structure TreeDrawing where
  files : Option Sequence := none
  label : Option String := none

namespace TreeDrawing

/-- The connector before an item. -/
def connector (isLast : Bool) : String :=
  if isLast then "└── " else "├── "

/-- The indentation added below an item. -/
def continuation (isLast : Bool) : String :=
  if isLast then "    " else "│   "

/-- The names of the files listed under a directory. -/
def fileNames (d : TreeDrawing) (dir : String) : List String :=
  match d.files with
  | none => []
  | some s => (s.lastFilesFor dir).filterMap Path.fileName?

/-- The lines below the node `id`, each starting with `pre`. -/
def body (d : TreeDrawing) (t : DirTree) : Nat → Nat → String → String
  | 0, _, _ => ""
  | fuel + 1, id, pre =>
    match t.get? id with
    | none => ""
    | some node =>
      let names := d.fileNames node.identifier
      let dirs := t.children id
      let total := names.length + dirs.length
      let fileLines := names.mapIdx fun i n => pre ++ connector (i + 1 == total) ++ n ++ "\n"
      let dirLines := dirs.mapIdx fun i c =>
        let isLast := names.length + i + 1 == total
        let tag := ((t.get? c).map (·.tag)).getD ""
        pre ++ connector isLast ++ tag ++ "/\n" ++ body d t fuel c (pre ++ continuation isLast)
      String.join fileLines ++ String.join dirLines

/-- **The drawing of a tree.** -/
def render (d : TreeDrawing) (t : DirTree) : String :=
  let label := d.label.getD (((t.get? 0).map (·.tag)).getD "")
  label ++ "\n" ++ d.body t t.size 0 ""

end TreeDrawing

end ReadingOrder
