import ReadingOrder.Tree.Basic
import ReadingOrder.Precedence
/-!
# Reordering a tree

`DirTree.reorder` builds a fresh tree with the same directories in rule
order. It copies the input level by level from the root: the children of a
node, by path, go through `pinFront` with the directory rules for the depth
below the node, the whole level is added to the new tree, and only then is
each child copied in turn. Adding a level before descending keeps the
siblings of a level next to each other in the arena, which is what makes a
second reordering change nothing.

The copy descends at most as many levels as the input has nodes, which is
its fuel.
-/

namespace ReadingOrder

namespace DirTree

/-- Adds a level of children under `outId`, collecting the pairs of input and
output nodes of the children that were placed. -/
def placeLevel (input : DirTree) (outId : Nat) (out : DirTree) (paths : List String) :
    DirTree × List (Nat × Nat) :=
  let step (acc : DirTree × List (Nat × Nat)) (p : String) : DirTree × List (Nat × Nat) :=
    match input.find p with
    | none => acc
    | some inId =>
      match acc.1.insert outId p with
      | (out', some outNode) => (out', acc.2 ++ [(inId, outNode)])
      | (out', none) => (out', acc.2)
  paths.foldl step (out, [])

/-- Copies the subtree below `inId` of `input` under `outId` of `out`. -/
def copyOrdered (input : DirTree) (rules : List Rule) : Nat → Nat → DirTree → Nat → DirTree
  | 0, _, out, _ => out
  | fuel + 1, inId, out, outId =>
    match input.get? inId with
    | none => out
    | some node =>
      let kids := (input.children inId).filterMap fun c => (input.get? c).map (·.identifier)
      let (out, placed) := placeLevel input outId out (pinFront kids rules (node.depth + 1))
      placed.foldl (fun out (inId, outId) => copyOrdered input rules fuel inId out outId) out

/-- **The tree with every level in rule order.** -/
def reorder (input : DirTree) (rules : List Rule) : DirTree :=
  copyOrdered input rules input.size 0 (new input.rootPath) 0

end DirTree

end ReadingOrder
