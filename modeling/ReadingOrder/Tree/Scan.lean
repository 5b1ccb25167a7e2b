import ReadingOrder.Tree.Basic
import ReadingOrder.Volume.Resolve
import ReadingOrder.Exclusion
/-!
# Scanning a volume

`DirTree.scan` records the directories below a root. The root itself may be
reached through links, but below it only real directories count: a link to
a directory is neither followed nor recorded. Entries are visited depth
first, the entries of each directory in byte order of their names, so the
tree's default order is the order of names. A directory whose path relative
to the root matches a directory exclusion is left out with everything below
it.

A root that does not lead to a directory is an error, reported with the
root's path. So is a directory below it that cannot be read by its path,
reported with that path, unless it is excluded: an excluded directory is
never read.
-/

namespace ReadingOrder

namespace DirTree

/-- Adds the directories below the place `p`, whose path is `here`, to the
tree, depth first and in name order. Each directory it goes into is read by
its path, and the first that cannot be read ends the scan with the failure
met there. The fuel bounds the depth. -/
def scanBelow (v : Volume) (ex : Exclusions) (root : String) :
    Nat → Place → String → DirTree → Except OrderError DirTree
  | 0, _, _, t => .ok t
  | fuel + 1, p, here, t =>
    (v.entries p).foldlM (fun t (name, n) =>
      match n with
      | .dir =>
        let child := Path.join here name
        if ex.excludesDir (Path.relativeTo root child) then .ok t
        else
          let t := match t.find (Path.normalize ((Path.parent? child).getD root)) with
            | some parent => (t.insert parent child).1
            | none => t
          match v.listDir child with
          | .error e => .error (.fileSystem child (.walk child e))
          | .ok _ => scanBelow v ex root fuel (p ++ [name]) child t
      | _ => .ok t) t

/-- **The tree of directories below a root.** -/
def scan (v : Volume) (ex : Exclusions) (root : String) : Except OrderError DirTree :=
  match v.metadata root with
  | .error e => .error (.fileSystem root (.os e))
  | .ok (.file _) => .error (.fileSystem root (.other "path is not a directory"))
  | .ok .dir =>
    match v.listDir root with
    | .error e => .error (.fileSystem root (.walk root e))
    | .ok (p, _) => scanBelow v ex root (v.nodes.length + 1) p root (new root)

end DirTree

end ReadingOrder
