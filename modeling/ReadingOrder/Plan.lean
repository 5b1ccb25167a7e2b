import ReadingOrder.Tree.Scan
import ReadingOrder.Tree.Reorder
import ReadingOrder.Rule.Parse
import ReadingOrder.Sequence.Basic
import ReadingOrder.Sequence.Group
import ReadingOrder.Config.Basic
/-!
# Planning

A plan is the whole answer to one ordering request: the rules read from the
rule file, the tree of directories below the rules' root in rule order, and
the sequence of files to print. It is built in four steps:

1. the rule file is read, and its relative root resolved against the
   directory holding it;
2. the directories below the root are scanned;
3. the tree is reordered level by level with the directory rules;
4. each directory, in pre-order, lists its printable files in name order:
   regular files and links that lead to regular files, left out when their
   path relative to the root matches a file exclusion or when their
   extension is not printable; the file rules for the depth below the
   directory move their targets to the front, and headers are paired with
   their implementation files.

A planner is built once from a configuration; its exclusions must compile.
Planning reads the volume and changes nothing, so planning twice gives the
same plan.
-/

namespace ReadingOrder

/-- **What planning needs from the configuration.** -/
structure Planner where
  exclusions : Exclusions
  classifier : Classifier
  deriving DecidableEq, Repr

/-- **The result of planning.** -/
structure Plan where
  rules : RuleSet
  tree : DirTree
  sequence : Sequence

namespace RuleSet

/-- **Reads a rule file**; its relative root is resolved against the
directory holding the file. -/
def load (v : Volume) (path : String) : Except OrderError RuleSet :=
  match v.readFile path with
  | .error e => .error (.config path (.os e))
  | .ok text => .ok (parse text ((Path.parent? path).getD ""))

end RuleSet

namespace Planner

/-- **The planner of a configuration.** -/
def ofConfig (c : Config) : Except OrderError Planner :=
  match Exclusions.compile c.excludeDirs c.excludeFiles with
  | .error e => .error (.pattern e)
  | .ok ex => .ok ⟨ex, Classifier.ofConfig c⟩

/-- **The printable files directly inside a directory**, normalised, in
name order. -/
def listFiles (pl : Planner) (v : Volume) (root dir : String) : Except OrderError (List String) :=
  match v.listDir dir with
  | .error e => .error (.fileSystem dir (.walk dir e))
  | .ok (_, entries) => .ok (entries.filterMap fun (name, n) =>
    let entryPath := Path.join dir name
    let isFile := match n with
      | .file _ => true
      | .link _ => v.isFile entryPath
      | .dir => false
    let path := Path.normalize entryPath
    if !isFile || pl.exclusions.excludesFile (Path.relativeTo root path) then none
    else if (pl.classifier.classify path).isNone then none
    else some path)

/-- **The sequence of a tree**: each directory in pre-order with its files
in print order. -/
def sequence (pl : Planner) (v : Volume) (tree : DirTree) (rules : RuleSet) :
    Except OrderError Sequence := do
  let nodes := tree.preOrder.filterMap tree.get?
  let dirs ← nodes.mapM fun node => do
    let listed ← pl.listFiles v tree.rootPath node.identifier
    let ranked := pinFront listed rules.fileRules (node.depth + 1)
    let files := Pairing.arrange pl.classifier rules.headersFirst rules.headersOnly ranked
    return (⟨node.identifier, node.depth, files⟩ : DirectoryFiles)
  return ⟨dirs⟩

/-- **Plans with rules already read.** -/
def plan (pl : Planner) (v : Volume) (rules : RuleSet) : Except OrderError Plan := do
  let scanned ← DirTree.scan v pl.exclusions rules.root
  let tree := scanned.reorder rules.dirRules
  let sequence ← pl.sequence v tree rules
  return ⟨rules, tree, sequence⟩

/-- **Plans with the rules of a rule file.** -/
def planFromFile (pl : Planner) (v : Volume) (path : String) : Except OrderError Plan := do
  pl.plan v (← RuleSet.load v path)

end Planner

/-- The flat print order of a plan. -/
def Plan.paths (p : Plan) : List String :=
  p.sequence.paths

end ReadingOrder
