import ReadingOrder.Path.Basic
import ReadingOrder.Json.Value
/-!
# Rules

A rule pins a directory or a file to the front of its level. It names its
target relative to the ordering root, and keeps both the text it was written
with and the normalised path it resolves to, together with the depth below
the root at which that path sits. A rule set is the root, the two header
flags, and the directory and file rules in the order they were written.
-/

namespace ReadingOrder

/-- **Whether a rule pins a directory or a file.** -/
inductive RuleKind where
  | directory
  | file
  deriving DecidableEq, Repr, Inhabited

namespace RuleKind

/-- The keyword a rule of this kind is written with in a rule file. -/
def keyword : RuleKind → String
  | directory => "dir"
  | file => "file"

/-- The name of the kind in JSON output. -/
def name : RuleKind → String
  | directory => "directory"
  | file => "file"

end RuleKind

/-- **One pinning rule.** -/
structure Rule where
  /-- The normalised path the rule resolves to. -/
  target : String
  kind : RuleKind
  /-- How many names `target` has below the root. -/
  depth : Nat
  /-- The path as written in the rule file. -/
  relative : String
  deriving DecidableEq, Repr, Inhabited

/-- **A parsed rule file.** -/
structure RuleSet where
  root : String
  headersFirst : Bool
  headersOnly : Bool
  dirRules : List Rule
  fileRules : List Rule
  deriving DecidableEq, Repr, Inhabited

namespace RuleSet

/-- The rule set of an empty rule file read from the current directory. -/
def empty : RuleSet :=
  ⟨".", true, false, [], []⟩

/-- The rules of one kind, in the order they were written. -/
def rules (s : RuleSet) : RuleKind → List Rule
  | .directory => s.dirRules
  | .file => s.fileRules

end RuleSet

/-- A rule as a JSON object. -/
def Rule.toValue (r : Rule) : Json.Value :=
  .obj [("target", .str r.target), ("kind", .str r.kind.name), ("depth", .num (.nat r.depth)),
    ("relative", .str r.relative)]

/-- A rule set as a JSON object. -/
def RuleSet.toValue (s : RuleSet) : Json.Value :=
  .obj [("root", .str s.root), ("headers_first", .bool s.headersFirst),
    ("headers_only", .bool s.headersOnly), ("dir_rules", .arr (s.dirRules.map Rule.toValue)),
    ("file_rules", .arr (s.fileRules.map Rule.toValue))]

end ReadingOrder
