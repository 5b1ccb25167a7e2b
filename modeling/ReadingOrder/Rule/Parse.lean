import ReadingOrder.Rule.Basic
import ReadingOrder.Text.Blank
/-!
# The rule-file grammar

A rule file is read line by line; each line is trimmed of blanks (Unicode
`White_Space`), and a line that is empty or holds a `#` anywhere says
nothing. Otherwise the line's keyword is its text up to the first blank, and
its argument the rest, trimmed:

* `dir <path>` and `file <path>` pin a directory or a file;
* `HEADERS_FIRST <n>` and `ONLY_HEADERS <n>` set a flag to whether the
  integer `n`, after any leading `=` and blanks, is non-zero; a value that is
  not a 64-bit integer leaves the flag as it was;
* any other line may be `parent = <path>`: the text before the first `=`
  must trim to `parent`, and the path is the rest, trimmed, stripped of every
  double quote at either end and trimmed again; an empty path says nothing.

Every line is read on its own (`Directive.ofLine`), so where a line stands
matters only among lines of its own kind: rules keep their order, and the
last `parent` and the last readable value of each flag win. The root is the
parent resolved against the directory of the rule file, and each rule is
resolved against the root once the whole file is read: a rule whose target
does not lie strictly below the root is dropped.
-/

namespace ReadingOrder

/-- **What one line of a rule file says.** -/
inductive Directive where
  | pin (kind : RuleKind) (path : String)
  | headersFirst (value : Bool)
  | headersOnly (value : Bool)
  | parent (path : String)
  | nothing
  deriving DecidableEq, Repr

namespace Directive

/-- The characters of a run of ASCII digits as a number. -/
def digitsValue (ds : List Char) : Nat :=
  ds.foldl (fun n d => 10 * n + (d.toNat - 48)) 0

/-- **A 64-bit signed integer in decimal**: an optional `+` or `-` and at
least one ASCII digit, within `-2^63` and `2^63 - 1`. -/
def parseInt64? (s : String) : Option Int :=
  let (neg, ds) := match s.toList with
    | '-' :: ds => (true, ds)
    | '+' :: ds => (false, ds)
    | ds => (false, ds)
  if ds.isEmpty || !ds.all Char.isDigit then none
  else
    let n := digitsValue ds
    if neg then (if n ≤ Nat.pow 2 63 then some (-(n : Int)) else none)
    else if n < Nat.pow 2 63 then some (n : Int) else none

/-- The value of a flag's argument: leading `=` signs and blanks go, and a
readable integer is true when it is not zero. -/
def flagValue? (arg : String) : Option Bool :=
  (parseInt64? (Text.trim (String.ofList (arg.toList.dropWhile (· = '='))))).map (· ≠ 0)

/-- The path of a `parent = <path>` line, if the line is one. -/
def parentValue? (line : String) : Option String :=
  let cs := line.toList
  if cs.contains '=' then
    let key := cs.takeWhile (· ≠ '=')
    let value := (cs.dropWhile (· ≠ '=')).drop 1
    if String.ofList (Text.trimList key) = "parent" then
      let v := Text.trimList ((((Text.trimList value).dropWhile (· = '"')).reverse.dropWhile (· = '"')).reverse)
      if v.isEmpty then none else some (String.ofList v)
    else none
  else none

/-- A line cut into its keyword and its trimmed argument. -/
def keywordOf (line : String) : String × String :=
  let cs := line.toList
  (String.ofList (cs.takeWhile (fun c => !Text.isBlank c)),
    String.ofList (Text.trimList ((cs.dropWhile (fun c => !Text.isBlank c)).drop 1)))

/-- **What a line says**, read on its own. -/
def ofLine (raw : String) : Directive :=
  let line := Text.trim raw
  if line.isEmpty || line.toList.contains '#' then .nothing
  else
    let (keyword, arg) := keywordOf line
    if keyword = "dir" ∧ !arg.isEmpty then .pin .directory arg
    else if keyword = "file" ∧ !arg.isEmpty then .pin .file arg
    else if keyword = "HEADERS_FIRST" then ((flagValue? arg).map .headersFirst).getD .nothing
    else if keyword = "ONLY_HEADERS" then ((flagValue? arg).map .headersOnly).getD .nothing
    else ((parentValue? line).map .parent).getD .nothing

end Directive

/-- The lines of a text: the pieces between line feeds. A carriage return
before a line feed stays on its line, where trimming removes it. -/
def linesOf (text : String) : List String :=
  (text.toList.splitOn '\n').map String.ofList

/-- **A rule file read so far**: the pins in the order written, the last
parent, and the two flags. -/
structure RuleDraft where
  pins : List (RuleKind × String) := []
  parent : String := "."
  headersFirst : Bool := true
  headersOnly : Bool := false
  deriving DecidableEq, Repr

namespace RuleDraft

/-- Takes in what one line says. -/
def absorb (d : RuleDraft) : Directive → RuleDraft
  | .pin k p => { d with pins := d.pins ++ [(k, p)] }
  | .headersFirst b => { d with headersFirst := b }
  | .headersOnly b => { d with headersOnly := b }
  | .parent p => { d with parent := p }
  | .nothing => d

/-- The draft of a whole text. -/
def ofText (text : String) : RuleDraft :=
  (linesOf text).foldl (fun d l => d.absorb (Directive.ofLine l)) {}

end RuleDraft

namespace Rule

/-- **A pin resolved against a root**: its target is the normalised join,
and it is kept only when the target lies one or more names below the root. -/
def resolve (root : String) (kind : RuleKind) (relative : String) : Option Rule :=
  let target := Path.normalize (Path.join root relative)
  match Path.depthBelow root target with
  | some (d + 1) => some ⟨target, kind, d + 1, relative⟩
  | _ => none

end Rule

namespace RuleSet

/-- **The rule set of a rule text read from `baseDir`.** -/
def parse (text baseDir : String) : RuleSet :=
  let d := RuleDraft.ofText text
  let root := Path.normalize (Path.join baseDir d.parent)
  let rules := d.pins.filterMap fun (k, p) => Rule.resolve root k p
  { root
    headersFirst := d.headersFirst
    headersOnly := d.headersOnly
    dirRules := rules.filter (·.kind = .directory)
    fileRules := rules.filter (·.kind = .file) }

example : Directive.ofLine "parent = \"../code\"" = .parent "../code" ∧
    Directive.ofLine "HEADERS_FIRST =0" = .headersFirst false ∧
    Directive.ofLine "dir src # comment" = .nothing := by
  decide

end RuleSet

end ReadingOrder
