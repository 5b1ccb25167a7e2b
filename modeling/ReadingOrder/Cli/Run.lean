import ReadingOrder.Cli.Parse
import ReadingOrder.Config.Read
import ReadingOrder.Plan
import ReadingOrder.Render
/-!
# Running a command

A call reads the tool configuration first: a missing file gives the
defaults, and a file that cannot be read or does not parse ends the program
with status 1 before any command runs. Then the command runs over a volume
and may write to it.

`order` prints the files in order, or writes them to a file, making the
directories above it first; it warns when there is nothing to print. `tree`
prints or writes the drawing of the tree, without making directories.
`rules` shows the rules, each marked by whether its target exists with the
kind the rule expects.

A failure ends the program with status 1 and a report: the failure, then
what caused it, one cause per line, numbered when there are several. The
commands add what they were doing in front of a failure of the planning.

The marks the commands print (`✓`, `✗`, `!`, the root of the rules, the
depth of a rule) are coloured only when colours are forced: the output is
not a terminal, so nothing else turns them on.
-/

namespace ReadingOrder

namespace Cli

/-- **Whether the marks commands print are coloured**: `CLICOLOR_FORCE` is
set and not `0`. -/
def styledMarks (env : Env) : Bool :=
  match env.lookup "CLICOLOR_FORCE" with
  | some v => v != "0"
  | none => false

/-- A mark in one colour, when `on`. -/
def tint (on : Bool) (c : Text.Color) (s : String) : String :=
  ({ color := some c } : Text.Style).apply on s

/-- Pads a text with blanks on the left to a width. -/
def padLeft (s : String) (width : Nat) : String :=
  String.ofList (List.replicate (width - s.length) ' ') ++ s

/-- One cause of a report, its further lines indented under its first. -/
def causeLine (numbered : Bool) (i : Nat) (text : String) : String :=
  let (lead, more) := if numbered then (padLeft (toString i) 5 ++ ": ", "       ")
    else ("    ", "    ")
  "\n" ++ lead ++ text.replace "\n" ("\n" ++ more)

/-- **The report of a failure** and its causes. -/
def report (failure : String) (causes : List String) : String :=
  let caused := if causes.isEmpty then "" else
    "\n\nCaused by:" ++ String.join (causes.mapIdx (causeLine (causes.length ≥ 2)))
  "Error: " ++ failure ++ caused ++ "\n"

/-- The report of a library failure, after what was being done, if said. -/
def reportOf (doing : Option String) (e : OrderError) : String :=
  match doing with
  | some d => report d (e.message :: e.causes)
  | none => report e.message e.causes

/-- A failed run. -/
def failed (text : String) : Outcome :=
  { status := 1, stderr := text }

/-- **The tool configuration at a path**: the defaults when nothing is
there. -/
def loadConfig (v : Volume) (path : String) : Except OrderError Config :=
  if v.exists path then
    match v.readFile path with
    | .error e => .error (.io (.os e))
    | .ok text => (Config.ofText text).mapError .json
  else .ok {}

/-- What a planning command says it was doing. -/
def ordering (rulesPath : String) : String :=
  "Failed to order files using " ++ rulesPath

/-- Plans with a configuration and a rule file. -/
def planWith (v : Volume) (c : Config) (rulesPath : String) : Except String Plan :=
  match Planner.ofConfig c with
  | .error e => .error (reportOf none e)
  | .ok pl =>
    match pl.planFromFile v rulesPath with
    | .error e => .error (reportOf (some (ordering rulesPath)) e)
    | .ok plan => .ok plan

/-- Makes the directory above an output file when it is missing. -/
def makeParent (v : Volume) (output : String) : Except OsError Volume :=
  match Path.parent? output with
  | some p => if p.isEmpty || v.exists p then .ok v else v.makeDirs p
  | none => .ok v

/-- **The `order` command.** -/
def orderCommand (m : Bool) (v : Volume) (c : Config) (rules : Option String)
    (format : ListingFormat) (output : Option String) : Outcome × Volume :=
  let rulesPath := rules.getD c.rules
  match planWith v c rulesPath with
  | .error text => (failed text, v)
  | .ok plan =>
    let paths := plan.paths
    let warning := if paths.isEmpty then
        tint m .yellow "!" ++ " No printable files found\n  Check the parent path in " ++
          rulesPath ++ "\n"
      else ""
    let text := listing format paths
    match output with
    | none => ({ status := 0, stdout := text, stderr := warning }, v)
    | some o =>
      match makeParent v o with
      | .error e => (failed (warning ++ report e.message []), v)
      | .ok v =>
        match v.writeFile o text with
        | .error e => (failed (warning ++ report ("Failed to write " ++ o) [e.message]), v)
        | .ok v =>
          ({ status := 0, stderr := warning,
             stdout := tint m .green "✓" ++ " Order written to " ++ o ++ "\n  Files: " ++
              toString paths.length ++ "\n" },
            v)

/-- **The `tree` command.** -/
def treeCommand (v : Volume) (c : Config) (rules : Option String) (files : Bool)
    (label : Option String) (output : Option String) : Outcome × Volume :=
  let rulesPath := rules.getD c.rules
  match planWith v c rulesPath with
  | .error text => (failed text, v)
  | .ok plan =>
    let drawing : TreeDrawing := ⟨if files then some plan.sequence else none, label⟩
    let text := drawing.render plan.tree
    match output with
    | none => ({ status := 0, stdout := text }, v)
    | some o =>
      match v.writeFile o text with
      | .error e => (failed (report ("Failed to write " ++ o) [e.message]), v)
      | .ok v => ({ status := 0 }, v)

/-- Whether a rule's target exists with the kind the rule expects. -/
def targetExists (v : Volume) (r : Rule) : Bool :=
  match r.kind with
  | .directory => v.isDir r.target
  | .file => v.isFile r.target

/-- The lines of the rules of one kind, after a blank line; nothing when
there are none. -/
def ruleLines (m : Bool) (v : Volume) (rs : RuleSet) (kind : RuleKind) : String :=
  let list := rs.rules kind
  if list.isEmpty then "" else
    "\n" ++ String.join (list.mapIdx fun i r =>
      (if targetExists v r then tint m .green "✓" else tint m .red "✗") ++ " " ++
        padLeft (toString (i + 1)) 3 ++ ". " ++ kind.keyword ++ " " ++ r.relative ++ " " ++
        ({ dim := true } : Text.Style).apply m ("(depth " ++ toString r.depth ++ ")") ++ "\n")

/-- **The `rules` command.** -/
def rulesCommand (m : Bool) (v : Volume) (c : Config) (rules : Option String) (json : Bool) :
    Outcome :=
  let rulesPath := rules.getD c.rules
  match RuleSet.load v rulesPath with
  | .error e => failed (reportOf (some ("Failed to load rules from " ++ rulesPath)) e)
  | .ok rs =>
    if json then { status := 0, stdout := rs.toValue.pretty ++ "\n" }
    else
      { status := 0,
        stdout := "Root: " ++ tint m .cyan rs.root ++ "\nHeaders first: " ++
          toString rs.headersFirst ++ "\nHeaders only: " ++ toString rs.headersOnly ++ "\n" ++
          ruleLines m v rs .directory ++ ruleLines m v rs .file }

/-- **Runs a call** over a volume: what it prints, how it ends, and the
volume after it. -/
def run (v : Volume) (env : Env) (args : List String) : Outcome × Volume :=
  let m := styledMarks env
  match parse env args with
  | .error stop => (stop.outcome env (styledTexts env), v)
  | .ok call =>
    match loadConfig v call.config with
    | .error e =>
      (failed (tint m .red "✗" ++ " Invalid config " ++ call.config ++ ": " ++ e.message ++ "\n"), v)
    | .ok c =>
      match call.action with
      | .order rules format output => orderCommand m v c rules format output
      | .tree rules files label output => treeCommand v c rules files label output
      | .rules rules json => (rulesCommand m v c rules json, v)

end Cli

end ReadingOrder
