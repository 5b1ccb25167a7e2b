import ReadingOrder.Text.Similarity
import ReadingOrder.Text.Style
/-!
# The command line's grammar and its texts

The tool is called as `print-order [OPTIONS] <COMMAND>`, with the commands
`order`, `tree` and `rules`, and `help`, which shows the help of a command.
Options are written long (`--rules x`, `--rules=x`) or short (`-r x`, `-rx`,
`-r=x`), short flags may be grouped (`-vh`), and `--` ends the options.
The options `--config` and `--verbose` belong to the whole program and may be
given before or after the command.

This module describes every option and command level, and writes the texts
the command line shows: the help of a level, its usage line, and the refusal
of a wrong call, which names what was wrong, may add tips, shows the usage,
and points at `--help`. A refusal ends the program with status 2; help and
version end it with status 0, on standard output.

Usage lines, tips and refusals are data, and `render` is the one place they
become text: plain, or styled for a terminal when colours are forced
(`CLICOLOR_FORCE` set and not empty) and not refused (`NO_COLOR` set and not
empty). Styled, the word `error:` is bold red, headings are bold and
underlined, names to type are bold, what was wrong is yellow and what would
be right is green.
-/

namespace ReadingOrder

namespace Cli

/-- What the program prints and how it ends. -/
structure Outcome where
  status : Nat
  stdout : String := ""
  stderr : String := ""
  deriving DecidableEq, Repr

/-- The values of the environment the command line reads. -/
abbrev Env := List (String × String)

/-- **What an option does when given.** -/
inductive Effect where
  /-- Sets a switch. -/
  | flag
  /-- Takes one value, shown as `<name>`. -/
  | value (name : String)
  /-- Shows the help of its level. -/
  | help
  /-- Shows the version. -/
  | version
  deriving DecidableEq, Repr

/-- **An option.** `rank` orders the help; `env` names a variable that gives
the value when the option is absent; `choices`, when not empty, are the only
values allowed; a `path` value may not be empty. -/
structure Opt where
  id : String
  short : Option Char
  long : String
  effect : Effect
  help : String
  rank : Nat
  env : Option String := none
  default : Option String := none
  choices : List String := []
  path : Bool := false
  deriving DecidableEq, Repr

/-- The style of the word `error:`. -/
def errorStyle : Text.Style := { bold := true, color := some .red }

/-- The style of headings such as `Usage:` and `Options:`. -/
def headerStyle : Text.Style := { bold := true, underline := true }

/-- The style of names to type: the program, commands, options. -/
def literalStyle : Text.Style := { bold := true }

/-- The style of what would be right: tips, allowed values. -/
def validStyle : Text.Style := { color := some .green }

/-- The style of what was wrong. -/
def invalidStyle : Text.Style := { color := some .yellow }

/-- **Whether the command line's texts are styled**: colours are forced
(`CLICOLOR_FORCE` set to anything but the empty text, `0` included) and not
refused (`NO_COLOR` unset or empty). -/
def styledTexts (env : Env) : Bool :=
  (match env.lookup "NO_COLOR" with
    | some v => v.isEmpty
    | none => true) &&
  (match env.lookup "CLICOLOR_FORCE" with
    | some v => !v.isEmpty
    | none => false)

namespace Opt

/-- Whether an option takes a value. -/
def takesValue (o : Opt) : Bool :=
  match o.effect with
  | .value _ => true
  | _ => false

/-- The option as named in messages: `--format <FORMAT>`, `--verbose`. -/
def display (o : Opt) : String :=
  match o.effect with
  | .value n => "--" ++ o.long ++ " <" ++ n ++ ">"
  | _ => "--" ++ o.long

/-- The option as it heads its help line: `-r, --rules <RULES>`, with four
blanks in place of a missing short name. -/
def heading (o : Opt) : String :=
  match o.short with
  | some c => "-" ++ c.toString ++ ", " ++ o.display
  | none => "    " ++ o.display

/-- Where an option stands in the help: by rank, then by short name (lower
case before upper case of one letter), or by long name when it has no short
one. -/
def sortKey (o : Opt) : Nat × String :=
  match o.short with
  | some c => (o.rank, (if c.isLower then c.toString ++ "0" else c.toLower.toString ++ "1"))
  | none => (o.rank, o.long)

/-- The bracketed notes after an option's help: its variable and that
variable's value, its default, its allowed values. -/
def notes (o : Opt) (env : Env) : List String :=
  let fromEnv := match o.env with
    | some name => ["[env: " ++ name ++ "=" ++ ((env.lookup name).getD "") ++ "]"]
    | none => []
  let dflt := match o.default with
    | some d => ["[default: " ++ d ++ "]"]
    | none => []
  let allowed := if o.choices.isEmpty then [] else
    ["[possible values: " ++ ", ".intercalate o.choices ++ "]"]
  fromEnv ++ dflt ++ allowed

/-- The option as shown in a usage or help line, its name styled as
something to type. -/
def styledDisplay (c : Bool) (o : Opt) : String :=
  literalStyle.apply c ("--" ++ o.long) ++ match o.effect with
    | .value n => " <" ++ n ++ ">"
    | _ => ""

/-- `heading`, its names styled as something to type. -/
def styledHeading (c : Bool) (o : Opt) : String :=
  match o.short with
  | some ch => literalStyle.apply c ("-" ++ ch.toString) ++ ", " ++ o.styledDisplay c
  | none => "    " ++ o.styledDisplay c

end Opt

/-- **A command level**: the program itself or one of its commands. -/
structure Level where
  /-- The name the usage line starts with. -/
  usageName : String
  about : String
  /-- Options in the order they were declared. -/
  opts : List Opt
  /-- Commands and what they do, `help` last; empty below the top level. -/
  commands : List (String × String)
  /-- The ids of the options the level declares itself, which some usage
  lines show as one choice once one of them is given. -/
  group : List String
  deriving DecidableEq, Repr

/-- The program's name. -/
def program : String := "print-order"

/-- The program's version line. -/
def versionText : String := program ++ " 0.1.0\n"

/-- The `--config` option, given anywhere. The top level declares its three
commands before its options, and they share one count, so the program's
options rank after any command's first three. -/
def configOpt : Opt :=
  { id := "config", short := some 'c', long := "config", effect := .value "CONFIG",
    help := "Tool config file path", rank := 3, default := some ".print-order.json",
    path := true }

/-- The `--verbose` switch, given anywhere. -/
def verboseOpt : Opt :=
  { id := "verbose", short := some 'v', long := "verbose", effect := .flag,
    help := "Verbose output", rank := 4 }

/-- The `--help` switch, on every level. -/
def helpOpt : Opt :=
  { id := "help", short := some 'h', long := "help", effect := .help, help := "Print help",
    rank := 999 }

/-- The `--version` switch, on the top level. -/
def versionOpt : Opt :=
  { id := "version", short := some 'V', long := "version", effect := .version,
    help := "Print version", rank := 999 }

/-- The `--rules` option of every command, which the environment may give. -/
def rulesOpt : Opt :=
  { id := "rules", short := some 'r', long := "rules", effect := .value "RULES",
    help := "Rule file (default: the one named in the tool config)", rank := 0,
    env := some "PRINT_ORDER_RULES", path := true }

/-- The `--output` option, with its help. -/
def outputOpt (help : String) (rank : Nat) : Opt :=
  { id := "output", short := some 'o', long := "output", effect := .value "OUTPUT", help,
    rank, path := true }

/-- The options every command has after its own. -/
def shared : List Opt :=
  [configOpt, verboseOpt, helpOpt]

/-- The help of the `help` command. -/
def helpAbout : String :=
  "Print this message or the help of the given subcommand(s)"

/-- **The top level.** -/
def top : Level where
  usageName := program
  about := "Deterministic, rule-driven ordering of source files for printing"
  opts := [configOpt, verboseOpt, helpOpt, versionOpt]
  commands := [("order", "Print the files in the order they should be printed"),
    ("tree", "Show the directory tree in print order"),
    ("rules", "Show the parsed rules and whether their targets exist"),
    ("help", helpAbout)]
  group := ["config", "verbose"]

/-- **The `order` command.** -/
def orderLevel : Level where
  usageName := program ++ " order"
  about := "Print the files in the order they should be printed"
  opts := [rulesOpt,
    { id := "format", short := none, long := "format", effect := .value "FORMAT",
      help := "Output format", rank := 1, default := some "text", choices := ["text", "json"] },
    outputOpt "Write the list to a file instead of stdout" 2] ++ shared
  commands := []
  group := ["rules", "format", "output"]

/-- **The `tree` command.** -/
def treeLevel : Level where
  usageName := program ++ " tree"
  about := "Show the directory tree in print order"
  opts := [rulesOpt,
    { id := "files", short := none, long := "files", effect := .flag,
      help := "List the printed files under each directory", rank := 1 },
    { id := "label", short := none, long := "label", effect := .value "LABEL",
      help := "Label for the root line", rank := 2 },
    outputOpt "Write the tree to a file instead of stdout" 3] ++ shared
  commands := []
  group := ["rules", "files", "label", "output"]

/-- **The `rules` command.** -/
def rulesLevel : Level where
  usageName := program ++ " rules"
  about := "Show the parsed rules and whether their targets exist"
  opts := [rulesOpt,
    { id := "json", short := none, long := "json", effect := .flag, help := "Output as JSON",
      rank := 1 }] ++ shared
  commands := []
  group := ["rules", "json"]

/-- The level of a command. -/
def commandLevel? : String → Option Level
  | "order" => some orderLevel
  | "tree" => some treeLevel
  | "rules" => some rulesLevel
  | _ => none

/-- **A piece of a usage line**: an option given, shown with its value's
placeholder, or a placeholder such as `[OPTIONS]`. -/
inductive UsagePart where
  | option (o : Opt)
  | placeholder (text : String)
  deriving DecidableEq, Repr

/-- **A usage line**: the name it starts with, then its pieces. -/
structure UsageLine where
  name : String
  parts : List UsagePart
  deriving DecidableEq, Repr

/-- The text of a usage line. -/
def UsageLine.render (c : Bool) (u : UsageLine) : String :=
  literalStyle.apply c u.name ++ String.join (u.parts.map fun
    | .option o => " " ++ o.styledDisplay c
    | .placeholder t => " " ++ t)

namespace Level

/-- The option of a long name. -/
def findLong (lv : Level) (name : String) : Option Opt :=
  lv.opts.find? (·.long == name)

/-- The option of a short name. -/
def findShort (lv : Level) (c : Char) : Option Opt :=
  lv.opts.find? (·.short == some c)

/-- The option of an id. -/
def findId (lv : Level) (id : String) : Option Opt :=
  lv.opts.find? (·.id == id)

/-- The names of the level's commands. -/
def commandNames (lv : Level) : List String :=
  lv.commands.map Prod.fst

/-- Whether the usage line shows `[OPTIONS]`: some option is neither help
nor version. -/
def hasOptions (lv : Level) : Bool :=
  lv.opts.any fun o => o.long != "help" && o.long != "version"

/-- The level's own options as one choice: `<--rules <RULES>|--json>`. -/
def groupText (lv : Level) : String :=
  "<" ++ "|".intercalate ((lv.group.filterMap lv.findId).map (·.display)) ++ ">"

/-- Whether one of the level's own options is among those given. -/
def groupGiven (lv : Level) (given : List Opt) : Bool :=
  given.any fun o => lv.group.contains o.id

/-- **The usage line of a level.** When options were given, they are shown
instead of `[OPTIONS]`. With `grouped`, and one of the level's own options
given, those options are shown once, as the level's group, after the
others. -/
def usageLine (lv : Level) (given : List Opt) (grouped : Bool := false) : UsageLine :=
  let asGroup := grouped && lv.groupGiven given
  let shown := if asGroup then given.filter (fun o => !lv.group.contains o.id) else given
  let parts := shown.map UsagePart.option ++
    (if asGroup then [UsagePart.placeholder lv.groupText] else [])
  let opts := if !parts.isEmpty then parts
    else if lv.hasOptions then [UsagePart.placeholder "[OPTIONS]"] else []
  let command := if lv.commands.isEmpty then [] else [UsagePart.placeholder "<COMMAND>"]
  ⟨lv.usageName, opts ++ command⟩

/-- Blanks, `n` of them. -/
def blanks (n : Nat) : String :=
  String.ofList (List.replicate n ' ')

/-- The help line of an option, its heading padded to `width`; further lines
of its text are indented to where the text starts. -/
def optionLine (env : Env) (c : Bool) (width : Nat) (o : Opt) : String :=
  let notes := o.notes env
  let text := if notes.isEmpty then o.help else o.help ++ " " ++ " ".intercalate notes
  "  " ++ o.styledHeading c ++ blanks (width - o.heading.length) ++ "  " ++
    text.replace "\n" ("\n" ++ blanks (width + 4))

/-- **The help of a level**: what it does, its usage, its commands and its
options, in help order. -/
def helpText (lv : Level) (env : Env) (c : Bool) : String :=
  let width := lv.opts.foldl (fun w o => max w (o.display.length + 4)) 2
  let sorted := lv.opts.mergeSort fun a b =>
    a.sortKey.1 < b.sortKey.1 || (a.sortKey.1 == b.sortKey.1 && decide (a.sortKey.2 ≤ b.sortKey.2))
  let options := headerStyle.apply c "Options:" ++ "\n" ++
    "\n".intercalate (sorted.map (optionLine env c width))
  let nameWidth := lv.commands.foldl (fun w c => max w c.1.length) 0
  let commands := if lv.commands.isEmpty then "" else
    headerStyle.apply c "Commands:" ++ "\n" ++ "\n".intercalate (lv.commands.map fun (n, a) =>
      "  " ++ literalStyle.apply c n ++ blanks (nameWidth - n.length) ++ "  " ++ a) ++ "\n\n"
  lv.about ++ "\n\n" ++ headerStyle.apply c "Usage:" ++ " " ++ (lv.usageLine []).render c ++
    "\n\n" ++ commands ++ options ++ "\n"

end Level

/-- The usage line of the `help` command. -/
def helpCommandUsage : UsageLine :=
  ⟨program ++ " help", [.placeholder "[COMMAND]..."]⟩

/-- The help of the `help` command. -/
def helpCommandText (c : Bool) : String :=
  helpAbout ++ "\n\n" ++ headerStyle.apply c "Usage:" ++ " " ++ helpCommandUsage.render c ++
    "\n\n" ++ headerStyle.apply c "Arguments:" ++
    "\n  [COMMAND]...  Print help for the subcommand(s)\n"

/-- **A tip** that follows a refusal. -/
inductive Tip where
  /-- Words like the one given: `a similar argument exists: '--format'`. -/
  | similar (kind : String) (words : List String)
  /-- A command named after `--`, where it cannot be one. -/
  | dashesBefore (command : String)
  /-- An option of a command named later on the line: `'tree --files' exists`. -/
  | laterCommand (command option : String)
  deriving DecidableEq, Repr

/-- The text of a tip. -/
def Tip.render (c : Bool) : Tip → String
  | .similar kind [w] => "a similar " ++ kind ++ " exists: '" ++ validStyle.apply c w ++ "'"
  | .similar kind ws => "some similar " ++ kind ++ "s exist: " ++
      ", ".intercalate (ws.map fun w => "'" ++ validStyle.apply c w ++ "'")
  | .dashesBefore n => "subcommand '" ++ validStyle.apply c n ++
      "' exists; to use it, remove the '" ++ invalidStyle.apply c "--" ++ "' before it"
  | .laterCommand cmd o => "'" ++ validStyle.apply c (cmd ++ " --" ++ o) ++ "' exists"

/-- The tip naming similar words, if there are any. -/
def similarTips (kind : String) (words : List String) : List Tip :=
  if words.isEmpty then [] else [.similar kind words]

/-- **What was wrong with a call.** -/
inductive Complaint where
  /-- An argument that means nothing where it stands. -/
  | unexpected (arg : String)
  /-- A command name that is not one. -/
  | unknownCommand (name : String)
  /-- A value an option does not allow; the empty value is a missing one. -/
  | badValue (o : Opt) (value : String)
  /-- An option given twice. -/
  | givenTwice (o : Opt)
  /-- A value attached to a switch. -/
  | valueForSwitch (o : Opt) (value : String)
  /-- A call of the top level without a command. -/
  | noCommand (names : List String)
  deriving DecidableEq, Repr

/-- A bracketed list of allowed words, on a line of its own. -/
def allowedList (c : Bool) (title : String) (words : List String) : String :=
  if words.isEmpty then "" else
    "\n  [" ++ title ++ ": " ++ ", ".intercalate (words.map (validStyle.apply c)) ++ "]"

/-- The text of a complaint. -/
def Complaint.render (c : Bool) : Complaint → String
  | .unexpected a => "unexpected argument '" ++ invalidStyle.apply c a ++ "' found"
  | .unknownCommand n => "unrecognized subcommand '" ++ invalidStyle.apply c n ++ "'"
  | .badValue o v =>
    (if v.isEmpty then
      "a value is required for '" ++ invalidStyle.apply c o.display ++ "' but none was supplied"
    else
      "invalid value '" ++ invalidStyle.apply c v ++ "' for '" ++ literalStyle.apply c o.display ++
        "'") ++ allowedList c "possible values" o.choices
  | .givenTwice o =>
    "the argument '" ++ invalidStyle.apply c o.display ++ "' cannot be used multiple times"
  | .valueForSwitch o v =>
    "unexpected value '" ++ invalidStyle.apply c v ++ "' for '" ++ literalStyle.apply c o.display ++
      "' found; no more were expected"
  | .noCommand names =>
    "'" ++ invalidStyle.apply c program ++ "' requires a subcommand but one was not provided" ++
      allowedList c "subcommands" names

/-- **A refusal of a call**: what was wrong, tips, the usage to show, and
whether to point at `--help`, which the `help` command itself lacks. -/
structure Refusal where
  complaint : Complaint
  tips : List Tip := []
  usage : Option UsageLine := none
  pointsToHelp : Bool := true
  deriving DecidableEq, Repr

/-- **The text of a refusal.** -/
def Refusal.render (c : Bool) (r : Refusal) : String :=
  let tips := if r.tips.isEmpty then "" else
    "\n" ++ String.join (r.tips.map fun t => "\n  " ++ validStyle.apply c "tip:" ++ " " ++ t.render c)
  let usage := match r.usage with
    | some u => "\n\n" ++ headerStyle.apply c "Usage:" ++ " " ++ u.render c
    | none => ""
  let pointer := if r.pointsToHelp then
      "\n\nFor more information, try '" ++ literalStyle.apply c "--help" ++ "'.\n"
    else "\n"
  errorStyle.apply c "error:" ++ " " ++ r.complaint.render c ++ tips ++ usage ++ pointer

/-- An argument that means nothing where it stands. -/
def unexpected (arg : String) (tips : List Tip) (usage : UsageLine) : Refusal :=
  { complaint := .unexpected arg, tips, usage := some usage }

/-- A command name that is not one. -/
def unknownCommand (name : String) (tips : List Tip) (usage : UsageLine) : Refusal :=
  { complaint := .unknownCommand name, tips, usage := some usage }

/-- A value an option does not allow, with the most similar allowed one. -/
def badValue (o : Opt) (v : String) : Refusal :=
  { complaint := .badValue o v, tips := similarTips "value" (Text.mostSimilar v o.choices).toList }

/-- An option given twice. -/
def givenTwice (o : Opt) (usage : UsageLine) : Refusal :=
  { complaint := .givenTwice o, usage := some usage }

/-- A value attached to a switch. -/
def valueForSwitch (o : Opt) (v : String) (usage : UsageLine) : Refusal :=
  { complaint := .valueForSwitch o v, usage := some usage }

/-- A call of the top level without a command. -/
def noCommand (lv : Level) : Refusal :=
  { complaint := .noCommand lv.commandNames, usage := some (lv.usageLine []) }

example : (top.usageLine []).render false = "print-order [OPTIONS] <COMMAND>" ∧
    (orderLevel.usageLine []).render false = "print-order order [OPTIONS]" := by
  decide

end Cli

end ReadingOrder
