import ReadingOrder.Cli.Grammar
import ReadingOrder.Listing
/-!
# Reading the command line

The arguments are read level by level, left to right. On the top level the
first command name ends the level and the rest belongs to the command; on a
command's level every argument is an option, an option's value, or a
mistake. `help` names the levels whose help to show instead.

An option that takes a value and has none attached waits for the next
argument; that argument is its value unless it is itself an option or comes
after `--`, so even a command name can be a value. A waiting value is
checked only when the next option is met or the level ends, so a later
argument that means nothing is reported first. An option given twice on one
level is refused; `--config` and `--verbose` may be given on both levels, and
the command's level wins. `--rules` comes from `PRINT_ORDER_RULES` when it is
not given.

A call with no argument at all shows the help, as a refusal.

Reading ends with a call to run, or with a `Stop`: a help or the version to
show, or a refusal. A stop is data; `Stop.outcome` writes it.
-/

namespace ReadingOrder

namespace Cli

/-- **What a command does**, with its options. -/
inductive Action where
  /-- Prints or writes the files in order. -/
  | order (rules : Option String) (format : ListingFormat) (output : Option String)
  /-- Draws the directory tree. -/
  | tree (rules : Option String) (files : Bool) (label : Option String) (output : Option String)
  /-- Shows the rules. -/
  | rules (rules : Option String) (json : Bool)
  deriving DecidableEq, Repr

/-- **How reading the command line ends the program** instead of a call. -/
inductive Stop where
  /-- The help of a level. -/
  | help (lv : Level)
  /-- The help of the `help` command. -/
  | helpOfHelp
  /-- The version. -/
  | version
  /-- A call with no argument at all: the top level's help, as a refusal. -/
  | bare
  /-- A refusal. -/
  | refusal (r : Refusal)
  deriving DecidableEq, Repr

/-- **What the program prints when it stops**, styled when `c`. -/
def Stop.outcome (env : Env) (c : Bool) : Stop → Outcome
  | .help lv => { status := 0, stdout := lv.helpText env c }
  | .helpOfHelp => { status := 0, stdout := helpCommandText c }
  | .version => { status := 0, stdout := versionText }
  | .bare => { status := 2, stderr := top.helpText env c }
  | .refusal r => { status := 2, stderr := r.render c }

/-- **A call of the program**: the tool configuration's path, the verbosity,
and the command. -/
structure Invocation where
  config : String
  verbose : Bool
  action : Action
  deriving DecidableEq, Repr

/-- **The reading of one level**: the options given, with their values, in
the order given; an option waiting for its value; whether `--` was met. -/
structure Scan where
  given : List (Opt × String) := []
  pending : Option (Opt × List String) := none
  afterDashes : Bool := false

namespace Scan

/-- Whether an option was given. -/
def has (s : Scan) (o : Opt) : Bool :=
  s.given.any (·.1.id == o.id)

/-- The value given to an option. -/
def lookup (s : Scan) (id : String) : Option String :=
  (s.given.find? (·.1.id == id)).map Prod.snd

/-- The options given, counting a waiting option that has its value. An option
given a second time is dropped. -/
def settled (s : Scan) : List Opt :=
  let given := s.given.map Prod.fst
  match s.pending with
  | some (o, _ :: _) => if s.has o then given.filter (·.id != o.id) else given ++ [o]
  | _ => given

end Scan

/-- Why a value is not allowed, if it is not. -/
def checkValue (o : Opt) (v : String) : Option Refusal :=
  if !o.choices.isEmpty && !o.choices.contains v then some (badValue o v)
  else if o.path && v.isEmpty then some (badValue o "")
  else none

/-- **Takes an option with its values.** Help and version end the reading. -/
def accept (lv : Level) (s : Scan) (o : Opt) (vals : List String) : Except Stop Scan :=
  match o.effect with
  | .help => .error (.help lv)
  | .version => .error .version
  | .flag =>
    if s.has o then .error (.refusal (givenTwice o (lv.usageLine [])))
    else .ok { s with given := s.given ++ [(o, "true")] }
  | .value _ =>
    match vals with
    | [] => .error (.refusal (badValue o ""))
    | v :: _ =>
      if s.has o then .error (.refusal (givenTwice o (lv.usageLine [])))
      else
        match checkValue o v with
        | some r => .error (.refusal r)
        | none => .ok { s with given := s.given ++ [(o, v)] }

/-- Takes the waiting option, if any. -/
def resolve (lv : Level) (s : Scan) : Except Stop Scan :=
  match s.pending with
  | none => .ok s
  | some (o, vals) => accept lv { s with pending := none } o vals

/-- The tip for an option that belongs to a command named later on the line. -/
def commandTip (lv : Level) (name : String) (rest : List String) : List Tip :=
  let found := lv.commandNames.filterMap fun c => do
    let sub ← commandLevel? c
    let flag ← Text.mostSimilar name (sub.opts.map (·.long))
    let pos ← rest.findIdx? (· == c)
    return (pos, c, flag)
  let best := found.foldl (fun best x => match best with
    | some b => if x.1 < b.1 then some x else some b
    | none => some x) none
  match best with
  | some (_, c, flag) => [.laterCommand c flag]
  | none => []

/-- **An unknown long option**, with the most similar one as a tip. -/
def unknownLong (lv : Level) (s : Scan) (name : String) (rest : List String) : Refusal :=
  let used := s.settled
  match Text.mostSimilar name (lv.opts.map (·.long)) with
  | some l =>
    let extra := match lv.findLong l with
      | some o => if used.any (·.id == o.id) then [] else [o]
      | none => []
    unexpected ("--" ++ name) (similarTips "argument" ["--" ++ l]) (lv.usageLine (used ++ extra))
  | none => unexpected ("--" ++ name) (commandTip lv name rest) (lv.usageLine used)

/-- **An argument that is neither an option nor a value.** -/
def stray (lv : Level) (s : Scan) (arg : String) : Refusal :=
  if s.afterDashes && lv.commandNames.contains arg then
    unexpected arg [.dashesBefore arg] (lv.usageLine [])
  else if lv.commands.isEmpty then unexpected arg [] (lv.usageLine [])
  else unknownCommand arg (similarTips "subcommand" (Text.similar arg lv.commandNames))
    (lv.usageLine [])

/-- **Reads a long option** `--name` or `--name=value`. -/
def longOption (lv : Level) (s : Scan) (name : String) (attached : Option String)
    (rest : List String) : Except Stop Scan :=
  match lv.findLong name with
  | none => .error (.refusal (unknownLong lv s name rest))
  | some o =>
    if o.takesValue then
      match attached with
      | some v => do
        let s ← resolve lv s
        accept lv s o [v]
      | none => do
        let s ← resolve lv s
        .ok { s with pending := some (o, []) }
    else
      match attached with
      | some v =>
        let given := s.given.map Prod.fst
        let used := if s.has o then given else given ++ [o]
        .error (.refusal (valueForSwitch o v (lv.usageLine used (lv.groupGiven given))))
      | none => do
        let s ← resolve lv s
        accept lv s o []

/-- **Reads a group of short options** `-vh`, `-ofile`, `-o=file`. -/
def shortOptions (lv : Level) : Scan → List Char → Except Stop Scan
  | s, [] => .ok s
  | s, c :: rest =>
    match lv.findShort c with
    | none => .error (.refusal (unexpected ("-" ++ c.toString) [] (lv.usageLine [])))
    | some o =>
      if !o.takesValue then do
        let s ← resolve lv s
        let s ← accept lv s o []
        shortOptions lv s rest
      else do
        let s ← resolve lv s
        match rest with
        | [] => .ok { s with pending := some (o, []) }
        | '=' :: more => accept lv s o [String.ofList more]
        | more => accept lv s o [String.ofList more]

/-- Splits `name=value` at its first `=`. -/
def splitAttached (cs : List Char) : String × Option String :=
  match cs.findIdx? (· == '=') with
  | some i => (String.ofList (cs.take i), some (String.ofList (cs.drop (i + 1))))
  | none => (String.ofList cs, none)

/-- **Reads the arguments of a level**, up to the end or to a command name,
which is answered with the arguments after it. -/
def scanLevel (lv : Level) : Scan → List String →
    Except Stop (Scan × Option (String × List String))
  | s, [] => .ok (s, none)
  | s, arg :: rest =>
    match s.afterDashes, arg.toList with
    | false, ['-', '-'] => scanLevel lv { s with afterDashes := true } rest
    | false, '-' :: '-' :: body => do
      let (name, attached) := splitAttached body
      let s ← longOption lv s name attached rest
      scanLevel lv s rest
    | false, '-' :: c :: cs => do
      let s ← shortOptions lv s (c :: cs)
      scanLevel lv s rest
    | false, _ =>
      match s.pending with
      | some (o, []) => scanLevel lv { s with pending := some (o, [arg]) } rest
      | _ =>
        if lv.commandNames.contains arg then .ok (s, some (arg, rest))
        else .error (.refusal (stray lv s arg))
    | true, _ => .error (.refusal (stray lv s arg))

/-- **The `help` command**: the help of the level its arguments name. -/
def helpCommand : List String → Stop
  | [] => .help top
  | "help" :: more =>
    match more with
    | [] => .helpOfHelp
    | x :: _ => .refusal { unknownCommand x [] helpCommandUsage with pointsToHelp := false }
  | name :: more =>
    match commandLevel? name with
    | some lv =>
      match more with
      | [] => .help lv
      | x :: _ => .refusal (unknownCommand x [] (lv.usageLine []))
    | none => .refusal (unknownCommand name [] (top.usageLine []))

/-- Takes the options that the environment gives and the line did not. -/
def fromEnv (lv : Level) (env : Env) (s : Scan) : Except Stop Scan :=
  lv.opts.foldlM (fun s o =>
    match o.env with
    | some name =>
      match env.lookup name with
      | some v =>
        if s.has o then .ok s
        else match checkValue o v with
          | some r => .error (.refusal r)
          | none => .ok { s with given := s.given ++ [(o, v)] }
      | none => .ok s
    | none => .ok s) s

/-- The call that the two levels' readings make. -/
def invocation (name : String) (s t : Scan) : Invocation :=
  let global := fun id => (t.lookup id).orElse fun _ => s.lookup id
  let action := match name with
    | "order" =>
      Action.order (t.lookup "rules") (if t.lookup "format" == some "json" then .json else .text)
        (t.lookup "output")
    | "tree" => .tree (t.lookup "rules") (t.lookup "files").isSome (t.lookup "label")
        (t.lookup "output")
    | _ => .rules (t.lookup "rules") (t.lookup "json").isSome
  { config := (global "config").getD ".print-order.json", verbose := (global "verbose").isSome,
    action }

/-- **Reads the command line**, or says how the program stops instead. -/
def parse (env : Env) (args : List String) : Except Stop Invocation := do
  let (s, command) ← scanLevel top {} args
  match command with
  | none =>
    let s ← resolve top s
    if s.given.isEmpty then .error .bare
    else .error (.refusal (noCommand top))
  | some ("help", rest) => .error (helpCommand rest)
  | some (name, rest) =>
    match commandLevel? name with
    | none => .error (.refusal (unknownCommand name [] (top.usageLine [])))
    | some lv =>
      let (t, _) ← scanLevel lv {} rest
      let t ← resolve lv t
      let t ← fromEnv lv env t
      let s ← resolve top s
      return invocation name s t

end Cli

end ReadingOrder
