import ReadingOrder.Cli.Run
/-!
# The command line

`print-order` reads the paths it may see from standard input, one per line as
`find` prints them, relative to the working directory: a path that reads as a
file is a file with its text, any other is a directory. The call runs over
that picture of the disk; what it prints is printed, the files it wrote are
written back, with the directories it made, and its status is the program's.
-/

namespace ReadingOrder

/-- Reads the lines of a stream up to its end, without their line feeds. -/
partial def readLines (h : IO.FS.Stream) (acc : Array String) : IO (Array String) := do
  let line ← h.getLine
  if line.isEmpty then return acc
  let text := String.ofList (line.toList.filter (· != '\n'))
  readLines h (if text.isEmpty then acc else acc.push text)

/-- A path as `find` prints it, without its leading `./`. -/
def listedPath (p : String) : String :=
  match p.toList with
  | '.' :: '/' :: rest => String.ofList rest
  | _ => p

/-- The files and directories named on standard input. -/
def readPicture (paths : Array String) : IO (List (String × String) × List String) := do
  let mut files : List (String × String) := []
  let mut dirs : List String := []
  for p in paths do
    let p := listedPath p
    if p != "." then
      match ← (IO.FS.readFile p).toBaseIO with
      | .ok text => files := files ++ [(p, text)]
      | .error _ => dirs := dirs ++ [p]
  return (files, dirs)

/-- Writes back what a run changed: new directories, then new or changed files. -/
def writeBack (before after : Volume) : IO Unit := do
  for (place, node) in after.nodes do
    if before.lookup place != some node then
      match node with
      | .dir => IO.FS.createDirAll (Volume.placeText place)
      | .file text => IO.FS.writeFile (Volume.placeText place) text
      | .link _ => pure ()

end ReadingOrder

open ReadingOrder in
/-- Runs `print-order` with the arguments given. -/
def main (args : List String) : IO UInt32 := do
  let paths ← readLines (← IO.getStdin) #[]
  let (files, dirs) ← readPicture paths
  let base := (← IO.getEnv "PWD").getD "/"
  let v := Volume.layout base files dirs []
  let mut env : Cli.Env := []
  for name in ["PRINT_ORDER_RULES", "NO_COLOR", "CLICOLOR_FORCE"] do
    if let some value ← IO.getEnv name then env := env ++ [(name, value)]
  let (out, after) := Cli.run v env args
  writeBack v after
  IO.print out.stdout
  IO.eprint out.stderr
  return out.status.toUInt32
