import ReadingOrder.Volume.Basic
import ReadingOrder.Error
/-!
# Reading paths in a volume

A path is read piece by piece from the root, when it starts with a slash,
or from the current directory. A `.` piece stays, a `..` piece goes to the
directory above the place reached so far (which is a real place, links
already followed), and a name looks up an entry. A symbolic link met before
the last piece is always followed: its target is read from the directory
holding the link, or from the root when it is absolute, and the rest of the
path continues from where the target leads. A link as the last piece is
followed or not, as the caller asks. At most forty links are followed in
one reading; the next one fails with `tooManyLinks`.

A name longer than `nameMax` bytes fails with `nameTooLong` when the reading
reaches it, and so does a whole path of `pathMax` bytes or more; a path with
a NUL byte is refused with `nulByte` before anything else.

A missing entry fails with `notFound`, unless it is the last piece: then the
reading reports the directory where it would be, which is where files and
directories are created. A file before the last piece fails with
`notADirectory`, and a trailing slash asks for a directory.

Writing a file reads its path in its own way (`writePlace`): a path whose
last name has a slash after it, even in the target of a link, names a
directory and is refused as one, whatever is there.

On top of that reading stand the few operations planning and the command
line use: the kind of what a path leads to, reading a file, listing a
directory, writing a file, and making directories and links.
-/

namespace ReadingOrder

/-- **Where the reading of a path ends**: at a place and what it holds, or
at a missing entry of an existing directory. -/
inductive Reached where
  | node (place : Place) (n : Node)
  | absent (dir : Place) (name : String)
  deriving DecidableEq, Repr

/-- **What a path leads to**, links followed. -/
inductive Kind where
  | file (content : String)
  | dir
  deriving DecidableEq, Repr

namespace Volume

/-- The pieces of a path: the texts between slashes, empty ones dropped, and
a `.` at the end when the path ends in a slash, so that it asks for a
directory. -/
def pieces (s : String) : List String :=
  let ps := (Path.splitSlash s.toList).filterMap fun p =>
    if p.isEmpty then none else some (String.ofList p)
  if s.toList.getLast? == some '/' && !ps.isEmpty then ps ++ ["."] else ps

/-- The longest name an entry may have, in bytes. -/
def nameMax : Nat := 255

/-- The length in bytes from which a whole path is refused. -/
def pathMax : Nat := 4096

/-- **Reads pieces from a place.** `links` is how many more links may be
followed; the answer comes with how many are left. -/
def walk (v : Volume) (followLast : Bool) (links : Nat) (here : Place) (ps : List String) :
    Except OsError (Reached × Nat) :=
  match ps with
  | [] => .ok (.node here .dir, links)
  | p :: rest =>
    if p = "." then walk v followLast links here rest
    else if p = ".." then walk v followLast links here.dropLast rest
    else if p.utf8ByteSize > nameMax then .error .nameTooLong
    else
      let place := here ++ [p]
      match v.lookup place with
      | none => if rest.isEmpty then .ok (.absent here p, links) else .error .notFound
      | some .dir => walk v followLast links place rest
      | some (.file c) =>
        if rest.isEmpty then .ok (.node place (.file c), links) else .error .notADirectory
      | some (.link t) =>
        if rest.isEmpty && !followLast then .ok (.node place (.link t), links)
        else
          match links with
          | 0 => .error .tooManyLinks
          | k + 1 => walk v followLast k (if Path.isAbsolute t then [] else here) (pieces t ++ rest)
termination_by (links, ps.length)

/-- Why a path is refused before it is read, if it is: a NUL byte cannot be
passed to the file system, and a path of `pathMax` bytes or more is too
long. -/
def refusal? (s : String) : Option OsError :=
  if s.toList.contains '\x00' then some .nulByte
  else if s.utf8ByteSize ≥ pathMax then some .nameTooLong
  else none

/-- Where the reading of a path starts: the root or the current directory. -/
def start (v : Volume) (s : String) : Place :=
  if Path.isAbsolute s then [] else v.cwd

/-- **Reads a path.** The empty path leads nowhere, and a path `refusal?`
refuses is not read. -/
def resolve (v : Volume) (s : String) (followLast : Bool) : Except OsError Reached :=
  if s.isEmpty then .error .notFound
  else match refusal? s with
    | some e => .error e
    | none => (walk v followLast 40 (v.start s) (pieces s)).map Prod.fst

/-- **What a path leads to**, links followed to the end. -/
def metadata (v : Volume) (s : String) : Except OsError Kind :=
  match v.resolve s true with
  | .ok (.node _ (.file c)) => .ok (.file c)
  | .ok (.node _ .dir) => .ok .dir
  | .ok _ => .error .notFound
  | .error e => .error e

/-- Whether a path leads to something. -/
def «exists» (v : Volume) (s : String) : Bool :=
  (v.metadata s).toOption.isSome

/-- Whether a path leads to a regular file. -/
def isFile (v : Volume) (s : String) : Bool :=
  match v.metadata s with
  | .ok (.file _) => true
  | _ => false

/-- Whether a path leads to a directory. -/
def isDir (v : Volume) (s : String) : Bool :=
  match v.metadata s with
  | .ok .dir => true
  | _ => false

/-- **The text of a file**; a directory cannot be read as one. -/
def readFile (v : Volume) (s : String) : Except OsError String :=
  match v.metadata s with
  | .ok (.file c) => .ok c
  | .ok .dir => .error .isADirectory
  | .error e => .error e

/-- The text of a file, if it can be read. -/
def fileText? (v : Volume) (s : String) : Option String :=
  (v.readFile s).toOption

/-- **The entries of a directory** and the place the path leads to. -/
def listDir (v : Volume) (s : String) : Except OsError (Place × List (String × Node)) :=
  match v.resolve s true with
  | .ok (.node p .dir) => .ok (p, v.entries p)
  | .ok (.node _ _) => .error .notADirectory
  | .ok (.absent ..) => .error .notFound
  | .error e => .error e


/-- A path without its trailing slashes, unless that leaves nothing. -/
def trimSlashes (s : String) : String :=
  let t := (s.toList.reverse.dropWhile (· = '/')).reverse
  if t.isEmpty then s else String.ofList t

/-- The names of a path, empty ones and a final slash dropped, and whether it
ends in a slash after a name. -/
def names (s : String) : List String × Bool :=
  let ps := (Path.splitSlash s.toList).filterMap fun p =>
    if p.isEmpty then none else some (String.ofList p)
  (ps, s.toList.getLast? == some '/' && !ps.isEmpty)

/-- **Where a write lands**, found as opening with creation finds it: the
names before the last are read, links followed; then a last name with a
slash after it, `.`, `..` or a directory cannot be written, a missing name
is where the file is made, a file is where it is overwritten, and a link is
followed, its target read the same way from the link's directory. At most
`fuel` links are followed here, and `links` in all. -/
def writePlaceAux (v : Volume) : Nat → Nat → Place → List String → Bool → Except OsError Place
  | 0, _, _, _, _ => .error .tooManyLinks
  | fuel + 1, links, here, ps, slash =>
    match ps.getLast? with
    | none => .error .isADirectory
    | some last =>
      match v.walk true links here ps.dropLast with
      | .error e => .error e
      | .ok (.absent .., _) => .error .notFound
      | .ok (.node _ (.file _), _) => .error .notADirectory
      | .ok (.node _ (.link _), _) => .error .notFound
      | .ok (.node dir .dir, left) =>
        if slash || last = "." || last = ".." then .error .isADirectory
        else if last.utf8ByteSize > nameMax then .error .nameTooLong
        else
          match v.lookup (dir ++ [last]) with
          | none => .ok (dir ++ [last])
          | some (.file _) => .ok (dir ++ [last])
          | some .dir => .error .isADirectory
          | some (.link t) =>
            match left with
            | 0 => .error .tooManyLinks
            | k + 1 =>
              let (tps, tslash) := names t
              writePlaceAux v fuel k (if Path.isAbsolute t then [] else dir) tps tslash

/-- **Where writing a path lands**, or why it cannot be written. -/
def writePlace (v : Volume) (s : String) : Except OsError Place :=
  if s.isEmpty then .error .notFound
  else match refusal? s with
    | some e => .error e
    | none =>
      let (ps, slash) := names s
      writePlaceAux v 41 40 (v.start s) ps slash

/-- **Writes a file**, creating it if it is missing, where `writePlace`
says the text lands. -/
def writeFile (v : Volume) (s : String) (content : String) : Except OsError Volume :=
  (v.writePlace s).map fun place => v.put place (.file content)

/-- Makes a new entry at a path whose last piece must be missing. -/
def create (v : Volume) (s : String) (n : Node) : Except OsError Volume :=
  match v.resolve (trimSlashes s) false with
  | .ok (.absent d name) => .ok (v.put (d ++ [name]) n)
  | .ok (.node ..) => .error .alreadyExists
  | .error e => .error e

/-- **Makes a directory.** -/
def makeDir (v : Volume) (s : String) : Except OsError Volume :=
  v.create s .dir

/-- **Makes a symbolic link** at `s` with the given target text. -/
def makeLink (v : Volume) (s : String) (target : String) : Except OsError Volume :=
  v.create s (.link target)

/-- Makes the directory of the components `cs`, and first those above it
when they are missing; an existing directory is fine. -/
def makeDirsAux (v : Volume) : List Component → Except OsError Volume
  | [] => .ok v
  | c :: rest =>
    let cs := c :: rest
    let s := Path.render cs
    match v.makeDir s with
    | .ok v' => .ok v'
    | .error .notFound =>
      match (v.makeDirsAux cs.dropLast) with
      | .error e => .error e
      | .ok v' =>
        match v'.makeDir s with
        | .ok v'' => .ok v''
        | .error e => if v'.isDir s then .ok v' else .error e
    | .error e => if v.isDir s then .ok v else .error e
termination_by cs => cs.length
decreasing_by all_goals simp

/-- **Makes a directory and every missing directory above it.** -/
def makeDirs (v : Volume) (s : String) : Except OsError Volume :=
  if s.isEmpty then .ok v else v.makeDirsAux (Path.components s)

end Volume

end ReadingOrder

namespace ReadingOrder

namespace Volume

/-- **A volume laid out below a directory `base`**: the directory itself,
then each file with its text, each directory, and each link with its target,
all given relative to `base`, every missing directory above them made on
the way. An item that cannot be made is left out. The current directory is
`base`. -/
def layout (base : String) (files : List (String × String)) (dirs : List String)
    (links : List (String × String)) : Volume :=
  let keep (v : Volume) (r : Except OsError Volume) : Volume := r.toOption.getD v
  let under (rel : String) : String := Path.join base rel
  let v := keep empty (empty.makeDirs base)
  let v := files.foldl (fun v (rel, text) =>
    let v := keep v (v.makeDirs ((Path.parent? (under rel)).getD ""))
    keep v (v.writeFile (under rel) text)) v
  let v := dirs.foldl (fun v rel => keep v (v.makeDirs (under rel))) v
  let v := links.foldl (fun v (rel, target) =>
    let v := keep v (v.makeDirs ((Path.parent? (under rel)).getD ""))
    keep v (v.makeLink (under rel) target)) v
  let cwd := match v.resolve base true with
    | .ok (.node p .dir) => p
    | _ => []
  { v with cwd }

end Volume

end ReadingOrder
