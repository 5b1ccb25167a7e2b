import ReadingOrder.Json.Error
/-!
# Reading JSON text

The pieces a reader of JSON text is built from: a cursor over the text that
knows its line and its column in bytes, blanks (space, tab, line feed and
carriage return only), literals, and strings with their escapes.

Every failure names where it was noticed. Most are placed at the cursor,
after the character that gave the reader pause; failures noticed on a
character not yet taken are placed one byte further (`failAhead`), so that a
line feed there puts them at the start of the next line, and at the end of
the text they stay at its end.

Strings accept the two-character escapes `\" \\ \/ \b \f \n \r \t` and
`\uXXXX`; a character outside the basic plane is a pair of escapes, leading
surrogate then trailing surrogate, and a surrogate without its partner is an
error. A raw control character below U+0020 is an error.
-/

namespace ReadingOrder.Json

/-- **A position in a text**: what is left, the line and the column in bytes. -/
structure Cursor where
  rest : List Char
  line : Nat := 1
  column : Nat := 0
  deriving DecidableEq, Repr

/-- Steps over one character. -/
def Cursor.step (c : Cursor) : Cursor :=
  match c.rest with
  | [] => c
  | ch :: rest =>
    if ch = '\n' then ⟨rest, c.line + 1, 0⟩ else ⟨rest, c.line, c.column + ch.utf8Size⟩

/-- Steps over the rest of the text. -/
def Cursor.toEnd (c : Cursor) : Cursor :=
  c.rest.foldl (fun c _ => c.step) c

/-- The position `n` bytes further, if the text has that many bytes left; a
character may be cut in the middle. -/
def Cursor.afterBytes : Nat → Cursor → Option (Nat × Nat)
  | 0, c => some (c.line, c.column)
  | n + 1, c =>
    match c.rest with
    | [] => none
    | ch :: _ =>
      if ch.utf8Size ≤ n + 1 then Cursor.afterBytes (n + 1 - ch.utf8Size) c.step
      else some (c.line, c.column + n + 1)
termination_by n => n
decreasing_by all_goals (have h := ch.utf8Size_pos; omega)

/-- **A reader**: a computation over a cursor that may fail with an error. -/
abbrev Reader := StateT Cursor (Except Error)

namespace Reader

/-- The next character, not taken. -/
def peek : Reader (Option Char) :=
  return (← get).rest.head?

/-- Takes the next character. -/
def eat : Reader Unit :=
  modify Cursor.step

/-- The position of the cursor. -/
def position : Reader (Nat × Nat) := do
  let c ← get
  return (c.line, c.column)

/-- The position one byte further, or at the end of the text. -/
def positionAhead : Reader (Nat × Nat) := do
  let c ← get
  match c.rest with
  | [] => return (c.line, c.column)
  | '\n' :: _ => return (c.line + 1, 0)
  | _ :: _ => return (c.line, c.column + 1)

/-- Fails at the cursor. -/
def fail {α : Type} (s : Syntax) : Reader α := do
  throw ⟨.inl s, some (← position)⟩

/-- Fails one byte ahead of the cursor. -/
def failAhead {α : Type} (s : Syntax) : Reader α := do
  throw ⟨.inl s, some (← positionAhead)⟩

/-- Fails with a value of the wrong type, at the cursor. -/
def wrongType {α : Type} (found : Found) (expected : String) : Reader α := do
  throw ⟨.inr (.invalidType found expected), some (← position)⟩

/-- The fuel a loop over the rest of the text needs: one step more than
there are characters left. -/
def fuel : Reader Nat := do
  return (← get).rest.length + 1

/-- Whether a character is a JSON blank. -/
def isBlank (c : Char) : Bool :=
  c == ' ' || c == '\n' || c == '\t' || c == '\r'

/-- Skips blanks, then looks at the next character. -/
def skipBlanksAux : Nat → Reader (Option Char)
  | 0 => peek
  | n + 1 => do
    match ← peek with
    | some c => if isBlank c then do eat; skipBlanksAux n else return some c
    | none => return none

/-- **Skips blanks**, then looks at the next character. -/
def skipBlanks : Reader (Option Char) := do
  skipBlanksAux (← fuel)

/-- **Reads the rest of a literal** whose first character is already taken.
A wrong character is taken one byte only, so the failure is placed one byte
past where it starts. -/
def literal : List Char → Reader Unit
  | [] => return ()
  | c :: cs => do
    match ← peek with
    | none => fail .eofWhileParsingValue
    | some d => if d = c then do eat; literal cs else failAhead .expectedSomeIdent

/-- The value of an ASCII hex digit. -/
def hexValue? (c : Char) : Option Nat :=
  if '0' ≤ c ∧ c ≤ '9' then some (c.toNat - 48)
  else if 'a' ≤ c ∧ c ≤ 'f' then some (c.toNat - 87)
  else if 'A' ≤ c ∧ c ≤ 'F' then some (c.toNat - 55)
  else none

/-- **Reads the four hex digits of a `\u` escape.** Four bytes are taken
whatever they are; if they are not all hex digits the escape is invalid, and
if fewer than four are left the string ends too early. -/
def hex4 : Reader Nat := do
  let c ← get
  match c.rest with
  | a :: b :: d :: e :: rest =>
    match hexValue? a, hexValue? b, hexValue? d, hexValue? e with
    | some w, some x, some y, some z =>
      set { c with rest, column := c.column + 4 }
      return ((w * 16 + x) * 16 + y) * 16 + z
    | _, _, _, _ => invalid c
  | _ => invalid c
where
  invalid (c : Cursor) : Reader Nat :=
    match c.afterBytes 4 with
    | some pos => throw ⟨.inl .invalidEscape, some pos⟩
    | none => do
      set c.toEnd
      fail .eofWhileParsingString

/-- Reads a `\u` escape, and the second one of a surrogate pair. -/
def unicodeEscape : Reader Char := do
  let n ← hex4
  if 0xDC00 ≤ n ∧ n ≤ 0xDFFF then fail .loneLeadingSurrogateInHexEscape
  else if n < 0xD800 ∨ n > 0xDBFF then return Char.ofNat n
  else
    match ← peek with
    | none => fail .eofWhileParsingString
    | some '\\' => eat
    | some _ => failAhead .unexpectedEndOfHexEscape
    match ← peek with
    | none => fail .eofWhileParsingString
    | some 'u' => eat
    | some _ => failAhead .unexpectedEndOfHexEscape
    let m ← hex4
    if m < 0xDC00 ∨ m > 0xDFFF then fail .loneLeadingSurrogateInHexEscape
    else return Char.ofNat ((n - 0xD800) * 0x400 + (m - 0xDC00) + 0x10000)

/-- The character a two-character escape stands for. -/
def simpleEscape? : Char → Option Char
  | '"' => some '"'
  | '\\' => some '\\'
  | '/' => some '/'
  | 'b' => some '\x08'
  | 'f' => some '\x0c'
  | 'n' => some '\n'
  | 'r' => some '\r'
  | 't' => some '\t'
  | _ => none

/-- Reads the escape after a backslash. An unknown escape character is taken
one byte only. -/
def escape : Reader Char := do
  match ← peek with
  | none => fail .eofWhileParsingString
  | some c =>
    match simpleEscape? c with
    | some r => do eat; return r
    | none => if c = 'u' then do eat; unicodeEscape else failAhead .invalidEscape

/-- Reads string characters up to the closing quote. -/
def stringAux : Nat → List Char → Reader String
  | 0, acc => return String.ofList acc.reverse
  | n + 1, acc => do
    match ← peek with
    | none => fail .eofWhileParsingString
    | some '"' => do eat; return String.ofList acc.reverse
    | some '\\' => do
      eat
      let c ← escape
      stringAux n (c :: acc)
    | some c =>
      eat
      if c.toNat < 0x20 then fail .controlCharacterWhileParsingString
      else stringAux n (c :: acc)

/-- **Reads a string** whose opening quote is already taken. -/
def string : Reader String := do
  stringAux (← fuel) []

/-- Skips the escape after a backslash, without judging surrogates. -/
def skipEscape : Reader Unit := do
  match ← peek with
  | none => fail .eofWhileParsingString
  | some c =>
    if (simpleEscape? c).isSome then eat
    else if c = 'u' then do
      eat
      let _ ← hex4
      return ()
    else failAhead .invalidEscape

/-- Skips string characters up to the closing quote. A control character
stops the skip before it is taken. -/
def skipStringAux : Nat → Reader Unit
  | 0 => return ()
  | n + 1 => do
    match ← peek with
    | none => fail .eofWhileParsingString
    | some '"' => eat
    | some '\\' => do
      eat
      skipEscape
      skipStringAux n
    | some c =>
      if c.toNat < 0x20 then fail .controlCharacterWhileParsingString
      else do eat; skipStringAux n

/-- **Skips a string** whose opening quote is already taken. -/
def skipString : Reader Unit := do
  skipStringAux (← fuel)

end Reader

end ReadingOrder.Json
