import ReadingOrder.Json.Value
/-!
# Writing JSON text

Strings are written between double quotes. Inside, the quote and the
backslash get a backslash, the five controls backspace, form feed, line feed,
carriage return and tab get their one-letter escapes, every other character
below U+0020 is written `\u00xx` in lowercase hex, and everything else,
delete and all non-ASCII characters included, stands as it is.

`Value.pretty` lays a value out over lines: each array element and object
member on a line of its own, indented two spaces per level, a colon and a
space after each key, and an empty array or object written `[]` or `{}`.
Numbers are written in decimal; only natural numbers occur in what this
library writes.
-/

namespace ReadingOrder.Json

/-- The hex digit of a number below sixteen, in lowercase. -/
def hexDigit (n : Nat) : Char :=
  if n < 10 then Char.ofNat (48 + n) else Char.ofNat (87 + n)

/-- **How one character is written inside a string.** -/
def escapeChar (c : Char) : List Char :=
  if c = '"' then ['\\', '"']
  else if c = '\\' then ['\\', '\\']
  else if c = '\n' then ['\\', 'n']
  else if c = '\r' then ['\\', 'r']
  else if c = '\t' then ['\\', 't']
  else if c = '\x08' then ['\\', 'b']
  else if c = '\x0c' then ['\\', 'f']
  else if c.toNat < 0x20 then ['\\', 'u', '0', '0', hexDigit (c.toNat / 16), hexDigit (c.toNat % 16)]
  else [c]

/-- A string written as a JSON string, quotes included. -/
def quote (s : String) : String :=
  String.ofList ('"' :: s.toList.flatMap escapeChar ++ ['"'])

/-- The text of a number. -/
def Number.text : Number → String
  | .nat n => toString n
  | .neg n => toString n
  | .float x => toString x

/-- Two spaces per level of nesting. -/
def indent (level : Nat) : String :=
  String.ofList (List.replicate (2 * level) ' ')

mutual

/-- **A value laid out over lines**, its first line not indented and its
inner lines indented below `level`. -/
def Value.prettyAt (level : Nat) : Value → String
  | .null => "null"
  | .bool b => if b then "true" else "false"
  | .num n => n.text
  | .str s => quote s
  | .arr [] => "[]"
  | .arr (x :: xs) => "[\n" ++ prettyItems (level + 1) (x :: xs) ++ "\n" ++ indent level ++ "]"
  | .obj [] => "{}"
  | .obj (m :: ms) => "\x7b\n" ++ prettyMembers (level + 1) (m :: ms) ++ "\n" ++ indent level ++ "\x7d"

/-- Array elements, one per line, separated by commas. -/
def prettyItems (level : Nat) : List Value → String
  | [] => ""
  | [x] => indent level ++ x.prettyAt level
  | x :: xs => indent level ++ x.prettyAt level ++ ",\n" ++ prettyItems level xs

/-- Object members, one per line, separated by commas. -/
def prettyMembers (level : Nat) : List (String × Value) → String
  | [] => ""
  | [(k, v)] => indent level ++ quote k ++ ": " ++ v.prettyAt level
  | (k, v) :: ms => indent level ++ quote k ++ ": " ++ v.prettyAt level ++ ",\n" ++ prettyMembers level ms

end

/-- **A value laid out over lines**, starting at the left margin. -/
def Value.pretty (v : Value) : String :=
  v.prettyAt 0

example : quote "a\"b\\c\x01é" = "\"a\\\"b\\\\c\\u0001é\"" := by decide

end ReadingOrder.Json
