import ReadingOrder.Text.Unicode.GraphemeExtend
import ReadingOrder.Text.Unicode.Printable
/-!
# Quoted text in messages

Error messages show a piece of text between double quotes with every
character that would not read plainly written as an escape: the null
character, tab, carriage return and line feed as `\0`, `\t`, `\r`, `\n`, the
backslash and the double quote with a backslash before them, and every other
character that does not print, or that would attach to what stands before
it, as `\u{...}` with its code point in
lowercase hex. Everything else stands as it is.

The characters escaped beyond ASCII are those of two Unicode tables: the
ones that extend a grapheme, and the ones that do not print, among them the
unassigned code points and every space but the plain one.
-/

namespace ReadingOrder.Text

/-- **Characters that do not read plainly** and are escaped in messages:
those that extend a grapheme, and those that do not print. -/
def isHidden (c : Char) : Bool :=
  isGraphemeExtend c || !isPrintable c

/-- The lowercase hex digits of a number, without leading zeros. -/
def hexDigits (n : Nat) : List Char :=
  (Nat.toDigits 16 n)

/-- **How one character is written inside quotes in a message.** -/
def quotedChar (c : Char) : List Char :=
  if c = '\x00' then ['\\', '0']
  else if c = '\t' then ['\\', 't']
  else if c = '\r' then ['\\', 'r']
  else if c = '\n' then ['\\', 'n']
  else if c = '\\' then ['\\', '\\']
  else if c = '"' then ['\\', '"']
  else if isHidden c then ['\\', 'u', '\x7b'] ++ hexDigits c.toNat ++ ['\x7d']
  else [c]

/-- **A text between double quotes, as messages show it.** -/
def quoted (s : String) : String :=
  String.ofList ('"' :: s.toList.flatMap quotedChar ++ ['"'])

example : quoted "a\tb\"\x01" = "\"a\\tb\\\"\\u{1}\"" := by decide

end ReadingOrder.Text
