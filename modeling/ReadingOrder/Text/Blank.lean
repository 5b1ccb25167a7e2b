/-!
# Blank characters

A blank is a character of the Unicode `White_Space` property: the ASCII
controls from tab to carriage return, the space, next line, no-break space,
ogham space mark, the typographic spaces from en quad to hair space, the line
and paragraph separators, narrow no-break space, medium mathematical space and
ideographic space. These are the characters that separate a keyword from its
argument in a rule file and that trimming removes.

Core's `Char.isWhitespace` knows only the ASCII part of the set, which is why
the table is written out here; `isBlank_of_isWhitespace` says it contains
core's class.
-/

namespace ReadingOrder.Text

/-- **The Unicode `White_Space` characters**, twenty-five code points in
eleven runs. -/
def isBlank (c : Char) : Bool :=
  let n := c.toNat
  (0x09 ≤ n && n ≤ 0x0D) || n == 0x20 || n == 0x85 || n == 0xA0 || n == 0x1680 ||
    (0x2000 ≤ n && n ≤ 0x200A) || n == 0x2028 || n == 0x2029 || n == 0x202F ||
    n == 0x205F || n == 0x3000

/-- Removes blanks from both ends of a list of characters. -/
def trimList (cs : List Char) : List Char :=
  ((cs.dropWhile isBlank).reverse.dropWhile isBlank).reverse

/-- Removes blanks from both ends of a text. -/
def trim (s : String) : String :=
  String.ofList (trimList s.toList)

/-- Lowercases the ASCII letters of a text and leaves every other character
as it is. -/
def asciiLower (s : String) : String :=
  String.ofList (s.toList.map Char.toLower)

/-- Every character core calls whitespace is blank. -/
theorem isBlank_of_isWhitespace (c : Char) (h : c.isWhitespace = true) : isBlank c = true := by
  simp only [Char.isWhitespace, Bool.or_eq_true, decide_eq_true_eq] at h
  simp only [isBlank, Bool.or_eq_true, Bool.and_eq_true, decide_eq_true_eq, beq_iff_eq]
  rcases h with ((h | h) | h) | h <;> subst h <;> decide

/-- The ideographic space and the no-break space are blank; the zero-width
space, which has no width but is not a space, is not. -/
example : isBlank '\u3000' = true ∧ isBlank '\u00A0' = true ∧ isBlank '\u200B' = false := by
  decide

end ReadingOrder.Text
