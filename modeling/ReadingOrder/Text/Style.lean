/-!
# Terminal text styles

A style makes text bold, dim or underlined, and may give it one of the
eight basic colours. On a terminal that shows colours a styled text is
written between escape sequences: one for each effect, in the order bold,
dim, underline, then one for the colour, the text, and one sequence that
resets everything. Plain text, and any text when colours are off, is
written as it is.
-/

namespace ReadingOrder.Text

/-- **The eight basic terminal colours**, in their standard order. -/
inductive Color where
  | black
  | red
  | green
  | yellow
  | blue
  | magenta
  | cyan
  | white
  deriving DecidableEq, Repr

/-- The number of a colour, from 0 for black to 7 for white. -/
def Color.code : Color → Nat
  | .black => 0
  | .red => 1
  | .green => 2
  | .yellow => 3
  | .blue => 4
  | .magenta => 5
  | .cyan => 6
  | .white => 7

/-- **A text style.** -/
structure Style where
  bold : Bool := false
  dim : Bool := false
  underline : Bool := false
  color : Option Color := none
  deriving DecidableEq, Repr

namespace Style

/-- The escape sequence that selects one effect or colour. -/
def escape (n : Nat) : String :=
  "\x1b[" ++ toString n ++ "m"

/-- The sequences that turn the style on, effects before the colour. -/
def start (st : Style) : String :=
  (if st.bold then escape 1 else "") ++ (if st.dim then escape 2 else "") ++
    (if st.underline then escape 4 else "") ++
    match st.color with
    | some c => escape (30 + c.code)
    | none => ""

/-- **Writes a text in a style**, when colours are on and the style is not
plain. -/
def apply (st : Style) (on : Bool) (s : String) : String :=
  if on && st != {} then st.start ++ s ++ escape 0 else s

end Style

example : Style.apply { bold := true, color := some .red } true "error:" =
    "\x1b[1m\x1b[31merror:\x1b[0m" ∧ Style.apply {} true "x" = "x" := by
  decide

end ReadingOrder.Text
