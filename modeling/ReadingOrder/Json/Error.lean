import ReadingOrder.Decimal.Shortest
import ReadingOrder.Text.Quoted
/-!
# JSON errors

What can go wrong when JSON text is read into a value of a known shape, and
how each problem is worded. There are two families: the text is not JSON at
all (`Syntax`), or it is JSON of the wrong shape (`Shape`): a value of the
wrong type, an array with too many elements, or a key given twice.

An error read from text carries the line and column where it was noticed,
columns counted in bytes from the start of the line; an error found in a
value that was already read has no position.
-/

namespace ReadingOrder.Json

/-- **The ways JSON text can fail to be JSON.** -/
inductive Syntax where
  | eofWhileParsingList
  | eofWhileParsingObject
  | eofWhileParsingString
  | eofWhileParsingValue
  | expectedColon
  | expectedListCommaOrEnd
  | expectedObjectCommaOrEnd
  | expectedSomeIdent
  | expectedSomeValue
  | invalidEscape
  | invalidNumber
  | numberOutOfRange
  | recursionLimitExceeded
  | controlCharacterWhileParsingString
  | keyMustBeAString
  | loneLeadingSurrogateInHexEscape
  | trailingComma
  | trailingCharacters
  | unexpectedEndOfHexEscape
  deriving DecidableEq, Repr

/-- The wording of a syntax error. -/
def Syntax.message : Syntax → String
  | .eofWhileParsingList => "EOF while parsing a list"
  | .eofWhileParsingObject => "EOF while parsing an object"
  | .eofWhileParsingString => "EOF while parsing a string"
  | .eofWhileParsingValue => "EOF while parsing a value"
  | .expectedColon => "expected `:`"
  | .expectedListCommaOrEnd => "expected `,` or `]`"
  | .expectedObjectCommaOrEnd => "expected `,` or `\x7d`"
  | .expectedSomeIdent => "expected ident"
  | .expectedSomeValue => "expected value"
  | .invalidEscape => "invalid escape"
  | .invalidNumber => "invalid number"
  | .numberOutOfRange => "number out of range"
  | .controlCharacterWhileParsingString =>
    "control character (\\u0000-\\u001F) found while parsing a string"
  | .keyMustBeAString => "key must be a string"
  | .loneLeadingSurrogateInHexEscape => "lone leading surrogate in hex escape"
  | .trailingComma => "trailing comma"
  | .trailingCharacters => "trailing characters"
  | .unexpectedEndOfHexEscape => "unexpected end of hex escape"
  | .recursionLimitExceeded => "recursion limit exceeded"

/-- **What a value turned out to be**, when it was not what was expected. -/
inductive Found where
  | bool (b : Bool)
  | unsigned (n : Nat)
  | signed (n : Int)
  | float (x : Float)
  | str (s : String)
  | null
  | seq
  | map

/-- The wording of what was found. -/
def Found.message : Found → String
  | .bool b => s!"boolean `{b}`"
  | .unsigned n => s!"integer `{n}`"
  | .signed n => s!"integer `{n}`"
  | .float x => "floating point `" ++ Decimal.text x ++ "`"
  | .str s => "string " ++ Text.quoted s
  | .null => "null"
  | .seq => "sequence"
  | .map => "map"

/-- **The ways JSON of the wrong shape fails.** -/
inductive Shape where
  | invalidType (found : Found) (expected : String)
  | invalidLength (length : Nat) (expected : String)
  | duplicateField (name : String)

/-- The wording of a shape error. -/
def Shape.message : Shape → String
  | .invalidType f e => "invalid type: " ++ f.message ++ ", expected " ++ e
  | .invalidLength n e => s!"invalid length {n}, expected " ++ e
  | .duplicateField name => "duplicate field `" ++ name ++ "`"

/-- **A JSON error**: a problem of either family, and where it was noticed. -/
structure Error where
  problem : Syntax ⊕ Shape
  /-- Line and column, both counted from one and zero respectively. -/
  position : Option (Nat × Nat)

/-- The wording of a JSON error, with its position when it has one. -/
def Error.message (e : Error) : String :=
  let text := match e.problem with
    | .inl s => s.message
    | .inr s => s.message
  match e.position with
  | some (line, column) => text ++ s!" at line {line} column {column}"
  | none => text

end ReadingOrder.Json
