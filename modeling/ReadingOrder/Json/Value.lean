/-!
# JSON values

A JSON document as data. Numbers keep the three kinds a JSON reader tells
apart: a non-negative integer, a negative integer, and a number with a
fraction or an exponent, which is a binary double. Objects keep their members
in the order they were written, duplicates included, because the readers of
this library decide themselves what a repeated key means.
-/

namespace ReadingOrder.Json

/-- **A JSON number** as a reader classifies it: an integer that fits in 64
unsigned bits, a negative integer that fits in 64 signed bits, or a double. -/
inductive Number where
  | nat (n : Nat)
  | neg (n : Int)
  | float (x : Float)
  deriving Inhabited

/-- **A JSON value.** -/
inductive Value where
  | null
  | bool (b : Bool)
  | num (n : Number)
  | str (s : String)
  | arr (xs : List Value)
  | obj (members : List (String × Value))
  deriving Inhabited

end ReadingOrder.Json
