import ReadingOrder.Json.Read
/-!
# Reading JSON numbers

A number is read digit by digit. Its integer digits accumulate while they fit
in 64 unsigned bits; then the number is an integer, non-negative, or negative
down to `-2^63`, and `-0` is the double negative zero. Once the digits no
longer fit, the further digits only raise the power of ten, and the number
becomes a double.

A number with a fraction or an exponent is a double computed from its
significand (at most 64 bits of digits) and a power of ten: the significand
is rounded to a double, then multiplied or divided by the double nearest to
the power of ten, in steps of `10^308` below that range; a result that
overflows is refused as out of range. An exponent too large for 32 bits is
out of range too, unless the significand is zero or the exponent negative,
which gives zero.
-/

namespace ReadingOrder.Json

namespace Reader

/-- The largest 64-bit unsigned integer. -/
def u64Max : Nat := Nat.pow 2 64 - 1

/-- The largest 32-bit signed integer. -/
def i32Max : Nat := Nat.pow 2 31 - 1

/-- Whether appending `digit` to `n` would go past `max`. -/
def overflows (n digit max : Nat) : Bool :=
  n ≥ max / 10 && (n > max / 10 || digit > max % 10)

/-- Clamps an exponent to 32 signed bits. -/
def clamp32 (e : Int) : Int :=
  max (-2147483648) (min e 2147483647)

/-- The value of an ASCII digit. -/
def digitValue (c : Char) : Nat :=
  c.toNat - 48

/-- **The double nearest to a natural number**, ties to even. Beyond 64 bits
the number is cut to its top 64 bits with a sticky last bit before the
conversion, which rounds the same way. -/
def natToFloat (n : Nat) : Float :=
  if n < Nat.pow 2 64 then n.toUInt64.toFloat
  else
    let s := n.log2 - 63
    let top := n / Nat.pow 2 s
    let sticky := if n % Nat.pow 2 s = 0 then 0 else 1
    (top ||| sticky).toUInt64.toFloat.scaleB s

/-- The double nearest to `10^k`. -/
def pow10 (k : Nat) : Float :=
  natToFloat (Nat.pow 10 k)

/-- Multiplies or divides the significand by powers of ten. -/
def scale : Nat → Float → Int → Reader Float
  | 0, f, _ => return f
  | n + 1, f, e =>
    if e.natAbs ≤ 308 then
      if e ≥ 0 then
        let g := f * pow10 e.natAbs
        if g.isInf then fail .numberOutOfRange else return g
      else return f / pow10 e.natAbs
    else if f == 0 then return f
    else if e ≥ 0 then fail .numberOutOfRange
    else scale n (f / pow10 308) (e + 308)

/-- **The double of a significand and a power of ten.** -/
def fromParts (positive : Bool) (sig : Nat) (e : Int) : Reader Float := do
  let f ← scale (e.natAbs / 308 + 2) (natToFloat sig) e
  return if positive then f else -f

/-- Takes digits while they exist. -/
def skipDigitsAux : Nat → Reader Unit
  | 0 => return ()
  | n + 1 => do
    match ← peek with
    | some c => if c.isDigit then do eat; skipDigitsAux n else return ()
    | none => return ()

/-- Takes a run of digits. -/
def skipDigits : Reader Unit := do
  skipDigitsAux (← fuel)

/-- An exponent too large: zero, or out of range. -/
def exponentOverflow (positive zero positiveExp : Bool) : Reader Float := do
  if !zero && positiveExp then fail .numberOutOfRange
  else
    skipDigits
    return if positive then 0.0 else -0.0

/-- Reads exponent digits into `exp`. -/
def exponentDigits (positive zero positiveExp : Bool) : Nat → Nat → Reader (Option Nat)
  | 0, exp => return some exp
  | n + 1, exp => do
    match ← peek with
    | some c =>
      if c.isDigit then do
        eat
        if overflows exp (digitValue c) i32Max then return none
        else exponentDigits positive zero positiveExp n (exp * 10 + digitValue c)
      else return some exp
    | none => return some exp

/-- **Reads an exponent**, the `e` not yet taken. -/
def exponent (positive : Bool) (sig : Nat) (start : Int) : Reader Float := do
  eat
  let positiveExp ← match ← peek with
    | some '+' => do eat; pure true
    | some '-' => do eat; pure false
    | _ => pure true
  match ← peek with
  | none => fail .eofWhileParsingValue
  | some c =>
    if !c.isDigit then failAhead .invalidNumber
    else do
      eat
      match ← exponentDigits positive (sig == 0) positiveExp (← fuel) (digitValue c) with
      | none => exponentOverflow positive (sig == 0) positiveExp
      | some exp =>
        let final := clamp32 (if positiveExp then start + exp else start - exp)
        fromParts positive sig final

/-- Digits that no longer fit are dropped; an exponent may follow. -/
def decimalOverflow (positive : Bool) (sig : Nat) (e : Int) : Reader Float := do
  skipDigits
  match ← peek with
  | some 'e' | some 'E' => exponent positive sig e
  | _ => fromParts positive sig e

/-- Reads fraction digits into the significand. -/
def fractionDigits : Nat → Nat → Int → Reader (Nat × Int × Bool)
  | 0, sig, after => return (sig, after, false)
  | n + 1, sig, after => do
    match ← peek with
    | some c =>
      if c.isDigit then
        if overflows sig (digitValue c) u64Max then return (sig, after, true)
        else do
          eat
          fractionDigits n (sig * 10 + digitValue c) (after - 1)
      else return (sig, after, false)
    | none => return (sig, after, false)

/-- **Reads a fraction**, the point not yet taken. -/
def fraction (positive : Bool) (sig : Nat) (before : Int) : Reader Float := do
  eat
  let (sig, after, overflow) ← fractionDigits (← fuel) sig 0
  if overflow then decimalOverflow positive sig (before + after)
  else if after = 0 then
    match ← peek with
    | some _ => failAhead .invalidNumber
    | none => failAhead .eofWhileParsingValue
  else
    match ← peek with
    | some 'e' | some 'E' => exponent positive sig (before + after)
    | _ => fromParts positive sig (before + after)

/-- Counts the digits of an integer too long for 64 bits. -/
def longInteger (positive : Bool) (sig : Nat) : Nat → Int → Reader Float
  | 0, e => fromParts positive sig e
  | n + 1, e => do
    match ← peek with
    | some '.' => fraction positive sig e
    | some 'e' | some 'E' => exponent positive sig e
    | some c => if c.isDigit then do eat; longInteger positive sig n (e + 1) else fromParts positive sig e
    | none => fromParts positive sig e

/-- What a number is once its integer digits are read. -/
def numberEnd (positive : Bool) (sig : Nat) : Reader Found := do
  match ← peek with
  | some '.' => return .float (← fraction positive sig 0)
  | some 'e' | some 'E' => return .float (← exponent positive sig 0)
  | _ =>
    if positive then return .unsigned sig
    else if sig = 0 then return .float (-0.0)
    else if sig ≤ Nat.pow 2 63 then return .signed (-(sig : Int))
    else return .float (-(natToFloat sig))

/-- Reads integer digits after the first. -/
def integerDigits (positive : Bool) : Nat → Nat → Reader Found
  | 0, sig => numberEnd positive sig
  | n + 1, sig => do
    match ← peek with
    | some c =>
      if c.isDigit then
        if overflows sig (digitValue c) u64Max then
          return .float (← longInteger positive sig (← fuel) 0)
        else do
          eat
          integerDigits positive n (sig * 10 + digitValue c)
      else numberEnd positive sig
    | none => numberEnd positive sig

/-- **Reads a number**, its sign already taken. -/
def number (positive : Bool) : Reader Found := do
  match ← peek with
  | none => fail .eofWhileParsingValue
  | some '0' => do
    eat
    match ← peek with
    | some c => if c.isDigit then failAhead .invalidNumber else numberEnd positive 0
    | none => numberEnd positive 0
  | some c =>
    if '1' ≤ c ∧ c ≤ '9' then do
      eat
      integerDigits positive (← fuel) (digitValue c)
    else failAhead .invalidNumber

end Reader

end ReadingOrder.Json
