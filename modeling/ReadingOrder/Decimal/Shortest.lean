/-!
# Shortest decimals of doubles

A finite double is `m · 2^e`, and the reals that round to it form an interval
around it: halfway to each neighbour, ends included when `m` is even, the
lower half-gap halved where the double is a power of two above the smallest
normal. Its shortest decimal is the decimal with the fewest significant
digits inside that interval; of two such decimals the nearer one is taken,
and of two equally near the one whose last digit is even.

`Shortest.decimal` finds it by trying one digit, two digits and so on up to
seventeen, which always suffice: on the grid of `k` significant digits only
the two grid points around the value can be inside the interval, because the
interval is narrower than the grid step whenever a shorter grid failed.
Everything is exact arithmetic on natural numbers.

`Decimal.text` writes such a decimal positionally when that is short, as
`1.5`, `100.0` or `0.0001`, and in scientific notation otherwise, as
`1e+300` or `1.5e-7`: the exponent always carries its sign.
-/

namespace ReadingOrder.Decimal

/-- **A double taken apart**: its sign, and its magnitude as `mantissa · 2^exponent`. -/
structure Binary where
  negative : Bool
  mantissa : Nat
  exponent : Int
  /-- Whether the gap to the double below is half the gap above. -/
  lowerClose : Bool
  deriving DecidableEq, Repr

/-- Takes a finite double apart from its bits. -/
def Binary.ofBits (bits : Nat) : Binary :=
  let negative : Bool := (bits / Nat.pow 2 63) % 2 == 1
  let biased : Nat := (bits / Nat.pow 2 52) % 2048
  let fraction : Nat := bits % Nat.pow 2 52
  if biased = 0 then ⟨negative, fraction, -1074, false⟩
  else ⟨negative, fraction + Nat.pow 2 52, (biased : Int) - 1075, fraction == 0 && biased > 1⟩

/-- A rational number as numerator and denominator. -/
structure Ratio where
  num : Nat
  den : Nat
  deriving DecidableEq, Repr

/-- Compares `d · 10^p` with a ratio. -/
def compareDecimal (d : Nat) (p : Int) (r : Ratio) : Ordering :=
  compare (d * Nat.pow 10 p.toNat * r.den) (r.num * Nat.pow 10 (-p).toNat)

/-- The three points of a double's rounding interval: low end, value, high end. -/
def bounds (b : Binary) : Ratio × Ratio × Ratio :=
  let up := Nat.pow 2 b.exponent.toNat
  let den := 4 * Nat.pow 2 (-b.exponent).toNat
  let lowGap := if b.lowerClose then 1 else 2
  (⟨(4 * b.mantissa - lowGap) * up, den⟩, ⟨4 * b.mantissa * up, den⟩, ⟨(4 * b.mantissa + 2) * up, den⟩)

/-- The exponent `n` of the leading digit of a positive ratio:
`10^n ≤ r < 10^(n+1)`. -/
def leadExponent (r : Ratio) : Int :=
  if r.num ≥ r.den then (Nat.toDigits 10 (r.num / r.den)).length - 1
  else
    match (List.range 400).find? (fun k => r.num * Nat.pow 10 (k + 1) ≥ r.den) with
    | some k => -((k : Int) + 1)
    | none => -400

/-- Whether `d · 10^p` lies in the interval from `lo` to `hi`. -/
def inside (closed : Bool) (lo hi : Ratio) (d : Nat) (p : Int) : Bool :=
  let a := compareDecimal d p lo
  let b := compareDecimal d p hi
  if closed then a != .lt && b != .gt else a == .gt && b == .lt

/-- Of two neighbouring grid points `d` and `d + 1` at scale `10^p`, the one
nearer to `v`, the even one on a tie. -/
def nearer (d : Nat) (p : Int) (v : Ratio) : Nat :=
  let scaledValue : Nat := 2 * v.num * Nat.pow 10 (-p).toNat
  let step : Nat := Nat.pow 10 p.toNat * v.den
  match compare scaledValue (step * (2 * d + 1)) with
  | .lt => d
  | .gt => d + 1
  | .eq => if d % 2 = 0 then d else d + 1

/-- Drops trailing zeros, raising the exponent for each. -/
def trimZeros : Nat → Nat → Int → Nat × Int
  | 0, d, p => (d, p)
  | fuel + 1, d, p => if d ≠ 0 ∧ d % 10 = 0 then trimZeros fuel (d / 10) (p + 1) else (d, p)

/-- **The shortest decimal of a positive double**, as digits and the
exponent of the last digit. -/
def shortest (b : Binary) : Nat × Int :=
  let (lo, v, hi) := bounds b
  let closed : Bool := b.mantissa % 2 == 0
  let n := leadExponent v
  let found := (List.range 17).findSome? fun (k : Nat) =>
    let p : Int := n - (k : Int)
    let d : Nat := v.num * Nat.pow 10 (-p).toNat / (Nat.pow 10 p.toNat * v.den)
    match inside closed lo hi d p, inside closed lo hi (d + 1) p with
    | true, true => some (nearer d p v, p)
    | true, false => some (d, p)
    | false, true => some (d + 1, p)
    | false, false => none
  let (d, p) := found.getD (v.num * Nat.pow 10 (-(n - 16)).toNat / (Nat.pow 10 (n - 16).toNat * v.den), n - 16)
  trimZeros 400 d p

/-- The decimal digits of a number, without leading zeros. -/
def digitsOf (d : Nat) : List Char :=
  Nat.toDigits 10 d

/-- **The text of a non-zero double's shortest decimal `d · 10^p`** as JSON
numbers are commonly written: positionally when its leading digit is at a
power of ten from `-5` to `15`, with `.0` after a whole number; otherwise in
scientific notation, as `1e+300`, `1.5e-7`. -/
def layout (d : Nat) (p : Int) : String :=
  let ds := digitsOf d
  let len : Int := ds.length
  let kk := len + p
  if 0 ≤ p ∧ kk ≤ 16 then
    String.ofList (ds ++ List.replicate p.toNat '0') ++ ".0"
  else if 0 < kk ∧ kk ≤ 16 then
    String.ofList (ds.take kk.toNat ++ '.' :: ds.drop kk.toNat)
  else if -5 < kk ∧ kk ≤ 0 then
    String.ofList ('0' :: '.' :: List.replicate (-kk).toNat '0' ++ ds)
  else
    let exp := if kk - 1 < 0 then toString (kk - 1) else "+" ++ toString (kk - 1)
    match ds with
    | [c] => String.ofList [c] ++ "e" ++ exp
    | c :: rest => String.ofList (c :: '.' :: rest) ++ "e" ++ exp
    | [] => "0e" ++ exp

/-- **The shortest text of a double.** Zero is `0.0`, an infinity `inf` and a
NaN `NaN`, each with its sign. -/
def text (x : Float) : String :=
  let bits := x.toBits.toNat
  let sign := if (bits / Nat.pow 2 63) % 2 == 1 then "-" else ""
  if (bits / Nat.pow 2 52) % 2048 = 2047 then
    if bits % Nat.pow 2 52 = 0 then sign ++ "inf" else "NaN"
  else
    let b := Binary.ofBits bits
    if b.mantissa = 0 then sign ++ "0.0"
    else
      let (d, p) := shortest b
      sign ++ layout d p

end ReadingOrder.Decimal
