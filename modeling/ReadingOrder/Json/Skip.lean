import ReadingOrder.Json.Number
/-!
# Skipping JSON values, and saying what a value is

A value whose content does not matter is skipped without building it. The
skip is a loop over a stack of open brackets rather than a recursion, so a
deeply nested value costs no depth; it checks the syntax, but not much more:
a number is never converted, so it cannot be out of range, and a `\u`
escape is four hex digits whatever they stand for. A comma right before a
closing bracket is simply not a value.

When a value of the wrong type comes where another was expected, it is read
in full to say what it was: its literal, its number, its string, or just
that it is a sequence or a map. The refusal is placed after the value.
-/

namespace ReadingOrder.Json

namespace Reader

/-- Skips an exponent, the `e` not yet taken. -/
def skipExponent : Reader Unit := do
  eat
  match ← peek with
  | some '+' | some '-' => eat
  | _ => pure ()
  match ← peek with
  | some c => if c.isDigit then do eat; skipDigits else failAhead .invalidNumber
  | none => fail .invalidNumber

/-- Skips a fraction, the point not yet taken. -/
def skipFraction : Reader Unit := do
  eat
  match ← peek with
  | some c => if c.isDigit then skipDigits else failAhead .invalidNumber
  | none => failAhead .invalidNumber
  match ← peek with
  | some 'e' | some 'E' => skipExponent
  | _ => pure ()

/-- **Skips a number**, its sign already taken. -/
def skipNumber : Reader Unit := do
  match ← peek with
  | some '0' => do
    eat
    match ← peek with
    | some c => if c.isDigit then failAhead .invalidNumber else pure ()
    | none => pure ()
  | some c => if '1' ≤ c ∧ c ≤ '9' then do eat; skipDigits else failAhead .invalidNumber
  | none => fail .invalidNumber
  match ← peek with
  | some '.' => skipFraction
  | some 'e' | some 'E' => skipExponent
  | _ => pure ()

/-- Skips a value that is not a sequence or a map and answers `none`, or
takes the opening bracket of one and answers it. -/
def skipItem : Reader (Option Char) := do
  match ← skipBlanks with
  | none => failAhead .eofWhileParsingValue
  | some 'n' => do eat; literal ['u', 'l', 'l']; return none
  | some 't' => do eat; literal ['r', 'u', 'e']; return none
  | some 'f' => do eat; literal ['a', 'l', 's', 'e']; return none
  | some '-' => do eat; skipNumber; return none
  | some '"' => do eat; skipString; return none
  | some '[' => do eat; return some '['
  | some '{' => do eat; return some '{'
  | some c => if c.isDigit then do skipNumber; return none else failAhead .expectedSomeValue

/-- The bracket that closes an open one. -/
def closing (frame : Char) : Char :=
  if frame = '[' then ']' else '}'

/-- **Closes what ends here.** After a value (`acceptComma`) or right after
an opening bracket, closing brackets of the open frames are taken; the
answer is the frame the next value belongs to with the frames around it, or
`none` once the outermost frame is closed. -/
def closeFrames : Nat → Bool → Char → List Char → Reader (Option (Char × List Char))
  | 0, _, frame, around => return some (frame, around)
  | n + 1, acceptComma, frame, around => do
    match ← skipBlanks with
    | none =>
      failAhead (if frame = '[' then .eofWhileParsingList else .eofWhileParsingObject)
    | some c =>
      if c = ',' ∧ acceptComma then do
        eat
        return some (frame, around)
      else if c = closing frame then do
        eat
        match around with
        | [] => return none
        | outer :: rest => closeFrames n true outer rest
      else if acceptComma then
        failAhead (if frame = '[' then .expectedListCommaOrEnd else .expectedObjectCommaOrEnd)
      else return some (frame, around)

/-- Skips the key of a map member and its colon. -/
def skipKey : Reader Unit := do
  match ← skipBlanks with
  | some '"' => eat
  | some _ => failAhead .keyMustBeAString
  | none => failAhead .eofWhileParsingObject
  skipString
  match ← skipBlanks with
  | some ':' => eat
  | some _ => failAhead .expectedColon
  | none => failAhead .eofWhileParsingObject

/-- Skips values inside the open `frames`, innermost first. -/
def skipValueAux : Nat → List Char → Reader Unit
  | 0, _ => return ()
  | n + 1, frames => do
    let next ← match ← skipItem with
      | some frame => closeFrames (← fuel) false frame frames
      | none =>
        match frames with
        | [] => pure none
        | frame :: around => closeFrames (← fuel) true frame around
    match next with
    | none => return ()
    | some (frame, around) => do
      if frame = '{' then skipKey
      skipValueAux n (frame :: around)

/-- **Skips a value.** -/
def skipValue : Reader Unit := do
  skipValueAux (← fuel) []

/-- **Reads a value to say what it is**, the value being of the wrong type
where it stands. A sequence or a map is not read. -/
def found : Reader Found := do
  match ← peek with
  | some 'n' => do eat; literal ['u', 'l', 'l']; return .null
  | some 't' => do eat; literal ['r', 'u', 'e']; return .bool true
  | some 'f' => do eat; literal ['a', 'l', 's', 'e']; return .bool false
  | some '-' => do eat; number false
  | some '"' => do eat; return .str (← string)
  | some '[' => return .seq
  | some '{' => return .map
  | some c => if c.isDigit then number true else failAhead .expectedSomeValue
  | none => failAhead .expectedSomeValue

/-- **Refuses the value at the cursor**, which is not what was expected. -/
def refuse {α : Type} (expected : String) : Reader α := do
  wrongType (← found) expected

end Reader

end ReadingOrder.Json
