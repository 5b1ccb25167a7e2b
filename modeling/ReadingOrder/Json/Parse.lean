import ReadingOrder.Json.Skip
import ReadingOrder.Json.Value
/-!
# JSON text as a value

A JSON text read whole into a `Value`, the way a reader that knows nothing
of what the text is for reads it: every number is classified by its text
(`Found`), so `1e2` and `1.0` are doubles while `100` is an integer, and an
integer too large for 64 bits is a double as well. Arrays and objects nest at
most 127 deep. The text holds one value and blanks around it.

An object read this way is a *map*: it keeps one member per key, the last
one written, and lists its members in increasing order of their keys.

The pieces that walk arrays and objects (`hasElement`, `hasMember`, `colon`,
`endArray`, `endObject`) are shared with the readers that read a text
straight into a record.
-/

namespace ReadingOrder.Json

/-- A scalar as a value; a sequence or a map, which `found` does not read,
as null. -/
def Found.toValue : Found → Value
  | .bool b => .bool b
  | .unsigned n => .num (.nat n)
  | .signed n => .num (.neg n)
  | .float x => .num (.float x)
  | .str s => .str s
  | .null => .null
  | .seq => .null
  | .map => .null

namespace Reader

/-- **Whether an array has another element**; after the first, elements
are separated by commas, and a comma before the closing bracket is refused. -/
def hasElement (first : Bool) : Reader Bool := do
  match ← skipBlanks with
  | none => failAhead .eofWhileParsingList
  | some ']' => return false
  | some c =>
    if first then return true
    else if c = ',' then do
      eat
      match ← skipBlanks with
      | some ']' => failAhead .trailingComma
      | some _ => return true
      | none => failAhead .eofWhileParsingValue
    else failAhead .expectedListCommaOrEnd

/-- Takes the closing bracket of an array whose elements are all read. -/
def endArray : Reader Unit := do
  match ← skipBlanks with
  | some ']' => eat
  | some ',' => do
    eat
    match ← skipBlanks with
    | some ']' => failAhead .trailingComma
    | _ => failAhead .trailingCharacters
  | some _ => failAhead .trailingCharacters
  | none => failAhead .eofWhileParsingList

/-- Takes the closing brace of an object whose members are all read. -/
def endObject : Reader Unit := do
  match ← skipBlanks with
  | some '}' => eat
  | some ',' => failAhead .trailingComma
  | some _ => failAhead .trailingCharacters
  | none => failAhead .eofWhileParsingObject

/-- What may follow where a key is due: only a string. -/
def keyFollows : Option Char → Reader Bool
  | some '"' => return true
  | some '}' => failAhead .trailingComma
  | some _ => failAhead .keyMustBeAString
  | none => failAhead .eofWhileParsingValue

/-- **Whether an object has another member**; after the first, members are
separated by commas, and a comma before the closing brace is refused. -/
def hasMember (first : Bool) : Reader Bool := do
  match ← skipBlanks with
  | none => failAhead .eofWhileParsingObject
  | some '}' => return false
  | some c =>
    if first then keyFollows (some c)
    else if c = ',' then do
      eat
      keyFollows (← skipBlanks)
    else failAhead .expectedObjectCommaOrEnd

/-- Takes the colon after a key. -/
def colon : Reader Unit := do
  match ← skipBlanks with
  | some ':' => eat
  | some _ => failAhead .expectedColon
  | none => failAhead .eofWhileParsingObject

/-- **Puts a member into a map** kept in increasing order of keys; a member
of a key already there takes its place. -/
def insertMember (k : String) (v : Value) : List (String × Value) → List (String × Value)
  | [] => [(k, v)]
  | (k', v') :: rest =>
    if k = k' then (k, v) :: rest
    else if k < k' then (k, v) :: (k', v') :: rest
    else (k', v') :: insertMember k v rest

/-- Reads the elements of an array, each with `item`, up to its end. -/
def items (item : Reader Value) : Nat → Bool → List Value → Reader (List Value)
  | 0, _, acc => return acc.reverse
  | n + 1, first, acc => do
    if ← hasElement first then items item n false ((← item) :: acc)
    else return acc.reverse

/-- Reads the members of an object, each value with `item`, up to its end. -/
def entries (item : Reader Value) :
    Nat → Bool → List (String × Value) → Reader (List (String × Value))
  | 0, _, acc => return acc
  | n + 1, first, acc => do
    if ← hasMember first then
      eat
      let key ← string
      colon
      entries item n false (insertMember key (← item) acc)
    else return acc

/-- **Reads a value** with `depth` levels of nesting left: opening an array
or an object with one level left is refused. -/
def valueAux : Nat → Nat → Reader Value
  | 0, _ => failAhead .eofWhileParsingValue
  | n + 1, depth => do
    match ← skipBlanks with
    | none => failAhead .eofWhileParsingValue
    | some '[' =>
      if depth ≤ 1 then failAhead .recursionLimitExceeded
      else do
        eat
        let xs ← items (valueAux n (depth - 1)) (← fuel) true []
        endArray
        return .arr xs
    | some '{' =>
      if depth ≤ 1 then failAhead .recursionLimitExceeded
      else do
        eat
        let ms ← entries (valueAux n (depth - 1)) (← fuel) true []
        endObject
        return .obj ms
    | some _ => return (← found).toValue

end Reader

/-- **A value from its JSON text**, or the first problem in it. -/
def Value.ofText (text : String) : Except Error Value :=
  let whole : Reader Value := do
    let v ← Reader.valueAux (← Reader.fuel) 128
    match ← Reader.skipBlanks with
    | some _ => Reader.failAhead .trailingCharacters
    | none => return v
  (whole.run { rest := text.toList }).map Prod.fst

end ReadingOrder.Json
