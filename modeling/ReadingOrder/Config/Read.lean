import ReadingOrder.Config.Basic
import ReadingOrder.Json.Parse
/-!
# Configurations from JSON text

A configuration is read straight from its text, field by field, without a
JSON value in between: so the first problem in the text is the one
reported, with its line and column, and nothing after it is looked at.

The text holds one value and blanks around it. The value is an object,
whose members set fields by key in the order they come, or an array, whose
elements set the fields in field order. Unknown keys are skipped whatever
their value; a key that comes twice is refused when its second occurrence
is met, before its value. Missing fields keep their defaults. An array may
have at most six elements: what follows the sixth is trailing text.

The rule file must be a string and every list an array of strings.
-/

namespace ReadingOrder

namespace Config

open Json Reader

/-- Reads a string field, refusing any other value as not `expected`. -/
def stringField (expected : String) : Reader String := do
  match ← skipBlanks with
  | none => failAhead .eofWhileParsingValue
  | some '"' => do eat; string
  | some _ => refuse expected

/-- Reads the strings of an array. -/
def textItems : Nat → Bool → List String → Reader (List String)
  | 0, _, acc => return acc.reverse
  | n + 1, first, acc => do
    if ← hasElement first then textItems n false ((← stringField "a string") :: acc)
    else return acc.reverse

/-- **Reads a list field**: an array of strings. -/
def textsField : Reader (List String) := do
  match ← skipBlanks with
  | none => failAhead .eofWhileParsingValue
  | some '[' => do
    eat
    let xs ← textItems (← fuel) true []
    endArray
    return xs
  | some _ => refuse "a sequence"

/-- **Reads the value of a field** into a configuration; the value of an
unknown key is skipped. -/
def readField (c : Config) (key : String) : Reader Config :=
  match key with
  | "rules" => return { c with rules := ← stringField "path string" }
  | "headerExtensions" => return { c with headerExtensions := ← textsField }
  | "implementationExtensions" => return { c with implementationExtensions := ← textsField }
  | "extensions" => return { c with extensions := ← textsField }
  | "excludeDirs" => return { c with excludeDirs := ← textsField }
  | "excludeFiles" => return { c with excludeFiles := ← textsField }
  | _ => do skipValue; return c

/-- **Reads the members of an object.** `seen` are the fields set so far; a
field met again stops the reading and is answered as `.error`. -/
def members : Nat → Bool → List String → Config → Reader (Except String Config)
  | 0, _, _, c => return .ok c
  | n + 1, first, seen, c => do
    if ← hasMember first then
      eat
      let key ← string
      if key ∈ keys ∧ key ∈ seen then return .error key
      else
        colon
        members n false (key :: seen) (← readField c key)
    else return .ok c

/-- **Reads the elements of an array** into the fields, in field order. -/
def elements : List String → Bool → Config → Reader Config
  | [], _, c => return c
  | k :: ks, first, c => do
    if ← hasElement first then elements ks false (← readField c k)
    else return c

/-- **Reads a configuration value.** A repeated field is refused where the
reader stands once it has tried to close the object: past blanks, and past
the closing brace if that came next. -/
def value : Reader Config := do
  match ← skipBlanks with
  | none => failAhead .eofWhileParsingValue
  | some '[' => do
    eat
    let c ← elements keys true {}
    endArray
    return c
  | some '{' => do
    eat
    match ← members (← fuel) true [] {} with
    | .ok c => do
      endObject
      return c
    | .error key => do
      if (← skipBlanks) = some '}' then eat
      throw ⟨.inr (.duplicateField key), some (← position)⟩
  | some _ => refuse "struct Config"

/-- **A configuration from its JSON text**, or the first problem in it. -/
def ofText (text : String) : Except Error Config :=
  let whole : Reader Config := do
    let c ← value
    match ← skipBlanks with
    | some _ => failAhead .trailingCharacters
    | none => return c
  (whole.run { rest := text.toList }).map Prod.fst

end Config

end ReadingOrder
