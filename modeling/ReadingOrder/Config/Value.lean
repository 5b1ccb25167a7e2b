import ReadingOrder.Config.Basic
import ReadingOrder.Json.Error
import ReadingOrder.Path.Basic
/-!
# Configurations from JSON values

A JSON value that was already read becomes a configuration in one of two
shapes. An object gives fields by key: an object read from text keeps the
last of two equal keys, and its keys are visited in byte order; unknown keys
are ignored and missing ones keep their defaults. An array gives fields by
position, in field order; missing positions keep their defaults and more
than six elements are refused once the six are read. Anything else is
refused.

The rule file must be a string, and every list must be an array of strings;
the first value of the wrong type, in the order of the visit, is reported.
Errors here have no position.
-/

namespace ReadingOrder

namespace Json

/-- What a value is, for a message about a value of the wrong type. -/
def Value.found : Value → Found
  | .null => .null
  | .bool b => .bool b
  | .num (.nat n) => .unsigned n
  | .num (.neg n) => .signed n
  | .num (.float x) => .float x
  | .str s => .str s
  | .arr _ => .seq
  | .obj _ => .map

/-- A shape error without a position. -/
def Error.shape (s : Shape) : Error :=
  ⟨.inr s, none⟩

/-- The members of an object as a map: the last of equal keys wins, and the
keys come in byte order. -/
def Value.mapMembers (ms : List (String × Value)) : List (String × Value) :=
  let last := ms.foldl (fun acc (k, v) => (acc.filter (·.1 ≠ k)) ++ [(k, v)]) []
  last.mergeSort fun a b => Path.nameLe a.1 b.1

end Json

namespace Config

open Json

/-- The rule file from a value: it must be a string. -/
def rulesOfValue : Value → Except Error String
  | .str s => .ok s
  | v => .error (.shape (.invalidType v.found "path string"))

/-- A list of texts from a value: an array of strings. -/
def textsOfValue : Value → Except Error (List String)
  | .arr xs => xs.mapM fun
    | .str s => .ok s
    | v => .error (.shape (.invalidType v.found "a string"))
  | v => .error (.shape (.invalidType v.found "a sequence"))

/-- Sets the field of a key from a value; unknown keys change nothing. -/
def setField (c : Config) (key : String) (v : Value) : Except Error Config :=
  match key with
  | "rules" => return { c with rules := ← rulesOfValue v }
  | "headerExtensions" => return { c with headerExtensions := ← textsOfValue v }
  | "implementationExtensions" => return { c with implementationExtensions := ← textsOfValue v }
  | "extensions" => return { c with extensions := ← textsOfValue v }
  | "excludeDirs" => return { c with excludeDirs := ← textsOfValue v }
  | "excludeFiles" => return { c with excludeFiles := ← textsOfValue v }
  | _ => return c

/-- **A configuration from a JSON value.** -/
def ofValue : Value → Except Error Config
  | .obj ms => (Value.mapMembers ms).foldlM (fun c (k, v) => setField c k v) {}
  | .arr xs => do
    let c ← (keys.zip xs).foldlM (fun c (k, v) => setField c k v) {}
    if xs.length > keys.length then
      throw (.shape (.invalidLength xs.length "fewer elements in array"))
    return c
  | v => .error (.shape (.invalidType v.found "struct Config"))

end Config

end ReadingOrder
