import ReadingOrder.Json.Value
/-!
# Tool configuration

The tool configuration names the rule file used when none is given, the
extensions of headers, of implementation files and of other printable
files, and the exclusion patterns for directories and files. Every field has
a default, so an empty configuration is a valid one.

As JSON, a configuration is an object whose keys are the field names in
camel case, written in the order of the fields (`Config.toValue`).
-/

namespace ReadingOrder

/-- **The tool configuration.** -/
structure Config where
  /-- The rule file used when the command line names none. -/
  rules : String := "config.txt"
  /-- Extensions of header files, without the dot. -/
  headerExtensions : List String := ["h", "hpp"]
  /-- Extensions of implementation files. -/
  implementationExtensions : List String := ["c", "cpp"]
  /-- Extensions of other printable files. -/
  extensions : List String := ["py", "sh", "txt", "json", "md"]
  /-- Directories left out, as globs relative to the ordering root. -/
  excludeDirs : List String := ["**/.git", "**/__pycache__"]
  /-- Files left out, as globs relative to the ordering root. -/
  excludeFiles : List String := []
  deriving DecidableEq, Repr, Inhabited

namespace Config

/-- The keys of a configuration in JSON, in field order. -/
def keys : List String :=
  ["rules", "headerExtensions", "implementationExtensions", "extensions", "excludeDirs",
    "excludeFiles"]

/-- A list of texts as a JSON array. -/
def textsValue (xs : List String) : Json.Value :=
  .arr (xs.map .str)

/-- **A configuration as a JSON object**, keys in field order. -/
def toValue (c : Config) : Json.Value :=
  .obj [("rules", .str c.rules), ("headerExtensions", textsValue c.headerExtensions),
    ("implementationExtensions", textsValue c.implementationExtensions),
    ("extensions", textsValue c.extensions), ("excludeDirs", textsValue c.excludeDirs),
    ("excludeFiles", textsValue c.excludeFiles)]

end Config

end ReadingOrder
