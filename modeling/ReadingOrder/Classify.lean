import ReadingOrder.Config.Basic
import ReadingOrder.Path.Basic
import ReadingOrder.Text.Blank
/-!
# Classifying files

A file is printable when its extension is one the configuration lists, and
its class decides how it pairs with files of the same stem: headers,
implementation files, and others. Extensions compare without regard to the
case of ASCII letters, and the configuration may write them with leading
dots. Header extensions are checked first, then implementation extensions,
then the others, so an extension listed twice takes the first class.
-/

namespace ReadingOrder

/-- **The class of a printable file.** -/
inductive FileClass where
  | header
  | implementation
  | other
  deriving DecidableEq, Repr, Inhabited

/-- The name of a class in JSON output. -/
def FileClass.name : FileClass → String
  | .header => "header"
  | .implementation => "implementation"
  | .other => "other"

/-- **The extension sets of a configuration**, without dots and in lower case. -/
structure Classifier where
  headers : List String
  implementations : List String
  others : List String
  deriving DecidableEq, Repr

namespace Classifier

/-- An extension as the classifier keeps it: leading dots gone, ASCII letters
in lower case. -/
def canonical (e : String) : String :=
  Text.asciiLower (String.ofList (e.toList.dropWhile (· = '.')))

/-- The classifier of a configuration. -/
def ofConfig (c : Config) : Classifier :=
  ⟨c.headerExtensions.map canonical, c.implementationExtensions.map canonical,
    c.extensions.map canonical⟩

/-- **The class of a path**, none when it is not printable. -/
def classify (k : Classifier) (path : String) : Option FileClass :=
  match Path.extension? path with
  | none => none
  | some e =>
    let e := Text.asciiLower e
    if k.headers.contains e then some .header
    else if k.implementations.contains e then some .implementation
    else if k.others.contains e then some .other
    else none

end Classifier

end ReadingOrder
