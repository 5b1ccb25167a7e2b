import ReadingOrder.Json.Write
/-!
# Listings

A listing is the print order written out for a reader or for another
program: as plain text, one path per line, or as a JSON array of the paths
laid out over lines. Both end with a line break.
-/

namespace ReadingOrder

/-- **The two ways of writing a print order.** -/
inductive ListingFormat where
  | text
  | json
  deriving DecidableEq, Repr

namespace ListingFormat

/-- The format a name on the command line stands for. -/
def ofName? : String → Option ListingFormat
  | "text" => some .text
  | "json" => some .json
  | _ => none

end ListingFormat

/-- **A print order written in a format.** -/
def listing : ListingFormat → List String → String
  | .text, paths => String.join (paths.map (· ++ "\n"))
  | .json, paths => (Json.Value.arr (paths.map .str)).pretty ++ "\n"

example : listing .json [] = "[]\n" ∧ listing .json ["a"] = "[\n  \"a\"\n]\n" := by decide

end ReadingOrder
