import ReadingOrder.Classify
/-!
# Pairing headers with their implementation

The files of a directory are grouped by stem, the file name without its last
extension. The files are read in order: a file that does not classify is
skipped, a file whose stem was met before joins the group of that stem, and
a file of a new stem opens a group after the others, its stem noted with the
group's position. A group keeps its members in order unless it holds both
a header and an implementation file: then it is sorted, stably, on whether
each member is a header, which moves its headers in front of all other
members, or behind them when headers come last, and when only headers are
printed its implementation files are then left out. Groups without such a
pair are never changed.
-/

namespace ReadingOrder

namespace Pairing

/-- The stem a file is grouped by; a path without one is grouped under the
empty stem. -/
def stemOf (p : String) : String :=
  (Path.stem? p).getD ""

/-- **The groups of a directory being read**: for each stem met so far, the
position of its group, and the groups, each with its files in the order they
came. -/
structure Groups where
  index : List (String × Nat)
  groups : List (List (String × FileClass))
  deriving Repr

/-- Puts a classified file into the group of its stem, or opens a group for
it after the others when its stem is new. -/
def Groups.add (g : Groups) (path : String) (c : FileClass) : Groups :=
  match g.index.lookup (stemOf path) with
  | some i => { g with groups := g.groups.modify i (· ++ [(path, c)]) }
  | none => ⟨(stemOf path, g.groups.length) :: g.index, g.groups ++ [[(path, c)]]⟩

/-- Reads one file: a file that classifies joins the group of its stem, and
any other file is skipped. -/
def Groups.read (k : Classifier) (g : Groups) (p : String) : Groups :=
  match k.classify p with
  | some c => g.add p c
  | none => g

/-- **The groups of the files that classify**, in the order their stems
first come. -/
def collect (k : Classifier) (files : List String) : List (List (String × FileClass)) :=
  (files.foldl (Groups.read k) ⟨[], []⟩).groups

/-- Whether a group holds a header and an implementation file. -/
def paired (g : List (String × FileClass)) : Bool :=
  g.any (·.2 == .header) && g.any (·.2 == .implementation)

/-- The key a paired group is sorted by: whether a member goes after the
headers (when headers come first) or is a header (when they come last). -/
def sortKey (headersFirst : Bool) (e : String × FileClass) : Bool :=
  if headersFirst then !(e.2 == .header) else e.2 == .header

/-- Sorting by a Boolean key puts `false` before `true`. -/
def keyLe {α : Type} (key : α → Bool) (a b : α) : Bool :=
  !key a || key b

/-- **One group arranged**: a group that pairs a header with an
implementation file is sorted stably by `sortKey`, and its implementation
files are left out when only headers are printed; any other group stays as
it is. -/
def arrangeGroup (headersFirst headersOnly : Bool) (g : List (String × FileClass)) : List String :=
  let g :=
    if paired g then
      let sorted := g.mergeSort (keyLe (sortKey headersFirst))
      if headersOnly then sorted.filter (·.2 != .implementation) else sorted
    else g
  g.map (·.1)

/-- **The files of a directory arranged by stem groups.** Files that do not
classify are dropped. -/
def arrange (k : Classifier) (headersFirst headersOnly : Bool) (files : List String) : List String :=
  (collect k files).flatMap (arrangeGroup headersFirst headersOnly)

end Pairing

end ReadingOrder
