import ReadingOrder.Rule.Basic
/-!
# Precedence

Rules move their targets to the front of a level. `pinFront` takes the
entries of one level in their default order and the rules of the whole set;
only the rules written for that level's depth take part. Each of them, in
the order written, takes the first remaining entry that is the same path as
its target and appends it to the front part; a rule whose target is no
longer among the remaining entries does nothing, so among entries that are
distinct paths a repeated rule is harmless. When two entries are the same
path, a repeated rule takes the second of them too. The entries no rule took
follow in their default order.

What moves is the entry itself, as it was written, never the rule's text.
-/

namespace ReadingOrder

/-- Takes the first element satisfying `p` out of a list, with the rest in
order. -/
def takeFirst {α : Type} (p : α → Bool) : List α → Option (α × List α)
  | [] => none
  | x :: xs =>
    if p x then some (x, xs)
    else (takeFirst p xs).map fun (y, ys) => (y, x :: ys)

/-- One rule's move: the first remaining entry that is its target goes to
the end of the pinned part. -/
def pinStep (state : List String × List String) (target : String) : List String × List String :=
  match takeFirst (Path.same · target) state.2 with
  | some (c, rest) => (state.1 ++ [c], rest)
  | none => state

/-- **The entries of a level in precedence order**: the targets of the rules
for `depth`, in rule order, then everything else in its given order. -/
def pinFront (entries : List String) (rules : List Rule) (depth : Nat) : List String :=
  let pinned := ((rules.filter (·.depth = depth)).map (·.target)).foldl pinStep ([], entries)
  pinned.1 ++ pinned.2

end ReadingOrder
