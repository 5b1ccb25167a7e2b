/-!
# Similarity of words

The command line suggests a known word for a mistyped one when the two are
similar enough. Similarity is the Jaro measure: two characters match when they
are equal and no further apart than half the longer word's length, less one;
each character matches at most once, the first free partner being taken; a
transposition is a matched pair that comes in a different order in the two
words, counted by halves. With `m` matches and `t` transpositions, words of
lengths `a` and `b` have similarity `(m/a + m/b + (m - t)/m) / 3`, and
similarity 0 when nothing matches. It is computed in double precision, the
way the suggestions were always computed, so that a borderline case falls on
the same side.

A word is suggested when its similarity is above 0.7; suggestions come from
least to most similar, words of equal similarity in the order given.
-/

namespace ReadingOrder

namespace Text

/-- The first position in `lo ≤ j < hi` where `b` holds `c` and `used` is
still free. -/
def firstFree (b : List Char) (used : List Bool) (c : Char) (lo hi : Nat) : Option Nat :=
  (List.range' lo (hi - lo)).find? fun j => b[j]? == some c && used[j]? == some false

/-- Marks position `j` as used. -/
def markUsed (used : List Bool) (j : Nat) : List Bool :=
  used.set j true

/-- **The matches of `a` in `b`**: for each character of `a`, whether it
matched, and for each of `b`, whether it was matched. -/
def pairUp (a b : List Char) : List Bool × List Bool :=
  let window := max a.length b.length / 2 - 1
  let step := fun (acc : List Bool × List Bool × Nat) (c : Char) =>
    let (inA, inB, i) := acc
    let lo := i - window
    let hi := min b.length (i + window + 1)
    match firstFree b inB c lo hi with
    | some j => (inA ++ [true], markUsed inB j, i + 1)
    | none => (inA ++ [false], inB, i + 1)
  let (inA, inB, _) := a.foldl step ([], List.replicate b.length false, 0)
  (inA, inB)

/-- The characters of a word at the marked positions, in order. -/
def marked (w : List Char) (flags : List Bool) : List Char :=
  (w.zip flags).filterMap fun (c, f) => if f then some c else none

/-- **The Jaro similarity of two words.** -/
def jaro (a b : String) : Float :=
  let a := a.toList
  let b := b.toList
  if a.isEmpty && b.isEmpty then 1.0
  else if a.isEmpty || b.isEmpty then 0.0
  else
    let (inA, inB) := pairUp a b
    let ma := marked a inA
    let mb := marked b inB
    let m := ma.length
    let t := ((ma.zip mb).filter fun (x, y) => x != y).length / 2
    if m = 0 then 0.0
    else
      let mf := m.toFloat
      (mf / a.length.toFloat + mf / b.length.toFloat + (m - t).toFloat / mf) / 3.0

/-- **The words similar to `w`**, from least to most similar. -/
def similar (w : String) (candidates : List String) : List String :=
  let scored := (candidates.map fun c => (jaro w c, c)).filter fun (s, _) => s > 0.7
  (scored.mergeSort fun x y => x.1 ≤ y.1).map Prod.snd

/-- The word most similar to `w`, if any is similar enough; of equally similar
words, the last one given. -/
def mostSimilar (w : String) (candidates : List String) : Option String :=
  (similar w candidates).getLast?

end Text

end ReadingOrder
