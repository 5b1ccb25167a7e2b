/-!
# Glob patterns

A glob pattern is compiled into tokens and matched against a path's text,
character by character. `?` is any one character, `*` any run of
characters, `[...]` one character from a set and `[!...]` one character
outside it, where a set lists characters and ranges `a-z`; every other
character stands for itself. `**` is a recursive wildcard: it must be a
whole path component, at the start of the pattern or after a slash, and
followed by a slash or the end. Three or more stars in a row are refused.

Matching is case-sensitive, and neither a slash nor a leading dot needs to
be matched literally, so `*` also runs across slashes; a recursive wildcard
differs from `*` only in where it may stop: right at its start, or just
after a slash.

The matcher answers in three ways, as a backtracking matcher with an early
stop does: a match, a failure of this attempt that a longer run of an
earlier wildcard may mend, and a failure that nothing mends because the text
ran out. Only the first is a match.
-/

namespace ReadingOrder

namespace Glob

/-- One member of a character set. -/
inductive CharSpec where
  | single (c : Char)
  | range (lo hi : Char)
  deriving DecidableEq, Repr

/-- **A compiled piece of a pattern.** -/
inductive Token where
  | char (c : Char)
  | anyChar
  | anySequence
  | anyRecursive
  | anyWithin (specs : List CharSpec)
  | anyExcept (specs : List CharSpec)
  deriving DecidableEq, Repr

/-- **Why a pattern is refused**, and at which character position. -/
structure PatternError where
  pos : Nat
  msg : String
  deriving DecidableEq, Repr

/-- The text of a refusal. -/
def PatternError.message (e : PatternError) : String :=
  s!"Pattern syntax error near position {e.pos}: {e.msg}"

/-- The text for three or more stars in a row. -/
def wildcardsMsg : String :=
  "wildcards are either regular `*` or recursive `**`"

/-- The text for a `**` that is not a whole component. -/
def recursiveMsg : String :=
  "recursive wildcards must form a single path component"

/-- The text for an unclosed or empty set. -/
def rangeMsg : String :=
  "invalid range pattern"

/-- The members of a set: a character, a dash and a character form a range,
anything else is a single character. -/
def charSpecs : List Char → List CharSpec
  | a :: '-' :: b :: rest => .range a b :: charSpecs rest
  | c :: rest => .single c :: charSpecs rest
  | [] => []

/-- The position of the first `]` in a list. -/
def closeAt? (cs : List Char) : Option Nat :=
  cs.findIdx? (· = ']')

/-- **Compiles a pattern.** `i` is the position of the next character in the
whole pattern, `before` the character before it, and `toks` the tokens so
far, newest first. The fuel is the length of what is left, which every step
shortens. -/
def compileAux : Nat → Nat → Option Char → List Token → List Char → Except PatternError (List Token)
  | 0, _, _, toks, _ => .ok toks.reverse
  | _, _, _, toks, [] => .ok toks.reverse
  | fuel + 1, i, _, toks, '?' :: rest => compileAux fuel (i + 1) (some '?') (.anyChar :: toks) rest
  | fuel + 1, i, before, toks, '*' :: rest =>
    let stars := 1 + (rest.takeWhile (· = '*')).length
    let after := rest.dropWhile (· = '*')
    if stars > 2 then .error ⟨i + 2, wildcardsMsg⟩
    else if stars = 2 then
      if i = 0 ∨ before = some '/' then
        let push := match toks with
          | .anyRecursive :: _ :: _ => toks
          | _ => .anyRecursive :: toks
        match after with
        | '/' :: rest' => compileAux fuel (i + 3) (some '/') push rest'
        | [] => .ok push.reverse
        | _ => .error ⟨i + 2, recursiveMsg⟩
      else .error ⟨i - 1, recursiveMsg⟩
    else compileAux fuel (i + 1) (some '*') (.anySequence :: toks) rest
  | fuel + 1, i, _, toks, '[' :: rest =>
    let refuse : Except PatternError (List Token) := .error ⟨i, rangeMsg⟩
    match rest with
    | '!' :: body =>
      if body.length < 2 then refuse
      else
        match closeAt? (body.drop 1) with
        | some j =>
          compileAux fuel (i + j + 4) (some ']') (.anyExcept (charSpecs (body.take (j + 1))) :: toks)
            (body.drop (j + 2))
        | none => refuse
    | body =>
      if body.length < 2 then refuse
      else
        match closeAt? (body.drop 1) with
        | some j =>
          compileAux fuel (i + j + 3) (some ']') (.anyWithin (charSpecs (body.take (j + 1))) :: toks)
            (body.drop (j + 2))
        | none => refuse
  | fuel + 1, i, _, toks, c :: rest => compileAux fuel (i + 1) (some c) (.char c :: toks) rest

/-- **A compiled pattern.** -/
structure Pattern where
  text : String
  tokens : List Token
  deriving DecidableEq, Repr

/-- Compiles a pattern, or says why it is refused. -/
def Pattern.compile (text : String) : Except PatternError Pattern :=
  let cs := text.toList
  (compileAux (cs.length + 1) 0 none [] cs).map (⟨text, ·⟩)

/-- Whether a character belongs to a set. -/
def inSpecs (c : Char) (specs : List CharSpec) : Bool :=
  specs.any fun
    | .single s => c == s
    | .range lo hi => lo ≤ c && c ≤ hi

/-- **The three outcomes of a match attempt.** -/
inductive Outcome where
  | matched
  | retry
  | exhausted
  deriving DecidableEq, Repr

/-- Tries the rest of the pattern after every prefix that a wildcard may
swallow, in order of length; the first answer other than `retry` is final.
When the text runs out, the rest of the pattern is tried on nothing. -/
def runWildcard (recursive : Bool) (rest : Bool → List Char → Outcome) :
    Bool → List Char → Outcome
  | follows, [] => rest follows []
  | _, c :: cs =>
    let follows := c == '/'
    if recursive && !follows then runWildcard recursive rest follows cs
    else
      match rest follows cs with
      | .retry => runWildcard recursive rest follows cs
      | r => r

/-- **Matches tokens against text.** `follows` says whether the text so far
ends in a slash. -/
def matchFrom : List Token → Bool → List Char → Outcome
  | [], _, cs => if cs.isEmpty then .matched else .retry
  | .anySequence :: toks, follows, cs =>
    match matchFrom toks follows cs with
    | .retry => runWildcard false (matchFrom toks) follows cs
    | r => r
  | .anyRecursive :: toks, follows, cs =>
    match matchFrom toks follows cs with
    | .retry => runWildcard true (matchFrom toks) follows cs
    | r => r
  | _ :: _, _, [] => .exhausted
  | tok :: toks, _, c :: cs =>
    let ok := match tok with
      | .char d => c == d
      | .anyChar => true
      | .anyWithin specs => inSpecs c specs
      | .anyExcept specs => !inSpecs c specs
      | _ => false
    if ok then matchFrom toks (c == '/') cs else .retry

/-- **Whether a pattern matches a path's text.** -/
def Pattern.matches (p : Pattern) (path : String) : Bool :=
  matchFrom p.tokens true path.toList == .matched

end Glob

end ReadingOrder
