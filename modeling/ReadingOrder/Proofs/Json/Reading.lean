import ReadingOrder.Json.Parse
import ReadingOrder.Json.Write
/-!
# What a reader takes off a text

A reader of JSON text works on a cursor and may fail; to say that it reads
back what a writer wrote, one statement shape is enough. `r.Takes xs a tail`
says that from any cursor whose remaining text is `xs ++ tail`, the reader
`r` succeeds, answers `a`, and leaves exactly `tail`: it is a prefix inverse
of whatever wrote `xs`. Line and column play no part, and the statement
holds for every cursor, so the shape composes: a reader that takes `xs` and
then one that takes `ys` together take `xs ++ ys` (`Takes.bind`).

The primitive steps are given their shape once (`takes_peek_bind`,
`takes_eat_bind`, `takes_fuel_bind`), and every reader used below is then
read off its definition without looking at cursors again:

* strings: a string written with the writer's escapes is read back as that
  string (`takes_string`). The writer has three kinds of escape
  (`escapeChar_cases`): a two-character escape, a `\u00xx` escape of a
  control character, or the character itself, and the reader's loop takes
  each kind in one turn (`takes_stringAux_step`);
* blanks: a run of blanks followed by something that is not a blank is
  skipped, and the next character is looked at (`takes_skipBlanks`);
* the punctuation of arrays and objects: separators, colons and closing
  brackets, as the pretty printer places them.

The loops of the readers run on fuel, one turn more than the text has
characters; each lemma about a loop asks for fuel above the number of turns
the text needs, which the callers read off the text's length.
-/

namespace ReadingOrder.Json

namespace Reader

variable {α β : Type}

/-- **`r` takes `xs` and answers `a`**, when `tail` follows: from any cursor
whose remaining text is `xs ++ tail`, it succeeds with `a` and leaves
`tail`. -/
def Takes (r : Reader α) (xs : List Char) (a : α) (tail : List Char) : Prop :=
  ∀ c : Cursor, c.rest = xs ++ tail → ∃ c' : Cursor, r.run c = .ok (a, c') ∧ c'.rest = tail

/-! ## Composing readers -/

/-- **Sequencing.** A reader that takes `xs` and a continuation that takes
`ys` from its answer together take `xs ++ ys`. -/
theorem Takes.bind {r : Reader α} {f : α → Reader β} {xs ys : List Char} {a : α} {b : β}
    {tail : List Char} (hr : Takes r xs a (ys ++ tail)) (hf : Takes (f a) ys b tail) :
    Takes (r >>= f) (xs ++ ys) b tail := by
  intro c hc
  obtain ⟨c₁, h₁, hc₁⟩ := hr c (by rw [hc, List.append_assoc])
  obtain ⟨c₂, h₂, hc₂⟩ := hf c₁ hc₁
  refine ⟨c₂, ?_, hc₂⟩
  simp only [StateT.run_bind, h₁]
  exact h₂

/-- Sequencing with a continuation that takes nothing. -/
theorem Takes.bind_nil {r : Reader α} {f : α → Reader β} {xs : List Char} {a : α} {b : β}
    {tail : List Char} (hr : Takes r xs a tail) (hf : Takes (f a) [] b tail) :
    Takes (r >>= f) xs b tail := by
  have h := Takes.bind (show Takes r xs a ([] ++ tail) from hr) hf
  simpa using h

/-- Sequencing after a reader that only looks. -/
theorem Takes.nil_bind {r : Reader α} {f : α → Reader β} {xs : List Char} {a : α} {b : β}
    {tail : List Char} (hr : Takes r [] a (xs ++ tail)) (hf : Takes (f a) xs b tail) :
    Takes (r >>= f) xs b tail :=
  Takes.bind hr hf

/-- A reader that takes a whole text answers on it. -/
theorem Takes.run_map {r : Reader α} {text : List Char} {a : α} (h : Takes r text a []) :
    (r.run { rest := text }).map Prod.fst = .ok a := by
  obtain ⟨c', h', -⟩ := h { rest := text } (by simp)
  rw [h']
  rfl

theorem takes_pure (a : α) (tail : List Char) : Takes (pure a : Reader α) [] a tail :=
  fun c hc => ⟨c, rfl, hc⟩

theorem takes_peek {tail : List Char} : Takes peek [] tail.head? tail :=
  fun c hc => ⟨c, by simp [peek, hc]; rfl, hc⟩

/-- Looking at the next character answers the head of the text. -/
theorem takes_peek_bind {f : Option Char → Reader β} {xs : List Char} {b : β} {tail : List Char}
    (h : Takes (f (xs ++ tail).head?) xs b tail) : Takes (peek >>= f) xs b tail := by
  intro c hc
  obtain ⟨c', h', hc'⟩ := h c hc
  refine ⟨c', ?_, hc'⟩
  simp only [StateT.run_bind]
  rw [← hc] at h'
  exact h'

/-- Taking a character takes the head of the text. -/
theorem takes_eat_bind {f : Unit → Reader β} {ch : Char} {xs : List Char} {b : β}
    {tail : List Char} (h : Takes (f ()) xs b tail) : Takes (eat >>= f) (ch :: xs) b tail := by
  intro c hc
  obtain ⟨c', h', hc'⟩ := h c.step (by simp [Cursor.step, hc]; split <;> rfl)
  exact ⟨c', h', hc'⟩

/-- The fuel of a loop is one more than the characters left. -/
theorem takes_fuel_bind {f : Nat → Reader β} {xs : List Char} {b : β} {tail : List Char}
    (h : Takes (f ((xs ++ tail).length + 1)) xs b tail) : Takes (fuel >>= f) xs b tail := by
  intro c hc
  obtain ⟨c', h', hc'⟩ := h c hc
  refine ⟨c', ?_, hc'⟩
  simp only [StateT.run_bind]
  rw [← hc] at h'
  exact h'

theorem head?_cons_append (c : Char) (xs t : List Char) : ((c :: xs) ++ t).head? = some c := rfl

/-! ## Strings -/

theorem hexValue_hexDigit : ∀ k < 16, hexValue? (hexDigit k) = some k := by decide

/-- **The three kinds of escape.** A character is written as a backslash
and a character that the reader's two-character escapes map back to it, as
a `\u00xx` escape if it is another control character, or as itself if it is
neither a quote, a backslash nor a control character. -/
theorem escapeChar_cases (ch : Char) :
    (∃ e, escapeChar ch = ['\\', e] ∧ simpleEscape? e = some ch) ∨
    (escapeChar ch = ['\\', 'u', '0', '0', hexDigit (ch.toNat / 16), hexDigit (ch.toNat % 16)] ∧
      ch.toNat < 0x20) ∨
    (escapeChar ch = [ch] ∧ ch ≠ '"' ∧ ch ≠ '\\' ∧ 0x20 ≤ ch.toNat) := by
  by_cases h₁ : ch = '"'
  · exact .inl ⟨'"', by simp [escapeChar, h₁], by simp [h₁, simpleEscape?]⟩
  by_cases h₂ : ch = '\\'
  · exact .inl ⟨'\\', by simp [escapeChar, h₂], by simp [h₂, simpleEscape?]⟩
  by_cases h₃ : ch = '\n'
  · exact .inl ⟨'n', by simp [escapeChar, h₃], by simp [h₃, simpleEscape?]⟩
  by_cases h₄ : ch = '\r'
  · exact .inl ⟨'r', by simp [escapeChar, h₄], by simp [h₄, simpleEscape?]⟩
  by_cases h₅ : ch = '\t'
  · exact .inl ⟨'t', by simp [escapeChar, h₅], by simp [h₅, simpleEscape?]⟩
  by_cases h₆ : ch = '\x08'
  · exact .inl ⟨'b', by simp [escapeChar, h₆], by simp [h₆, simpleEscape?]⟩
  by_cases h₇ : ch = '\x0c'
  · exact .inl ⟨'f', by simp [escapeChar, h₇], by simp [h₇, simpleEscape?]⟩
  by_cases h₈ : ch.toNat < 0x20
  · exact .inr (.inl ⟨by simp [escapeChar, *], h₈⟩)
  · exact .inr (.inr ⟨by simp [escapeChar, *], h₁, h₂, by omega⟩)

/-- A text made of pieces that each hold a character is at least as long as
the number of pieces: the fuel bound of the loops over characters and over
elements. -/
theorem length_le_length_flatMap {γ : Type} {f : γ → List Char} (hf : ∀ y, 0 < (f y).length)
    (ys : List γ) : ys.length ≤ (ys.flatMap f).length := by
  induction ys with
  | nil => simp
  | cons y ys ih =>
    have := hf y
    simp only [List.flatMap_cons, List.length_append, List.length_cons]
    omega

theorem length_escapeChar_pos (ch : Char) : 0 < (escapeChar ch).length := by
  rcases escapeChar_cases ch with ⟨e, he, -⟩ | ⟨he, -⟩ | ⟨he, -⟩ <;> simp [he]

theorem takes_hex4 {a b d e : Char} {w x y z : Nat} {tail : List Char}
    (ha : hexValue? a = some w) (hb : hexValue? b = some x) (hd : hexValue? d = some y)
    (he : hexValue? e = some z) :
    Takes hex4 [a, b, d, e] (((w * 16 + x) * 16 + y) * 16 + z) tail := by
  intro c hc
  refine ⟨{ c with rest := tail, column := c.column + 4 }, ?_, rfl⟩
  simp only [hex4, StateT.run_bind, StateT.run_get, hc, List.cons_append, List.nil_append,
    pure_bind, ha, hb, hd, he]
  rfl

theorem takes_escape_simple {e ch : Char} {tail : List Char} (h : simpleEscape? e = some ch) :
    Takes escape [e] ch tail := by
  rw [escape]
  apply takes_peek_bind
  simp only [List.singleton_append, List.head?_cons, h]
  exact takes_eat_bind (takes_pure ch tail)

/-- A `\u00xx` escape of a control character reads back as that
character: it is below the surrogates, so no second escape is looked for. -/
theorem takes_escape_unicode {ch : Char} {tail : List Char} (h : ch.toNat < 0x20) :
    Takes escape ['u', '0', '0', hexDigit (ch.toNat / 16), hexDigit (ch.toNat % 16)] ch tail := by
  rw [escape]
  apply takes_peek_bind
  simp only [List.cons_append, List.head?_cons, show simpleEscape? 'u' = none from rfl,
    ↓reduceIte]
  apply takes_eat_bind
  rw [unicodeEscape]
  have h0 : hexValue? '0' = some 0 := rfl
  have hq : ch.toNat / 16 < 16 := by omega
  have hr : ch.toNat % 16 < 16 := Nat.mod_lt _ (by omega)
  refine Takes.bind_nil (takes_hex4 h0 h0 (hexValue_hexDigit _ hq) (hexValue_hexDigit _ hr)) ?_
  have hn : ((0 * 16 + 0) * 16 + ch.toNat / 16) * 16 + ch.toNat % 16 = ch.toNat := by omega
  rw [hn, if_neg (by omega), if_pos (by omega), Char.ofNat_toNat]
  exact takes_pure ch tail

/-- **One turn of the string loop takes one written character.** -/
theorem takes_stringAux_step {n : Nat} {acc xs tail : List Char} {r : String} (ch : Char)
    (h : Takes (stringAux n (ch :: acc)) xs r tail) :
    Takes (stringAux (n + 1) acc) (escapeChar ch ++ xs) r tail := by
  rcases escapeChar_cases ch with ⟨e, he, hs⟩ | ⟨he, hc⟩ | ⟨he, hq, hb, hc⟩
  · rw [he, stringAux]
    apply takes_peek_bind
    simp only [List.cons_append, List.head?_cons]
    exact takes_eat_bind (Takes.bind (takes_escape_simple hs) h)
  · rw [he, stringAux]
    apply takes_peek_bind
    simp only [List.cons_append, List.head?_cons]
    exact takes_eat_bind (Takes.bind (takes_escape_unicode hc) h)
  · -- a plain character: neither quote nor backslash, so the last case of the loop
    rw [he, stringAux]
    apply takes_peek_bind
    simp only [List.cons_append, List.head?_cons, List.nil_append]
    rw [if_neg (by omega)]
    exact takes_eat_bind h

/-- The string loop takes the written characters and the closing quote,
given a turn for each character and one for the quote. -/
theorem takes_stringAux (tail s : List Char) :
    ∀ (n : Nat) (acc : List Char), s.length < n →
      Takes (stringAux n acc) (s.flatMap escapeChar ++ ['"'])
        (String.ofList (acc.reverse ++ s)) tail := by
  induction s with
  | nil =>
    intro n acc hn
    obtain ⟨m, rfl⟩ : ∃ m, n = m + 1 := ⟨n - 1, by simp at hn; omega⟩
    rw [stringAux]
    apply takes_peek_bind
    simp only [List.flatMap_nil, List.nil_append, List.singleton_append, List.head?_cons,
      List.append_nil]
    exact takes_eat_bind (takes_pure _ tail)
  | cons ch s ih =>
    intro n acc hn
    obtain ⟨m, rfl⟩ : ∃ m, n = m + 1 := ⟨n - 1, by simp at hn; omega⟩
    have h := takes_stringAux_step ch (ih m (ch :: acc) (by simp at hn; omega))
    simpa using h

/-- **A written string reads back**: after its opening quote, the string
reader takes the escaped characters and the closing quote, and answers the
string. -/
theorem takes_string {tail : List Char} (s : String) :
    Takes string (s.toList.flatMap escapeChar ++ ['"']) s tail := by
  rw [string]
  apply takes_fuel_bind
  have hn : s.toList.length < (s.toList.flatMap escapeChar ++ ['"'] ++ tail).length + 1 := by
    have := length_le_length_flatMap length_escapeChar_pos s.toList
    simp only [List.length_append, List.length_cons, List.length_nil]
    omega
  simpa using takes_stringAux tail s.toList _ [] hn

/-! ## Blanks -/

/-- A run of JSON blanks. -/
def Blanks (bs : List Char) : Prop := ∀ b ∈ bs, isBlank b = true

/-- What follows a run of blanks: its first character, if any, is no blank. -/
def NoBlankAt (tail : List Char) : Prop := ∀ c ∈ tail.head?, isBlank c = false

theorem noBlankAt_of_head {c : Char} {tail : List Char} (h : tail.head? = some c)
    (hc : isBlank c = false) : NoBlankAt tail := by
  intro d hd
  rw [h, Option.mem_some_iff] at hd
  exact hd ▸ hc

theorem noBlankAt_nil : NoBlankAt [] := by simp [NoBlankAt]

theorem blanks_nil : Blanks [] := by simp [Blanks]

theorem takes_skipBlanksAux {n : Nat} {bs tail : List Char} (hb : Blanks bs) (ht : NoBlankAt tail)
    (hn : bs.length ≤ n) : Takes (skipBlanksAux n) bs tail.head? tail := by
  induction bs generalizing n with
  | nil =>
    cases n with
    | zero => exact takes_peek
    | succ m =>
      rw [skipBlanksAux]
      apply takes_peek_bind
      cases h : tail with
      | nil => exact takes_pure _ _
      | cons c t =>
        have hc : isBlank c = false := ht c (by simp [h])
        simp only [List.nil_append, List.head?_cons, hc]
        exact takes_pure _ _
  | cons b bs ih =>
    obtain ⟨m, rfl⟩ : ∃ m, n = m + 1 := ⟨n - 1, by simp at hn; omega⟩
    rw [skipBlanksAux]
    apply takes_peek_bind
    have hb' : isBlank b = true := hb b (by simp)
    simp only [List.cons_append, List.head?_cons, hb', ↓reduceIte]
    exact takes_eat_bind (ih (fun x hx => hb x (by simp [hx])) (by simp at hn; omega))

/-- **Skipping blanks** takes the run of blanks and looks at what follows. -/
theorem takes_skipBlanks {bs tail : List Char} (hb : Blanks bs) (ht : NoBlankAt tail) :
    Takes skipBlanks bs tail.head? tail := by
  rw [skipBlanks]
  apply takes_fuel_bind
  exact takes_skipBlanksAux hb ht (by simp; omega)

/-- Looking past no blanks at a text that starts with `c`. -/
theorem takes_skipBlanks_at {c : Char} {xs tail : List Char} (hc : isBlank c = false) :
    Takes skipBlanks [] (some c) ((c :: xs) ++ tail) :=
  takes_skipBlanks blanks_nil (noBlankAt_of_head rfl hc)

/-! ## Punctuation

Each element of an array and each member of an object that the pretty
printer writes starts with a quote, after a separator: blanks before the
first, a comma and blanks before the others. -/

theorem takes_hasElement_first {bs tail : List Char} (hb : Blanks bs)
    (ht : tail.head? = some '"') : Takes (hasElement true) bs true tail := by
  rw [hasElement]
  refine Takes.bind_nil (takes_skipBlanks hb (noBlankAt_of_head ht rfl)) ?_
  simp +decide only [ht]
  exact takes_pure _ _

theorem takes_hasElement_next {bs tail : List Char} (hb : Blanks bs)
    (ht : tail.head? = some '"') : Takes (hasElement false) (',' :: bs) true tail := by
  rw [hasElement]
  refine Takes.nil_bind (takes_skipBlanks_at rfl) ?_
  simp +decide only [↓reduceIte]
  refine takes_eat_bind (Takes.bind_nil (takes_skipBlanks hb (noBlankAt_of_head ht rfl)) ?_)
  simp +decide only [ht]
  exact takes_pure _ _

theorem takes_hasElement_end {first : Bool} {bs tail : List Char} (hb : Blanks bs) :
    Takes (hasElement first) bs false (']' :: tail) := by
  rw [hasElement]
  exact Takes.bind_nil (takes_skipBlanks hb (noBlankAt_of_head rfl rfl)) (takes_pure _ _)

theorem takes_endArray {tail : List Char} : Takes endArray [']'] () tail := by
  rw [endArray]
  refine Takes.nil_bind (takes_skipBlanks_at rfl) ?_
  simp +decide only
  exact takes_eat_bind (takes_pure _ _)

theorem takes_hasMember_first {bs tail : List Char} (hb : Blanks bs)
    (ht : tail.head? = some '"') : Takes (hasMember true) bs true tail := by
  rw [hasMember]
  refine Takes.bind_nil (takes_skipBlanks hb (noBlankAt_of_head ht rfl)) ?_
  simp +decide only [ht, ↓reduceIte, keyFollows]
  exact takes_pure _ _

theorem takes_hasMember_next {bs tail : List Char} (hb : Blanks bs)
    (ht : tail.head? = some '"') : Takes (hasMember false) (',' :: bs) true tail := by
  rw [hasMember]
  refine Takes.nil_bind (takes_skipBlanks_at rfl) ?_
  simp +decide only [↓reduceIte]
  refine takes_eat_bind (Takes.bind_nil (takes_skipBlanks hb (noBlankAt_of_head ht rfl)) ?_)
  simp +decide only [ht, keyFollows]
  exact takes_pure _ _

theorem takes_hasMember_end {first : Bool} {bs tail : List Char} (hb : Blanks bs) :
    Takes (hasMember first) bs false ('}' :: tail) := by
  rw [hasMember]
  exact Takes.bind_nil (takes_skipBlanks hb (noBlankAt_of_head rfl rfl)) (takes_pure _ _)

theorem takes_colon {tail : List Char} : Takes colon [':'] () tail := by
  rw [colon]
  refine Takes.nil_bind (takes_skipBlanks_at rfl) ?_
  simp +decide only
  exact takes_eat_bind (takes_pure _ _)

theorem takes_endObject {tail : List Char} : Takes endObject ['}'] () tail := by
  rw [endObject]
  refine Takes.nil_bind (takes_skipBlanks_at rfl) ?_
  simp +decide only
  exact takes_eat_bind (takes_pure _ _)

end Reader

end ReadingOrder.Json
