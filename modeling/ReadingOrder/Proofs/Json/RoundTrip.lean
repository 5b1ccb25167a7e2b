import ReadingOrder.Proofs.Json.Reading
import ReadingOrder.Config.Read
import ReadingOrder.Listing
/-!
# Written JSON reads back

The library writes JSON in two places: a configuration is saved as its
pretty-printed object (`Config.toValue`), and a print order can be listed as
a pretty-printed array of paths (`listing .json`). Both are meant to be read
again, the first by the configuration reader, the second by any JSON
reader; this module proves that they are, for every configuration and every
list of paths, whatever characters their texts hold.

The texts are first laid out as character lists in the order the readers
take them (`toList_prettyAt_strs`, `Config.toList_pretty`), so that each
reading is a chain of the prefix inverses of `Proofs.Json.Reading`: an
array of strings is read element by element (`Reader.takes_items`,
`Config.takes_textItems`), and a configuration member by member, one step
per field (`Config.takes_members_config`). A saved configuration holds each
key once, so the reader's check for repeated keys never fires, and its six
members set the six fields of the default configuration to the saved
values: the configuration read back is the one saved (`Config.ofText_pretty`).
A listing read by the general reader is the array of its paths as strings
(`Value.ofText_listing`).
-/

namespace ReadingOrder.Json

/-! ## Layout of the written text -/

theorem toList_quote (s : String) :
    (quote s).toList = '"' :: (s.toList.flatMap escapeChar ++ ['"']) := by
  simp [quote]

theorem head?_quote_append (s : String) (t : List Char) :
    ((quote s).toList ++ t).head? = some '"' := by
  simp [toList_quote]

/-- Elements of an array of strings, one per line at level `l`. -/
theorem toList_prettyItems_str (l : Nat) (x : String) (xs : List String) :
    (prettyItems l ((x :: xs).map Value.str)).toList =
      (indent l).toList ++ (quote x).toList ++
        xs.flatMap (fun y => ',' :: ('\n' :: (indent l).toList) ++ (quote y).toList) := by
  induction xs generalizing x with
  | nil => simp [prettyItems, Value.prettyAt]
  | cons y ys ih =>
    rw [List.map_cons, List.map_cons, prettyItems, ← List.map_cons, String.toList_append, ih]
    · simp [Value.prettyAt]
    · simp

/-- **A non-empty array of strings laid out at level `l`**, grouped as a
reader takes it: the opening bracket, then the elements with the line
breaks before them and the one before the closing bracket, then the
bracket. -/
theorem toList_prettyAt_strs (l : Nat) (x : String) (xs : List String) :
    ((Value.arr ((x :: xs).map Value.str)).prettyAt l).toList =
      '[' :: ((('\n' :: (indent (l + 1)).toList) ++ ((quote x).toList ++
        (xs.flatMap (fun y => ',' :: ('\n' :: (indent (l + 1)).toList) ++ (quote y).toList) ++
        ('\n' :: (indent l).toList)))) ++ [']']) := by
  rw [List.map_cons, Value.prettyAt, ← List.map_cons]
  simp only [String.toList_append, toList_prettyItems_str]
  simp

theorem toList_prettyAt_nil (l : Nat) :
    ((Value.arr (([] : List String).map Value.str)).prettyAt l).toList = ['[', ']'] := by
  simp [Value.prettyAt]

namespace Reader

theorem blanks_lineBreak (l : Nat) : Blanks ('\n' :: (indent l).toList) := by
  simp [Blanks, indent, List.mem_replicate, isBlank]

/-! ## Arrays of strings as values -/

theorem takes_found_str {tail : List Char} (s : String) :
    Takes found (quote s).toList (.str s) tail := by
  rw [found, toList_quote]
  apply takes_peek_bind
  simp +decide only [List.cons_append]
  exact takes_eat_bind (Takes.bind_nil (takes_string s) (takes_pure _ _))

theorem takes_valueAux_str {m d : Nat} {tail : List Char} (s : String) :
    Takes (valueAux (m + 1) d) (quote s).toList (.str s) tail := by
  rw [valueAux]
  refine Takes.nil_bind (takes_skipBlanks blanks_nil
    (noBlankAt_of_head (head?_quote_append s tail) rfl)) ?_
  rw [head?_quote_append]
  simp +decide only
  exact Takes.bind_nil (takes_found_str s) (takes_pure _ _)

theorem takes_items_end {item : Reader Value} {first : Bool} {ends tail : List Char}
    (he : Blanks ends) {n : Nat} {acc : List Value} (hn : 0 < n) :
    Takes (items item n first acc) ends acc.reverse (']' :: tail) := by
  obtain ⟨m, rfl⟩ : ∃ m, n = m + 1 := ⟨n - 1, by omega⟩
  rw [items]
  exact Takes.bind_nil (takes_hasElement_end he) (takes_pure _ _)

/-- **The element loop reads back the elements after the first**, each
after a comma and the blanks `bs`, given an element reader that reads a
written string back. -/
theorem takes_items {item : Reader Value} (hitem : ∀ s t, Takes item (quote s).toList (.str s) t)
    {bs ends tail : List Char} (hb : Blanks bs) (he : Blanks ends) (ys : List String) :
    ∀ (n : Nat) (acc : List Value), ys.length < n →
      Takes (items item n false acc)
        ((ys.flatMap fun y => ',' :: bs ++ (quote y).toList) ++ ends)
        (acc.reverse ++ ys.map .str) (']' :: tail) := by
  induction ys with
  | nil =>
    intro n acc hn
    simpa using takes_items_end he hn
  | cons y ys ih =>
    intro n acc hn
    obtain ⟨m, rfl⟩ : ∃ m, n = m + 1 := ⟨n - 1, by simp at hn; omega⟩
    rw [items, List.flatMap_cons, List.append_assoc, List.cons_append, ← List.cons_append,
      List.append_assoc]
    refine Takes.bind (takes_hasElement_next hb ?_) ?_
    · simp [toList_quote]
    simp only [↓reduceIte]
    refine Takes.bind (hitem y _) ?_
    simpa using ih m (.str y :: acc) (by simp at hn; omega)

/-- **An array of strings reads back as a value**, at any level of nesting
that leaves room for one more. -/
theorem takes_valueAux_strs {n d : Nat} (hn : 2 ≤ n) (hd : 1 < d) {tail : List Char} (l : Nat)
    (xs : List String) :
    Takes (valueAux n d) ((Value.arr (xs.map .str)).prettyAt l).toList
      (.arr (xs.map .str)) tail := by
  obtain ⟨m, rfl⟩ : ∃ m, n = m + 2 := ⟨n - 2, by omega⟩
  rw [valueAux]
  cases xs with
  | nil =>
    rw [toList_prettyAt_nil]
    refine Takes.nil_bind (takes_skipBlanks_at rfl) ?_
    simp +decide only [if_neg (show ¬d ≤ 1 by omega)]
    refine takes_eat_bind (takes_fuel_bind ?_)
    exact Takes.nil_bind (takes_items_end blanks_nil (by omega))
      (Takes.bind takes_endArray (takes_pure _ _))
  | cons x xs =>
    rw [toList_prettyAt_strs]
    refine Takes.nil_bind (takes_skipBlanks_at rfl) ?_
    simp +decide only [if_neg (show ¬d ≤ 1 by omega)]
    refine takes_eat_bind (takes_fuel_bind ?_)
    refine Takes.bind ?_ (Takes.bind takes_endArray (takes_pure _ _))
    -- the first element follows a line break, the others a comma and one
    rw [items]
    refine Takes.bind (takes_hasElement_first (blanks_lineBreak _) ?_) ?_
    · simp [toList_quote]
    simp only [↓reduceIte]
    refine Takes.bind (takes_valueAux_str x) ?_
    refine takes_items (fun s t => takes_valueAux_str s) (blanks_lineBreak (l + 1))
      (blanks_lineBreak l) xs _ [.str x] ?_
    have := length_le_length_flatMap
      (f := fun y => ',' :: ('\n' :: (indent (l + 1)).toList) ++ (quote y).toList) (by simp) xs
    simp only [List.length_append, List.length_cons] at this ⊢
    omega

end Reader

open Reader in
/-- **A listing in JSON reads back** as the array of its paths. -/
theorem Value.ofText_listing (paths : List String) :
    Value.ofText (listing .json paths) = .ok (.arr (paths.map .str)) := by
  unfold Value.ofText
  apply Takes.run_map
  rw [listing, Value.pretty, String.toList_append]
  apply takes_fuel_bind
  refine Takes.bind (takes_valueAux_strs ?_ (by decide) 0 paths) ?_
  · simp
  exact Takes.bind_nil (takes_skipBlanks (by simp [Blanks, isBlank]) noBlankAt_nil)
    (takes_pure _ _)

end ReadingOrder.Json

namespace ReadingOrder.Config

open Json Reader

/-! ## Fields of a configuration -/

theorem takes_stringField {e : String} {bs tail : List Char} (hb : Blanks bs) (s : String) :
    Takes (stringField e) (bs ++ (quote s).toList) s tail := by
  rw [stringField]
  refine Takes.bind (takes_skipBlanks hb (noBlankAt_of_head (head?_quote_append s tail) rfl)) ?_
  rw [head?_quote_append]
  simp +decide only [toList_quote]
  exact takes_eat_bind (takes_string s)

theorem takes_stringField_quote {e : String} {tail : List Char} (s : String) :
    Takes (stringField e) (quote s).toList s tail := by
  have h : Takes (stringField e) ([] ++ (quote s).toList) s tail := takes_stringField blanks_nil s
  simpa using h

theorem takes_textItems_end {first : Bool} {ends tail : List Char} (he : Blanks ends) {n : Nat}
    {acc : List String} (hn : 0 < n) :
    Takes (textItems n first acc) ends acc.reverse (']' :: tail) := by
  obtain ⟨m, rfl⟩ : ∃ m, n = m + 1 := ⟨n - 1, by omega⟩
  rw [textItems]
  exact Takes.bind_nil (takes_hasElement_end he) (takes_pure _ _)

/-- The configuration reader's loop over the strings of a list, after the
first, as `takes_items` for the general reader. -/
theorem takes_textItems {bs ends tail : List Char} (hb : Blanks bs) (he : Blanks ends)
    (ys : List String) :
    ∀ (n : Nat) (acc : List String), ys.length < n →
      Takes (textItems n false acc)
        ((ys.flatMap fun y => ',' :: bs ++ (quote y).toList) ++ ends) (acc.reverse ++ ys)
        (']' :: tail) := by
  induction ys with
  | nil =>
    intro n acc hn
    simpa using takes_textItems_end he hn
  | cons y ys ih =>
    intro n acc hn
    obtain ⟨m, rfl⟩ : ∃ m, n = m + 1 := ⟨n - 1, by simp at hn; omega⟩
    rw [textItems, List.flatMap_cons, List.append_assoc, List.cons_append, ← List.cons_append,
      List.append_assoc]
    refine Takes.bind (takes_hasElement_next hb ?_) ?_
    · simp [toList_quote]
    simp only [↓reduceIte]
    refine Takes.bind (takes_stringField_quote y) ?_
    simpa using ih m (y :: acc) (by simp at hn; omega)

/-- **A list field reads back**, laid out at any level. -/
theorem takes_textsField {bs tail : List Char} (hb : Blanks bs) (l : Nat) (xs : List String) :
    Takes textsField (bs ++ ((textsValue xs).prettyAt l).toList) xs tail := by
  rw [textsField]
  cases xs with
  | nil =>
    rw [textsValue, toList_prettyAt_nil]
    refine Takes.bind (takes_skipBlanks hb (noBlankAt_of_head rfl rfl)) ?_
    simp +decide only [head?_cons_append]
    refine takes_eat_bind (takes_fuel_bind ?_)
    exact Takes.nil_bind (takes_textItems_end blanks_nil (by omega))
      (Takes.bind takes_endArray (takes_pure _ _))
  | cons x xs =>
    rw [textsValue, toList_prettyAt_strs]
    refine Takes.bind (takes_skipBlanks hb (noBlankAt_of_head rfl rfl)) ?_
    simp +decide only [head?_cons_append]
    refine takes_eat_bind (takes_fuel_bind ?_)
    refine Takes.bind ?_ (Takes.bind takes_endArray (takes_pure _ _))
    rw [textItems]
    refine Takes.bind (takes_hasElement_first (blanks_lineBreak _) ?_) ?_
    · simp [toList_quote]
    simp only [↓reduceIte]
    refine Takes.bind (takes_stringField_quote x) ?_
    refine takes_textItems (blanks_lineBreak (l + 1)) (blanks_lineBreak l) xs _ [x] ?_
    have := length_le_length_flatMap
      (f := fun y => ',' :: ('\n' :: (indent (l + 1)).toList) ++ (quote y).toList) (by simp) xs
    simp only [List.length_append, List.length_cons] at this ⊢
    omega

theorem takes_readField_rules {tail : List Char} (cfg : Config) (s : String) :
    Takes (readField cfg "rules") (' ' :: ((Value.str s).prettyAt 1).toList)
      { cfg with rules := s } tail := by
  simp only [readField]
  have h : Takes (stringField "path string") ([' '] ++ (quote s).toList) s tail :=
    takes_stringField (by simp [Blanks, isBlank]) s
  exact Takes.bind_nil (by simpa [Value.prettyAt] using h) (takes_pure _ _)

/-- The list fields are read by one reader and stored by a field update. -/
theorem takes_textsField_then {tail : List Char} (f : List String → Config) (xs : List String) :
    Takes (textsField >>= fun ys => pure (f ys)) (' ' :: ((textsValue xs).prettyAt 1).toList)
      (f xs) tail :=
  Takes.bind_nil (takes_textsField (by simp [Blanks, isBlank] : Blanks [' ']) 1 xs)
    (takes_pure _ _)

/-! ## Members of a configuration -/

/-- A member of an object one level deep, laid out as the pretty printer
lays it out: the separator before it, the key, a colon and a space, the
value, then what follows. -/
def memberText (sep : List Char) (key : String) (v : Value) (rest : List Char) : List Char :=
  sep ++ ((quote key).toList ++ (':' :: ((' ' :: (v.prettyAt 1).toList) ++ rest)))

/-- The line break before a member one level deep. -/
def memberBreak : List Char := '\n' :: (indent 1).toList

/-- The members of a configuration as the pretty printer lays them out, and
the line break before the closing brace. -/
def membersText (c : Config) : List Char :=
  memberText memberBreak "rules" (.str c.rules) <|
  memberText (',' :: memberBreak) "headerExtensions" (textsValue c.headerExtensions) <|
  memberText (',' :: memberBreak) "implementationExtensions"
    (textsValue c.implementationExtensions) <|
  memberText (',' :: memberBreak) "extensions" (textsValue c.extensions) <|
  memberText (',' :: memberBreak) "excludeDirs" (textsValue c.excludeDirs) <|
  memberText (',' :: memberBreak) "excludeFiles" (textsValue c.excludeFiles) ['\n']

/-- **A saved configuration is its members between braces.** -/
theorem toList_pretty (c : Config) :
    c.toValue.pretty.toList = '{' :: (c.membersText ++ ['}']) := by
  have h0 : indent 0 = "" := rfl
  simp [membersText, memberText, memberBreak, toValue, Value.pretty, Value.prettyAt,
    prettyMembers, h0]

/-- **One turn of the member loop reads one member**: its separator, its
key, which was not met before, the colon, and its value, which the field
reader takes. -/
theorem takes_members_step {n : Nat} {first : Bool} {seen : List String} {cfg cfg' : Config}
    {res : Except String Config} {sep rest tail : List Char} {key : String} {v : Value}
    (hm : ∀ t : List Char, t.head? = some '"' → Takes (hasMember first) sep true t)
    (hkey : ¬(key ∈ keys ∧ key ∈ seen))
    (hv : Takes (readField cfg key) (' ' :: (v.prettyAt 1).toList) cfg' (rest ++ tail))
    (hr : Takes (members n false (key :: seen) cfg') rest res tail) :
    Takes (members (n + 1) first seen cfg) (memberText sep key v rest) res tail := by
  rw [members, memberText]
  refine Takes.bind (hm _ (by simp [toList_quote])) ?_
  simp only [↓reduceIte, toList_quote, List.cons_append]
  refine takes_eat_bind (Takes.bind (takes_string key) ?_)
  simp only [hkey, ↓reduceIte]
  exact Takes.bind takes_colon (Takes.bind hv hr)

theorem takes_members_end {n : Nat} {first : Bool} {seen : List String} {cfg : Config}
    {bs tail : List Char} (hb : Blanks bs) :
    Takes (members (n + 1) first seen cfg) bs (.ok cfg) ('}' :: tail) := by
  rw [members]
  exact Takes.bind_nil (takes_hasMember_end hb) (takes_pure _ _)

/-- **The members of a saved configuration read back** into the default
configuration give the saved one: each of the six keys comes once, and sets
its own field. -/
theorem takes_members_config {tail : List Char} (c : Config) {n : Nat} (hn : 7 ≤ n) :
    Takes (members n true [] {}) c.membersText (.ok c) ('}' :: tail) := by
  obtain ⟨m, rfl⟩ : ∃ m, n = m + 7 := ⟨n - 7, by omega⟩
  have first : ∀ t : List Char, t.head? = some '"' → Takes (hasMember true) memberBreak true t :=
    fun _ ht => takes_hasMember_first (blanks_lineBreak 1) ht
  have next : ∀ t : List Char, t.head? = some '"' →
      Takes (hasMember false) (',' :: memberBreak) true t :=
    fun _ ht => takes_hasMember_next (blanks_lineBreak 1) ht
  rw [membersText]
  refine takes_members_step first (by decide) (takes_readField_rules _ _) ?_
  refine takes_members_step next (by decide)
    (by simp only [readField]; exact takes_textsField_then _ _) ?_
  refine takes_members_step next (by decide)
    (by simp only [readField]; exact takes_textsField_then _ _) ?_
  refine takes_members_step next (by decide)
    (by simp only [readField]; exact takes_textsField_then _ _) ?_
  refine takes_members_step next (by decide)
    (by simp only [readField]; exact takes_textsField_then _ _) ?_
  refine takes_members_step next (by decide)
    (by simp only [readField]; exact takes_textsField_then _ _) ?_
  exact takes_members_end (by simp [Blanks, isBlank])

theorem takes_value {tail : List Char} (c : Config) :
    Takes value ('{' :: (c.membersText ++ ['}'])) c tail := by
  rw [value]
  refine Takes.nil_bind (takes_skipBlanks_at rfl) ?_
  simp +decide only
  refine takes_eat_bind (takes_fuel_bind ?_)
  refine Takes.bind (takes_members_config c ?_) ?_
  · simp [membersText, memberText]
    omega
  exact Takes.bind takes_endObject (takes_pure _ _)

/-- **A saved configuration reads back** as itself. -/
theorem ofText_pretty (c : Config) : ofText c.toValue.pretty = .ok c := by
  unfold ofText
  apply Takes.run_map
  rw [toList_pretty]
  exact Takes.bind_nil (takes_value c)
    (Takes.bind_nil (takes_skipBlanks blanks_nil noBlankAt_nil) (takes_pure _ _))

end ReadingOrder.Config

namespace ReadingOrder

/-- **The library's JSON output reads back.** A configuration saved as
pretty-printed JSON is read back by the configuration reader as the same
configuration, whatever its texts; and a print order listed as JSON is read
by the general JSON reader as the array of exactly its paths. -/
theorem json_output_reads_back :
    (∀ c : Config, Config.ofText c.toValue.pretty = .ok c) ∧
    (∀ paths : List String, Json.Value.ofText (listing .json paths) = .ok (.arr (paths.map .str))) :=
  ⟨Config.ofText_pretty, Json.Value.ofText_listing⟩

end ReadingOrder
