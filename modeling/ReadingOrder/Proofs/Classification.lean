import ReadingOrder.Classify
import Mathlib.Data.List.Forall2
/-!
# Classification ignores ASCII case and leading dots

A file is classified by its extension, compared with the configured
extensions. Both sides are normalised before the comparison: the file's
extension has its ASCII letters put in lower case, and each configured entry
loses its leading dots and has its ASCII letters put in lower case. Lower
casing only touches the capitals `A` to `Z`, so two texts have the same lower
case exactly when they agree character by character up to the case of ASCII
letters (`Text.asciiLower_eq_asciiLower_iff`); every other character,
accented letters included, has to be equal.

Read that way the classifier is declarative (`classify_eq_some_iff`): a
path is classified exactly when it has an extension that some configured
entry matches, and the class is the first of header, implementation and
other whose entries match. Since only the normal forms are compared, the
class does not change when the extension's case changes, nor when the
configured entries change case or gain leading dots
(`classify_ignores_case_and_dots`).
-/

namespace ReadingOrder

namespace Text

/-- **Two characters are the same letter up to ASCII case**: they are equal,
or one is an ASCII capital and the other its lower-case letter. -/
def SameLetter (a b : Char) : Prop :=
  a = b ∨ (a.isUpper ∧ b.toNat = a.toNat + 32) ∨ (b.isUpper ∧ a.toNat = b.toNat + 32)

/-- **Two texts are equal up to ASCII case**, character by character. -/
def EqIgnoreAsciiCase (a b : String) : Prop :=
  List.Forall₂ SameLetter a.toList b.toList

theorem isUpper_iff (c : Char) : c.isUpper = true ↔ 65 ≤ c.toNat ∧ c.toNat ≤ 90 := by
  show decide (c.val ≥ 'A'.val ∧ c.val ≤ 'Z'.val) = true ↔ _
  rw [decide_eq_true_eq, ge_iff_le, UInt32.le_iff_toNat_le, UInt32.le_iff_toNat_le]
  rfl

/-- Lower casing moves a capital 32 code points up and leaves every other
character alone. -/
theorem toNat_toLower (c : Char) :
    c.toLower.toNat = if 65 ≤ c.toNat ∧ c.toNat ≤ 90 then c.toNat + 32 else c.toNat := by
  unfold Char.toLower
  split
  · rename_i h
    have hv : 65 ≤ c.toNat ∧ c.toNat ≤ 90 := by
      simp only [ge_iff_le, UInt32.le_iff_toNat_le] at h
      exact h
    rw [if_pos hv]
    simp only [Char.toNat] at hv ⊢
    rw [UInt32.toNat_add]
    show (c.val.toNat + 32) % 4294967296 = _
    omega
  · rename_i h
    have hv : ¬ (65 ≤ c.toNat ∧ c.toNat ≤ 90) := by
      simp only [ge_iff_le, UInt32.le_iff_toNat_le] at h
      exact h
    rw [if_neg hv]

/-- **Two characters have the same lower case exactly when they are the same
letter up to ASCII case.** -/
theorem toLower_eq_toLower_iff (a b : Char) : a.toLower = b.toLower ↔ SameLetter a b := by
  unfold SameLetter
  rw [← Char.toNat_inj, toNat_toLower, toNat_toLower, ← Char.toNat_inj, isUpper_iff, isUpper_iff]
  split <;> split <;> omega

theorem map_toLower_eq_iff :
    ∀ (l l' : List Char), l.map Char.toLower = l'.map Char.toLower ↔ List.Forall₂ SameLetter l l'
  | [], [] => by simp
  | [], _ :: _ => by simp
  | _ :: _, [] => by simp
  | a :: l, b :: l' => by
    rw [List.map_cons, List.map_cons, List.cons.injEq, toLower_eq_toLower_iff, map_toLower_eq_iff l l',
      List.forall₂_cons]

/-- **Two texts have the same ASCII lower case exactly when they are equal up
to ASCII case.** -/
theorem asciiLower_eq_asciiLower_iff (a b : String) :
    asciiLower a = asciiLower b ↔ EqIgnoreAsciiCase a b := by
  unfold asciiLower EqIgnoreAsciiCase
  rw [← String.toList_inj, String.toList_ofList, String.toList_ofList]
  exact map_toLower_eq_iff a.toList b.toList

end Text

namespace Classifier

/-- A configured extension with its leading dots removed. -/
def stripDots (x : String) : String :=
  String.ofList (x.toList.dropWhile (· = '.'))

/-- **A configured entry matches an extension** when, its leading dots
removed, it is the extension up to ASCII case. -/
def EntryMatches (entry e : String) : Prop :=
  Text.EqIgnoreAsciiCase (stripDots entry) e

/-- **The class a configuration gives an extension**: header when a header
entry matches it, else implementation when an implementation entry does,
else other when one of the other entries does. -/
def ClassOf (c : Config) (e : String) : FileClass → Prop
  | .header => ∃ x ∈ c.headerExtensions, EntryMatches x e
  | .implementation =>
    (¬ ∃ x ∈ c.headerExtensions, EntryMatches x e) ∧ ∃ x ∈ c.implementationExtensions, EntryMatches x e
  | .other =>
    (¬ ∃ x ∈ c.headerExtensions, EntryMatches x e) ∧
      (¬ ∃ x ∈ c.implementationExtensions, EntryMatches x e) ∧ ∃ x ∈ c.extensions, EntryMatches x e

/-- Two configured entries that are the same once their leading dots are
removed, up to ASCII case. -/
def SameEntry (x y : String) : Prop :=
  Text.EqIgnoreAsciiCase (stripDots x) (stripDots y)

theorem canonical_eq (x : String) : canonical x = Text.asciiLower (stripDots x) := rfl

/-- **A normalised entry list holds a lowered extension exactly when some
entry matches it.** -/
theorem contains_canonical_iff (l : List String) (e : String) :
    (l.map canonical).contains (Text.asciiLower e) = true ↔ ∃ x ∈ l, EntryMatches x e := by
  rw [List.contains_iff_mem, List.mem_map]
  simp only [canonical_eq, Text.asciiLower_eq_asciiLower_iff, EntryMatches]

/-- Entries that are pairwise the same normalise to the same list. -/
theorem map_canonical_of_forall₂ :
    ∀ {l l' : List String}, List.Forall₂ SameEntry l l' → l.map canonical = l'.map canonical
  | _, _, .nil => rfl
  | _, _, .cons hxy h => by
    rw [List.map_cons, List.map_cons, map_canonical_of_forall₂ h, canonical_eq, canonical_eq,
      (Text.asciiLower_eq_asciiLower_iff _ _).2 hxy]

/-- **Each list of the classifier holds a lowered extension exactly when one
of the configured entries matches it.** -/
theorem contains_ofConfig_iff (c : Config) (e : String) :
    ((ofConfig c).headers.contains (Text.asciiLower e) = true ↔
      ∃ x ∈ c.headerExtensions, EntryMatches x e) ∧
    ((ofConfig c).implementations.contains (Text.asciiLower e) = true ↔
      ∃ x ∈ c.implementationExtensions, EntryMatches x e) ∧
    ((ofConfig c).others.contains (Text.asciiLower e) = true ↔ ∃ x ∈ c.extensions, EntryMatches x e) :=
  ⟨contains_canonical_iff _ e, contains_canonical_iff _ e, contains_canonical_iff _ e⟩

/-- **The classifier of a configuration, read declaratively.** -/
theorem classify_eq_some_iff (c : Config) (p : String) (cls : FileClass) :
    (ofConfig c).classify p = some cls ↔ ∃ e, Path.extension? p = some e ∧ ClassOf c e cls := by
  unfold classify
  cases hx : Path.extension? p with
  | none => simp
  | some e =>
    dsimp only
    simp only [Option.some.injEq, exists_eq_left']
    obtain ⟨hh, hi, ho⟩ := contains_ofConfig_iff c e
    -- the three entry lists are tried in turn
    by_cases h1 : ∃ x ∈ c.headerExtensions, EntryMatches x e
    · rw [if_pos (hh.2 h1)]
      cases cls <;> simp [ClassOf, h1]
    rw [if_neg (mt hh.1 h1)]
    by_cases h2 : ∃ x ∈ c.implementationExtensions, EntryMatches x e
    · rw [if_pos (hi.2 h2)]
      cases cls <;> simp [ClassOf, h1, h2]
    rw [if_neg (mt hi.1 h2)]
    by_cases h3 : ∃ x ∈ c.extensions, EntryMatches x e
    · rw [if_pos (ho.2 h3)]
      cases cls <;> simp [ClassOf, h1, h2, h3]
    · rw [if_neg (mt ho.1 h3)]
      cases cls <;> simp [ClassOf, h1, h2, h3]

/-- Some class is given exactly when some entry of the three lists matches. -/
theorem exists_classOf_iff (c : Config) (e : String) :
    (∃ cls, ClassOf c e cls) ↔
      ∃ x ∈ c.headerExtensions ++ c.implementationExtensions ++ c.extensions, EntryMatches x e := by
  simp only [List.mem_append, or_assoc]
  constructor
  · rintro ⟨cls, hcls⟩
    cases cls with
    | header =>
      obtain ⟨x, hx, hm⟩ := hcls
      exact ⟨x, Or.inl hx, hm⟩
    | implementation =>
      obtain ⟨-, x, hx, hm⟩ := hcls
      exact ⟨x, Or.inr (Or.inl hx), hm⟩
    | other =>
      obtain ⟨-, -, x, hx, hm⟩ := hcls
      exact ⟨x, Or.inr (Or.inr hx), hm⟩
  · rintro ⟨x, hx, hm⟩
    by_cases h1 : ∃ x ∈ c.headerExtensions, EntryMatches x e
    · exact ⟨.header, h1⟩
    by_cases h2 : ∃ x ∈ c.implementationExtensions, EntryMatches x e
    · exact ⟨.implementation, h1, h2⟩
    -- neither headers nor implementation files: the entry is among the others
    rcases hx with hx | hx | hx
    · exact absurd ⟨x, hx, hm⟩ h1
    · exact absurd ⟨x, hx, hm⟩ h2
    · exact ⟨.other, h1, h2, x, hx, hm⟩

/-- **Only the extension's lower case is looked at.** -/
theorem classify_of_eqIgnoreAsciiCase (k : Classifier) {p p' e e' : String}
    (hp : Path.extension? p = some e) (hp' : Path.extension? p' = some e')
    (he : Text.EqIgnoreAsciiCase e e') : k.classify p' = k.classify p := by
  unfold classify
  rw [hp, hp']
  dsimp only
  rw [(Text.asciiLower_eq_asciiLower_iff e e').2 he]

/-- **Classification ignores ASCII case on both sides and leading dots in the
configuration.** For every configuration and path: the path gets the class
`cls` exactly when it has an extension to which the configuration gives
that class, header entries first, then implementation entries, then the
others, an entry matching when it equals the extension up to ASCII case once
its leading dots are gone; so the path is classified exactly when some entry
matches its extension. The class stays the same for any path whose
extension differs only in ASCII case, and under any configuration whose
entries differ only in ASCII case and leading dots. -/
theorem classify_ignores_case_and_dots (c : Config) (p : String) :
    (∀ cls, (ofConfig c).classify p = some cls ↔ ∃ e, Path.extension? p = some e ∧ ClassOf c e cls) ∧
    (((ofConfig c).classify p).isSome = true ↔ ∃ e, Path.extension? p = some e ∧
      ∃ x ∈ c.headerExtensions ++ c.implementationExtensions ++ c.extensions, EntryMatches x e) ∧
    (∀ p' e e', Path.extension? p = some e → Path.extension? p' = some e' →
      Text.EqIgnoreAsciiCase e e' → (ofConfig c).classify p' = (ofConfig c).classify p) ∧
    ∀ c' : Config, List.Forall₂ SameEntry c.headerExtensions c'.headerExtensions →
      List.Forall₂ SameEntry c.implementationExtensions c'.implementationExtensions →
      List.Forall₂ SameEntry c.extensions c'.extensions →
      (ofConfig c').classify p = (ofConfig c).classify p := by
  refine ⟨classify_eq_some_iff c p, ?_, fun _ _ _ hp hp' he => classify_of_eqIgnoreAsciiCase _ hp hp' he,
    fun c' hh hi ho => ?_⟩
  · rw [Option.isSome_iff_exists]
    simp only [classify_eq_some_iff]
    constructor
    · rintro ⟨cls, e, hx, hcls⟩
      exact ⟨e, hx, (exists_classOf_iff c e).1 ⟨cls, hcls⟩⟩
    · rintro ⟨e, hx, hm⟩
      obtain ⟨cls, hcls⟩ := (exists_classOf_iff c e).2 hm
      exact ⟨cls, e, hx, hcls⟩
  · -- the normalised lists are the same, so the classifiers are
    have hk : ofConfig c' = ofConfig c := by
      unfold ofConfig
      rw [map_canonical_of_forall₂ hh, map_canonical_of_forall₂ hi, map_canonical_of_forall₂ ho]
    rw [hk]

/-- The configuration of the source's test, with the other extensions
written `.RS`. -/
def rustOnly : Config :=
  ⟨"config.txt", ["h", "hpp"], ["c", "cpp"], [".RS"], ["**/.git", "**/__pycache__"], []⟩

example : (ofConfig rustOnly).classify "lib.rs" = some .other ∧
    (ofConfig rustOnly).classify "MAIN.CPP" = some .implementation ∧
    (ofConfig rustOnly).classify "notes.txt" = none ∧ (ofConfig rustOnly).classify ".rs" = none := by
  decide

/-- An accented capital is not folded: `É` matches `É` only. -/
example : (ofConfig { extensions := ["É"] }).classify "a.é" = none ∧
    (ofConfig { extensions := ["É"] }).classify "a.É" = some .other := by
  decide

/-- The path `LIB.Rs` under that configuration is one the theorem covers. -/
theorem rustOnly_classified :
    (∀ cls, (ofConfig rustOnly).classify "LIB.Rs" = some cls ↔
      ∃ e, Path.extension? "LIB.Rs" = some e ∧ ClassOf rustOnly e cls) ∧
    (((ofConfig rustOnly).classify "LIB.Rs").isSome = true ↔ ∃ e, Path.extension? "LIB.Rs" = some e ∧
      ∃ x ∈ rustOnly.headerExtensions ++ rustOnly.implementationExtensions ++ rustOnly.extensions,
        EntryMatches x e) ∧
    (∀ p' e e', Path.extension? "LIB.Rs" = some e → Path.extension? p' = some e' →
      Text.EqIgnoreAsciiCase e e' → (ofConfig rustOnly).classify p' = (ofConfig rustOnly).classify "LIB.Rs") ∧
    ∀ c' : Config, List.Forall₂ SameEntry rustOnly.headerExtensions c'.headerExtensions →
      List.Forall₂ SameEntry rustOnly.implementationExtensions c'.implementationExtensions →
      List.Forall₂ SameEntry rustOnly.extensions c'.extensions →
      (ofConfig c').classify "LIB.Rs" = (ofConfig rustOnly).classify "LIB.Rs" :=
  classify_ignores_case_and_dots rustOnly "LIB.Rs"

end Classifier

end ReadingOrder
