import ReadingOrder.Path.Basic
/-!
# Normal forms of paths

`Path.normalize` is lexical clean-up, and cleaning up twice changes nothing
more: a normalised path is its own normal form (`normalize_normalize`).

The argument goes through components. What `clean` leaves is in normal form
(`Clean`): the root followed by names, or some `..` steps followed by names,
where a name is a text with no slash that is neither empty nor `.` nor `..`.
Such a list is left as it is by `clean`, and written out by `render` it reads
back as the same components, because the pieces between the slashes of the
rendering are exactly the texts of its components. Normalising a
normalised path therefore cleans a clean list again.

The clean-up runs over a stack whose top is its head, so the normal form is
stated for the stack too (`CleanStack`): names on top of the root, or names
on top of steps up. Each push keeps that shape, as long as the root only
ever comes first, which is how `components` lists it.
-/

namespace ReadingOrder

namespace Path

/-! ## Pieces between slashes -/

theorem splitSlash_eq_splitOn (cs : List Char) : splitSlash cs = cs.splitOn '/' := by
  induction cs with
  | nil => rfl
  | cons c cs ih =>
    rw [List.splitOn_cons_eq_if_modifyHead, splitSlash]
    by_cases hc : c = '/'
    · rw [if_pos hc, if_pos (beq_iff_eq.2 hc), ih]
    · rw [if_neg hc, if_neg (fun h => hc (beq_iff_eq.1 h)), ih]
      cases h : cs.splitOn '/' with
      | nil => exact absurd h (List.splitOn_ne_nil _ _)
      | cons p ps => rfl

/-- No piece holds a slash. -/
theorem slash_not_mem_of_mem_splitSlash {cs p : List Char} (h : p ∈ splitSlash cs) :
    '/' ∉ p := by
  induction cs generalizing p with
  | nil =>
    rw [splitSlash, List.mem_singleton] at h
    rw [h]
    exact List.not_mem_nil
  | cons c cs ih =>
    rw [splitSlash] at h
    split at h
    · rcases List.mem_cons.1 h with rfl | h
      · exact List.not_mem_nil
      · exact ih h
    · rename_i hc
      split at h
      · rw [List.mem_singleton] at h
        rw [h, List.mem_singleton]
        exact Ne.symm hc
      · rename_i p' ps hsplit
        rcases List.mem_cons.1 h with rfl | h
        · rw [List.mem_cons, not_or]
          exact ⟨Ne.symm hc, ih (by rw [hsplit]; exact List.mem_cons_self)⟩
        · exact ih (by rw [hsplit]; exact List.mem_cons_of_mem _ h)

/-! ## Names -/

/-- **The text of a name**: not empty, without a slash, and neither `.` nor
`..`. -/
def IsName (p : List Char) : Prop :=
  p ≠ [] ∧ '/' ∉ p ∧ p ≠ ['.'] ∧ p ≠ ['.', '.']

instance (p : List Char) : Decidable (IsName p) :=
  inferInstanceAs (Decidable (_ ∧ _ ∧ _ ∧ _))

/-- A name component whose text is a name. -/
def IsNameComponent : Component → Prop
  | .name s => IsName s.toList
  | _ => False

/-- A component that may stand after the first: a step up or a name. -/
def Plain : Component → Prop
  | .up => True
  | .name s => IsName s.toList
  | _ => False

theorem plain_of_isNameComponent {c : Component} (h : IsNameComponent c) : Plain c := by
  cases c with
  | name s => exact h
  | _ => exact absurd h id

theorem ofPiece_of_isName {p : List Char} (h : IsName p) : ofPiece p = [.name (String.ofList p)] := by
  obtain ⟨h0, -, h1, h2⟩ := h
  unfold ofPiece
  split
  · exact absurd rfl h0
  · exact absurd rfl h1
  · exact absurd rfl h2
  · rfl

theorem plain_of_mem_ofPiece {p : List Char} {c : Component} (hp : '/' ∉ p) (h : c ∈ ofPiece p) :
    Plain c := by
  unfold ofPiece at h
  split at h
  · cases h
  · cases h
  · rw [List.mem_singleton] at h
    rw [h]
    trivial
  · rename_i h0 h1 h2
    rw [List.mem_singleton] at h
    rw [h]
    show IsName (String.ofList p).toList
    rw [String.toList_ofList]
    exact ⟨fun h => h0 h, hp, fun h => h1 h, fun h => h2 h⟩

theorem plain_of_mem_ofPieces {ps : List (List Char)} {c : Component}
    (hps : ∀ p ∈ ps, '/' ∉ p) (h : c ∈ ofPieces ps) : Plain c := by
  unfold ofPieces at h
  obtain ⟨p, hp, hc⟩ := List.mem_flatMap.1 h
  exact plain_of_mem_ofPiece (hps p hp) hc

/-- The texts of name components read back as the components. -/
theorem ofPieces_map_text {ns : List Component} (h : ∀ c ∈ ns, Plain c) :
    ofPieces (ns.map fun c => c.text.toList) = ns := by
  induction ns with
  | nil => rfl
  | cons c ns ih =>
    have hrest : ofPieces (ns.map fun c => c.text.toList) = ns :=
      ih fun c hc => h c (List.mem_cons_of_mem _ hc)
    have hc : Plain c := h c List.mem_cons_self
    unfold ofPieces at hrest ⊢
    rw [List.map_cons, List.flatMap_cons, hrest]
    cases c with
    | up => rfl
    | name s =>
      show ofPiece s.toList ++ ns = _
      rw [ofPiece_of_isName hc, String.ofList_toList]
      rfl
    | _ => exact absurd hc id

/-! ## The normal form -/

/-- **A list of components in normal form**: the root followed by names, or
some steps up followed by names. -/
def Clean (cs : List Component) : Prop :=
  (∃ ns, cs = .root :: ns ∧ ∀ c ∈ ns, IsNameComponent c) ∨
  (∃ k ns, cs = List.replicate k .up ++ ns ∧ ∀ c ∈ ns, IsNameComponent c)

/-- The normal form of the clean-up stack, top first: names on top of the
root, or names on top of steps up. -/
def CleanStack (st : List Component) : Prop :=
  (∃ ns, st = ns ++ [.root] ∧ ∀ c ∈ ns, IsNameComponent c) ∨
  (∃ k ns, st = ns ++ List.replicate k .up ∧ ∀ c ∈ ns, IsNameComponent c)

theorem clean_reverse {st : List Component} (h : CleanStack st) : Clean st.reverse := by
  rcases h with ⟨ns, rfl, hns⟩ | ⟨k, ns, rfl, hns⟩
  · refine Or.inl ⟨ns.reverse, by simp, fun c hc => hns c (List.mem_reverse.1 hc)⟩
  · refine Or.inr ⟨k, ns.reverse, by simp, fun c hc => hns c (List.mem_reverse.1 hc)⟩

theorem cleanStack_nil : CleanStack [] :=
  Or.inr ⟨0, [], rfl, fun _ h => absurd h List.not_mem_nil⟩

/-- **One push keeps the stack in normal form**, for a component that may
stand after the first. -/
theorem cleanStack_push {st : List Component} {c : Component} (h : CleanStack st) (hc : Plain c) :
    CleanStack (push st c) := by
  cases c with
  | name s =>
    rcases h with ⟨ns, rfl, hns⟩ | ⟨k, ns, rfl, hns⟩
    · refine Or.inl ⟨.name s :: ns, rfl, ?_⟩
      intro c hc'
      rcases List.mem_cons.1 hc' with rfl | hc'
      · exact hc
      · exact hns c hc'
    · refine Or.inr ⟨k, .name s :: ns, rfl, ?_⟩
      intro c hc'
      rcases List.mem_cons.1 hc' with rfl | hc'
      · exact hc
      · exact hns c hc'
  | up =>
    -- a step up takes the name on top, is swallowed by the root, or piles up
    rcases h with ⟨ns, rfl, hns⟩ | ⟨k, ns, rfl, hns⟩
    · cases ns with
      | nil => exact Or.inl ⟨[], rfl, fun _ h => absurd h List.not_mem_nil⟩
      | cons n ns =>
        have hn : IsNameComponent n := hns n List.mem_cons_self
        cases n with
        | name s => exact Or.inl ⟨ns, rfl, fun c hc => hns c (List.mem_cons_of_mem _ hc)⟩
        | _ => exact absurd hn id
    · cases ns with
      | nil =>
        cases k with
        | zero => exact Or.inr ⟨1, [], rfl, fun _ h => absurd h List.not_mem_nil⟩
        | succ k =>
          refine Or.inr ⟨k + 2, [], ?_, fun _ h => absurd h List.not_mem_nil⟩
          rfl
      | cons n ns =>
        have hn : IsNameComponent n := hns n List.mem_cons_self
        cases n with
        | name s =>
          exact Or.inr ⟨k, ns, rfl, fun c hc => hns c (List.mem_cons_of_mem _ hc)⟩
        | _ => exact absurd hn id
  | _ => exact absurd hc id

theorem cleanStack_foldl {st : List Component} {cs : List Component} (h : CleanStack st)
    (hcs : ∀ c ∈ cs, Plain c) : CleanStack (cs.foldl push st) := by
  induction cs generalizing st with
  | nil => exact h
  | cons c cs ih =>
    rw [List.foldl_cons]
    exact ih (cleanStack_push h (hcs c List.mem_cons_self))
      fun c hc => hcs c (List.mem_cons_of_mem _ hc)

/-- **The components of a path**: a root or a leading `.` first, and only
steps up and names after it. -/
theorem components_shape (s : String) :
    ∃ first rest, components s = first ++ rest ∧
      (first = [] ∨ first = [.root] ∨ first = [.current]) ∧ ∀ c ∈ rest, Plain c := by
  have hpieces : ∀ cs, ∀ p ∈ splitSlash cs, '/' ∉ p := fun _ _ => slash_not_mem_of_mem_splitSlash
  unfold components componentsOfList
  split
  · rename_i cs _
    exact ⟨[.root], _, rfl, Or.inr (Or.inl rfl), fun c hc => plain_of_mem_ofPieces (hpieces cs) hc⟩
  · split
    · rename_i rest hsplit
      refine ⟨[.current], ofPieces rest, rfl, Or.inr (Or.inr rfl), fun c hc => ?_⟩
      refine plain_of_mem_ofPieces (fun p hp => ?_) hc
      exact hpieces s.toList p (by rw [hsplit]; exact List.mem_cons_of_mem _ hp)
    · exact ⟨[], _, rfl, Or.inl rfl, fun c hc => plain_of_mem_ofPieces (hpieces s.toList) hc⟩

/-- **What the clean-up leaves is in normal form.** -/
theorem clean_components (s : String) : Clean (clean (components s)) := by
  obtain ⟨first, rest, hs, hfirst, hrest⟩ := components_shape s
  unfold clean
  rw [hs, List.foldl_append]
  refine clean_reverse (cleanStack_foldl ?_ hrest)
  rcases hfirst with rfl | rfl | rfl
  · exact cleanStack_nil
  · exact Or.inl ⟨[], rfl, fun _ h => absurd h List.not_mem_nil⟩
  · exact cleanStack_nil

/-! ## The normal form is a fixed point -/

theorem foldl_push_names {st ns : List Component} (hns : ∀ c ∈ ns, IsNameComponent c) :
    ns.foldl push st = ns.reverse ++ st := by
  induction ns generalizing st with
  | nil => rfl
  | cons c ns ih =>
    have hc : IsNameComponent c := hns c List.mem_cons_self
    rw [List.foldl_cons, ih fun c hc => hns c (List.mem_cons_of_mem _ hc), List.reverse_cons,
      List.append_assoc]
    cases c with
    | name s => rfl
    | _ => exact absurd hc id

theorem foldl_push_ups (j k : Nat) :
    (List.replicate k Component.up).foldl push (List.replicate j .up) =
      List.replicate (k + j) .up := by
  induction k generalizing j with
  | zero => simp
  | succ k ih =>
    rw [List.replicate_succ, List.foldl_cons]
    have hstep : push (List.replicate j .up) .up = List.replicate (j + 1) .up := by
      cases j with
      | zero => rfl
      | succ j => rfl
    rw [hstep, ih]
    congr 1
    omega

/-- **Clean-up leaves a list in normal form as it is.** -/
theorem clean_of_clean {cs : List Component} (h : Clean cs) : clean cs = cs := by
  unfold clean
  rcases h with ⟨ns, rfl, hns⟩ | ⟨k, ns, rfl, hns⟩
  · rw [List.foldl_cons, foldl_push_names hns]
    simp [push]
  · rw [List.foldl_append, show ([] : List Component) = List.replicate 0 .up from rfl,
      foldl_push_ups, foldl_push_names hns]
    simp

/-- Components in normal form are written out from their texts. -/
theorem render_eq_intercalate {cs : List Component} (h : cs.head? ≠ some .root) :
    render cs = "/".intercalate (cs.map Component.text) := by
  unfold render
  split
  · exact absurd rfl h
  · rfl

theorem componentsOfList_of_head {cs : List Char} (h : cs.head? ≠ some '/') :
    componentsOfList cs =
      match splitSlash cs with
      | ['.'] :: rest => .current :: ofPieces rest
      | ps => ofPieces ps := by
  unfold componentsOfList
  split
  · exact absurd rfl h
  · rfl

theorem text_toList_ne_nil {c : Component} (h : Plain c) : c.text.toList ≠ [] := by
  cases c with
  | up => decide
  | name s => exact h.1
  | _ => exact absurd h id

theorem slash_not_mem_text {c : Component} (h : Plain c) : '/' ∉ c.text.toList := by
  cases c with
  | up => decide
  | name s => exact h.2.1
  | _ => exact absurd h id

/-- Slash-free texts joined by slashes are cut back into those texts. -/
theorem splitSlash_intercalate {ss : List String} (h : ∀ s ∈ ss, '/' ∉ s.toList) (hne : ss ≠ []) :
    splitSlash ("/".intercalate ss).toList = ss.map String.toList := by
  rw [splitSlash_eq_splitOn, String.toList_intercalate]
  refine List.splitOn_intercalate '/' ?_ (by simpa using hne)
  intro p hp
  obtain ⟨s, hs, rfl⟩ := List.mem_map.1 hp
  exact h s hs

theorem splitSlash_render_texts {cs : List Component} (h : ∀ c ∈ cs, Plain c) (hne : cs ≠ []) :
    splitSlash ("/".intercalate (cs.map Component.text)).toList = cs.map fun c => c.text.toList := by
  rw [splitSlash_intercalate _ (by simpa using hne), List.map_map]
  · rfl
  · intro s hs
    obtain ⟨c, hc, rfl⟩ := List.mem_map.1 hs
    exact slash_not_mem_text (h c hc)

/-- Steps up and names read back from their rendering. -/
theorem components_render_plain {cs : List Component} (h : ∀ c ∈ cs, Plain c) :
    components (render cs) = cs := by
  cases cs with
  | nil => rfl
  | cons c₀ rest =>
    have hc₀ : Plain c₀ := h c₀ List.mem_cons_self
    have hroot : (c₀ :: rest).head? ≠ some .root := by
      intro he
      cases Option.some.inj he
      exact hc₀
    unfold components
    rw [render_eq_intercalate hroot, componentsOfList_of_head, splitSlash_render_texts h (List.cons_ne_nil _ _)]
    · rw [List.map_cons]
      split
      · -- the first text is a step up or a name, never `.`
        rename_i rest' heq
        have hdot : c₀.text.toList = ['.'] := (List.cons.inj heq).1
        cases c₀ with
        | up => exact absurd hdot (by decide)
        | name s => exact absurd hdot hc₀.2.2.1
        | _ => exact absurd hc₀ id
      · have hback := ofPieces_map_text h
        rw [List.map_cons] at hback
        exact hback
    · -- the rendering starts with the first text, which has no slash
      obtain ⟨x, xs, hx⟩ := List.exists_cons_of_ne_nil (text_toList_ne_nil hc₀)
      rw [String.toList_intercalate, List.map_cons, List.map_cons, hx,
        List.intercalate_cons_cons_left, List.head?_cons]
      intro he
      exact slash_not_mem_text hc₀ (by rw [hx, Option.some.inj he]; exact List.mem_cons_self)

/-- The root followed by steps up and names reads back from its rendering. -/
theorem components_render_root {cs : List Component} (h : ∀ c ∈ cs, Plain c) :
    components (render (.root :: cs)) = .root :: cs := by
  unfold components render
  rw [String.toList_append, show "/".toList = ['/'] from rfl, List.singleton_append, componentsOfList]
  cases cs with
  | nil => rfl
  | cons n ns => rw [splitSlash_render_texts h (List.cons_ne_nil _ _), ofPieces_map_text h]

/-- A leading `.` followed by steps up and names reads back from its
rendering. -/
theorem components_render_current {cs : List Component} (h : ∀ c ∈ cs, Plain c) :
    components (render (.current :: cs)) = .current :: cs := by
  have hroot : (Component.current :: cs).head? ≠ some .root := by
    intro he
    cases Option.some.inj he
  have htexts : ∀ s ∈ Component.current.text :: cs.map Component.text, '/' ∉ s.toList := by
    intro s hs
    rcases List.mem_cons.1 hs with rfl | hs
    · decide
    · obtain ⟨c, hc, rfl⟩ := List.mem_map.1 hs
      exact slash_not_mem_text (h c hc)
  unfold components
  rw [render_eq_intercalate hroot, List.map_cons, componentsOfList_of_head,
    splitSlash_intercalate htexts (List.cons_ne_nil _ _), List.map_cons, List.map_map]
  · show Component.current :: ofPieces (cs.map fun c => c.text.toList) = _
    rw [ofPieces_map_text h]
  · -- the rendering starts with `.`
    rw [String.toList_intercalate, List.map_cons, show Component.current.text.toList = ['.'] from rfl,
      List.intercalate_cons_cons_left, List.head?_cons]
    decide

/-- **Every path reads back from the rendering of its components.** -/
theorem components_render_components (s : String) : components (render (components s)) = components s := by
  obtain ⟨first, rest, hs, hfirst, hrest⟩ := components_shape s
  rw [hs]
  rcases hfirst with rfl | rfl | rfl
  · exact components_render_plain hrest
  · exact components_render_root hrest
  · exact components_render_current hrest

/-- **A list in normal form reads back from its rendering.** -/
theorem components_render {cs : List Component} (h : Clean cs) : components (render cs) = cs := by
  rcases h with ⟨ns, rfl, hns⟩ | ⟨k, ns, rfl, hns⟩
  · exact components_render_root fun c hc => plain_of_isNameComponent (hns c hc)
  · refine components_render_plain fun c hc => ?_
    rcases List.mem_append.1 hc with hc | hc
    · rw [List.eq_of_mem_replicate hc]
      trivial
    · exact plain_of_isNameComponent (hns c hc)

/-! ## Normalising twice -/

/-- The normal form of a path depends only on its cleaned-up components. -/
theorem normalize_eq_of_clean {a b : String} (h : clean (components a) = clean (components b)) :
    normalize a = normalize b := by
  unfold normalize
  rw [h]

theorem normalize_of_clean_nil {s : String} (h : clean (components s) = []) : normalize s = "." := by
  unfold normalize
  rw [h]

/-- A normal path other than `.` is written with exactly its cleaned-up
components. -/
theorem components_normalize {s : String} (h : clean (components s) ≠ []) :
    components (normalize s) = clean (components s) := by
  have hclean := clean_components s
  obtain ⟨c, cs, hcs⟩ := List.exists_cons_of_ne_nil h
  rw [hcs] at hclean ⊢
  unfold normalize
  rw [hcs]
  exact components_render hclean

/-- **Cleaning up a normal path gives back what made it.** -/
theorem clean_components_normalize (s : String) :
    clean (components (normalize s)) = clean (components s) := by
  by_cases h : clean (components s) = []
  · rw [normalize_of_clean_nil h, h]
    rfl
  · rw [components_normalize h, clean_of_clean (clean_components s)]

/-- **Two paths have the same normal form exactly when their components
clean up alike.** -/
theorem normalize_eq_normalize_iff {a b : String} :
    normalize a = normalize b ↔ clean (components a) = clean (components b) := by
  constructor
  · intro h
    rw [← clean_components_normalize a, h, clean_components_normalize]
  · exact normalize_eq_of_clean

/-- **Normalising a normalised path changes nothing.** -/
theorem normalize_normalize (s : String) : normalize (normalize s) = normalize s :=
  normalize_eq_of_clean (clean_components_normalize s)

end Path

end ReadingOrder
