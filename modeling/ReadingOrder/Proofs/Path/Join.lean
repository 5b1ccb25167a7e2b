import ReadingOrder.Proofs.Path.Clean
/-!
# Appending names to a path

A scan builds the path of a directory by joining names onto the root one at
a time (`joinAll`), and a listing joins a file name onto the path of its
directory. A name has no slash and is neither `.` nor `..`, so joining it
adds exactly one name component, whatever the path was written like
(`components_join`), and clean-up passes it through (`clean_append_name`).

Two consequences are what the rest needs. The normal form of a path with a
name joined is the normal form of the path with the name after it
(`components_normalize_join`), so a file path determines both its directory's
normal form and its name. And the normal form of a root with names joined is
the root's normal form followed by the names (`clean_components_joinAll`).
-/

namespace ReadingOrder

namespace Path

variable {xs ys : List Char} {D n : String}

/-! ## Pieces around a slash -/

theorem splitSlash_ne_nil (xs : List Char) : splitSlash xs ≠ [] := by
  cases xs with
  | nil => exact List.cons_ne_nil _ _
  | cons c cs =>
    unfold splitSlash
    split
    · exact List.cons_ne_nil _ _
    · split <;> exact List.cons_ne_nil _ _

/-- **A slash separates pieces**: the pieces of text around a slash are the
pieces before it and the pieces after it. -/
theorem splitSlash_append_slash (xs ys : List Char) :
    splitSlash (xs ++ '/' :: ys) = splitSlash xs ++ splitSlash ys := by
  induction xs with
  | nil => rfl
  | cons c xs ih =>
    rw [List.cons_append, splitSlash.eq_2, splitSlash.eq_2]
    by_cases hc : c = '/'
    · rw [if_pos hc, if_pos hc, ih, List.cons_append]
    · obtain ⟨p, ps, hxs⟩ := List.exists_cons_of_ne_nil (splitSlash_ne_nil xs)
      rw [if_neg hc, if_neg hc, ih, hxs]
      rfl

theorem splitSlash_of_not_mem (h : '/' ∉ ys) : splitSlash ys = [ys] := by
  induction ys with
  | nil => rfl
  | cons c cs ih =>
    have hc : c ≠ '/' := fun hc => h (hc ▸ List.mem_cons_self)
    rw [splitSlash.eq_2, if_neg hc, ih fun h' => h (List.mem_cons_of_mem _ h')]

theorem ofPieces_append (ps qs : List (List Char)) : ofPieces (ps ++ qs) = ofPieces ps ++ ofPieces qs :=
  List.flatMap_append

theorem ofPieces_singleton (p : List Char) : ofPieces [p] = ofPiece p :=
  List.flatMap_singleton _ _

/-- A piece after a slash adds its meaning to what comes before. -/
theorem componentsOfList_append_slash (hxs : xs ≠ []) (hys : '/' ∉ ys) :
    componentsOfList (xs ++ '/' :: ys) = componentsOfList xs ++ ofPiece ys := by
  have hpiece : ofPieces (splitSlash ys) = ofPiece ys := by
    rw [splitSlash_of_not_mem hys, ofPieces_singleton]
  obtain ⟨c, cs, rfl⟩ := List.exists_cons_of_ne_nil hxs
  by_cases hc : c = '/'
  · subst hc
    rw [List.cons_append, componentsOfList.eq_1, componentsOfList.eq_1, splitSlash_append_slash,
      ofPieces_append, hpiece, List.cons_append]
  · have hhead : ∀ zs, (c :: zs).head? ≠ some '/' := fun _ he => hc (Option.some.inj he)
    rw [List.cons_append, componentsOfList_of_head (hhead _), componentsOfList_of_head (hhead _),
      ← List.cons_append, splitSlash_append_slash]
    obtain ⟨p, ps, hsplit⟩ := List.exists_cons_of_ne_nil (splitSlash_ne_nil (c :: cs))
    rw [hsplit, List.cons_append]
    -- both sides read a leading `.` piece the same way
    by_cases hp : p = ['.']
    · subst hp
      show Component.current :: ofPieces (ps ++ splitSlash ys) =
        (Component.current :: ofPieces ps) ++ ofPiece ys
      rw [ofPieces_append, hpiece, List.cons_append]
    · split
      · rename_i rest heq
        exact absurd (List.cons.inj heq).1 hp
      · split
        · rename_i rest heq
          exact absurd (List.cons.inj heq).1 hp
        · rw [← List.cons_append, ofPieces_append, hpiece]

/-- A single name piece is the name. -/
theorem componentsOfList_of_isName (hn : IsName xs) : componentsOfList xs = [.name (String.ofList xs)] := by
  obtain ⟨c, cs, rfl⟩ := List.exists_cons_of_ne_nil hn.1
  have hc : c ≠ '/' := fun hc => hn.2.1 (hc ▸ List.mem_cons_self)
  have hhead : (c :: cs).head? ≠ some '/' := fun he => hc (Option.some.inj he)
  rw [componentsOfList_of_head hhead, splitSlash_of_not_mem hn.2.1]
  split
  · rename_i rest heq
    exact absurd (List.cons.inj heq).1 hn.2.2.1
  · rw [ofPieces_singleton, ofPiece_of_isName hn]

/-! ## Joining a name -/

/-- A name piece means the name. -/
theorem ofPiece_name (hn : IsName n.toList) : ofPiece n.toList = [.name n] := by
  rw [ofPiece_of_isName hn, String.ofList_toList]

theorem isAbsolute_of_isName (hn : IsName n.toList) : isAbsolute n = false := by
  unfold isAbsolute
  cases hl : n.toList with
  | nil => rfl
  | cons c cs =>
    have hc : c ≠ '/' := fun hc => hn.2.1 (by rw [hl, hc]; exact List.mem_cons_self)
    rw [List.head?_cons]
    exact beq_eq_false_iff_ne.2 fun he => hc (Option.some.inj he)

/-- **Joining a name adds one name component**, whatever the path it is
joined to looks like: empty, ending in a slash, or neither. -/
theorem components_join (hn : IsName n.toList) : components (join D n) = components D ++ [.name n] := by
  unfold join
  rw [isAbsolute_of_isName hn, if_neg Bool.false_ne_true]
  unfold components
  split
  · rename_i hD
    rcases Bool.or_eq_true_iff.1 hD with hD | hD
    · -- the empty path: the name is all there is
      rw [String.isEmpty_iff.1 hD, String.empty_append, componentsOfList_of_isName hn,
        String.ofList_toList]
      rfl
    · -- a path ending in a slash: the name comes after that slash
      obtain ⟨xs, hxs⟩ := List.getLast?_eq_some_iff.1 (beq_iff_eq.1 hD)
      rw [String.toList_append, hxs, List.append_assoc, List.singleton_append]
      cases xs with
      | nil =>
        rw [List.nil_append, List.nil_append, componentsOfList.eq_1, componentsOfList.eq_1,
          splitSlash_of_not_mem hn.2.1, ofPieces_singleton, ofPiece_name hn]
        rfl
      | cons x xs =>
        rw [componentsOfList_append_slash (List.cons_ne_nil _ _) hn.2.1,
          componentsOfList_append_slash (List.cons_ne_nil _ _) (List.not_mem_nil),
          ofPiece_name hn, show ofPiece [] = [] from rfl, List.append_nil]
  · rename_i hD
    have hne : D.toList ≠ [] := by
      intro he
      apply hD
      rw [Bool.or_eq_true_iff]
      exact Or.inl (String.isEmpty_iff.2 (String.toList_inj.1 he))
    rw [String.toList_append, String.toList_append, show "/".toList = ['/'] from rfl,
      List.append_assoc, List.singleton_append, componentsOfList_append_slash hne hn.2.1,
      ofPiece_name hn]

/-- Clean-up passes a name at the end through. -/
theorem clean_append_name (cs : List Component) (n : String) :
    clean (cs ++ [.name n]) = clean cs ++ [.name n] := by
  unfold clean
  rw [List.foldl_append, List.foldl_cons, List.foldl_nil]
  show (Component.name n :: _).reverse = _
  rw [List.reverse_cons]

theorem clean_append_of_isName {cs : List Component} (h : Clean cs) (hn : IsName n.toList) :
    Clean (cs ++ [.name n]) := by
  have hnc : ∀ c ∈ [Component.name n], IsNameComponent c := by
    intro c hc
    rw [List.mem_singleton.1 hc]
    exact hn
  rcases h with ⟨ns, rfl, hns⟩ | ⟨k, ns, rfl, hns⟩
  · refine Or.inl ⟨ns ++ [.name n], rfl, fun c hc => ?_⟩
    rcases List.mem_append.1 hc with hc | hc
    · exact hns c hc
    · exact hnc c hc
  · refine Or.inr ⟨k, ns ++ [.name n], by rw [List.append_assoc], fun c hc => ?_⟩
    rcases List.mem_append.1 hc with hc | hc
    · exact hns c hc
    · exact hnc c hc

theorem normalize_eq_render {s : String} {cs : List Component} (h : clean (components s) = cs)
    (hne : cs ≠ []) : normalize s = render cs := by
  obtain ⟨c, cs, rfl⟩ := List.exists_cons_of_ne_nil hne
  unfold normalize
  rw [h]

/-- Normal paths are the same exactly when they are equal. -/
theorem same_iff_eq {a b : String} (ha : normalize a = a) (hb : normalize b = b) :
    same a b = true ↔ a = b := by
  unfold same
  rw [beq_iff_eq]
  constructor
  · intro h
    rw [← ha, ← hb]
    exact normalize_eq_of_clean (by rw [h])
  · rintro rfl
    rfl

/-- **A path with a name joined, in normal form**, has the components of the
path's normal form followed by the name. -/
theorem components_normalize_join (hn : IsName n.toList) :
    components (normalize (join D n)) = clean (components D) ++ [.name n] := by
  have hne : clean (components D) ++ [.name n] ≠ [] :=
    List.append_ne_nil_of_right_ne_nil _ (List.cons_ne_nil _ _)
  rw [normalize_eq_render (by rw [components_join hn, clean_append_name]) hne]
  exact components_render (clean_append_of_isName (clean_components D) hn)

/-- **A file path names its directory and its name**: two joins agree in
normal form only for the same name on directories of the same normal form. -/
theorem normalize_join_inj {D' n' : String} (hn : IsName n.toList) (hn' : IsName n'.toList)
    (h : normalize (join D n) = normalize (join D' n')) : normalize D = normalize D' ∧ n = n' := by
  have hc := congrArg components h
  rw [components_normalize_join hn, components_normalize_join hn'] at hc
  obtain ⟨hD, hname⟩ := List.append_inj' hc rfl
  exact ⟨normalize_eq_of_clean hD, Component.name.inj (List.singleton_inj.1 hname)⟩

/-! ## Joining names one after the other -/

/-- **A path built name by name**, as a scan builds the path of a directory
from the root. -/
def joinAll (base : String) (ns : List String) : String :=
  ns.foldl join base

theorem joinAll_cons (base n : String) (ns : List String) :
    joinAll base (n :: ns) = joinAll (join base n) ns :=
  rfl

theorem joinAll_concat (base n : String) (ns : List String) :
    joinAll base (ns ++ [n]) = join (joinAll base ns) n := by
  unfold joinAll
  rw [List.foldl_append, List.foldl_cons, List.foldl_nil]

/-- **The normal form of a root with names joined** is the root's normal form
followed by the names. -/
theorem clean_components_joinAll (base : String) {ns : List String}
    (hns : ∀ n ∈ ns, IsName n.toList) :
    clean (components (joinAll base ns)) = clean (components base) ++ ns.map .name := by
  induction ns generalizing base with
  | nil => rw [List.map_nil, List.append_nil]; rfl
  | cons n ns ih =>
    rw [joinAll_cons, ih _ fun m hm => hns m (List.mem_cons_of_mem _ hm),
      components_join (hns n List.mem_cons_self), clean_append_name, List.map_cons,
      List.append_assoc, List.singleton_append]

/-- **Names joined to a root read back**: different names give different
normal paths. -/
theorem normalize_joinAll_inj {R : String} {a b : List String} (ha : ∀ x ∈ a, IsName x.toList)
    (hb : ∀ x ∈ b, IsName x.toList) (h : normalize (joinAll R a) = normalize (joinAll R b)) :
    a = b := by
  rw [normalize_eq_normalize_iff, clean_components_joinAll R ha, clean_components_joinAll R hb,
    List.append_right_inj] at h
  exact (List.map_inj_right fun _ _ he => Component.name.inj he).1 h

/-- Joining a name to a path or to its normal form gives the same normal
form. -/
theorem normalize_join_normalize (hn : IsName n.toList) (D : String) :
    normalize (join (normalize D) n) = normalize (join D n) := by
  apply normalize_eq_of_clean
  rw [components_join hn, components_join hn, clean_append_name, clean_append_name,
    clean_components_normalize]

/-! ## The parent, the name and the depth of a joined path -/

/-- **The directory holding a joined path** is the path it was joined to,
written from its components. -/
theorem parent?_join (hn : IsName n.toList) : parent? (join D n) = some (render (components D)) := by
  unfold parent? parentOf?
  simp only [components_join hn, List.getLast?_concat, List.dropLast_concat, Option.map_some]

theorem normalize_render_components (s : String) : normalize (render (components s)) = normalize s :=
  normalize_eq_of_clean (by rw [components_render_components])

/-- The directory holding a joined path, in normal form, is the normal form
of the path it was joined to. -/
theorem normalize_parent_join (hn : IsName n.toList) (base : String) :
    normalize ((parent? (join D n)).getD base) = normalize D := by
  rw [parent?_join hn, Option.getD_some, normalize_render_components]

/-- **A joined path is shown by the name joined.** -/
theorem tag_normalize_join (hn : IsName n.toList) : tag (normalize (join D n)) = n := by
  unfold tag fileName?
  rw [components_normalize_join hn, List.getLast?_concat]
  rfl

theorem dropPrefix?_append (xs ys : List Component) : dropPrefix? xs (xs ++ ys) = some ys := by
  induction xs with
  | nil => rfl
  | cons x xs ih => rw [List.cons_append, dropPrefix?, if_pos rfl, ih]

theorem countNames_map_name (ns : List String) : countNames (ns.map .name) = some ns.length := by
  induction ns with
  | nil => rfl
  | cons n ns ih =>
    rw [List.map_cons, countNames, ih]
    rfl

/-- A list in normal form is never the lone `.`. -/
theorem Clean.ne_current {cs : List Component} (h : Clean cs) : cs ≠ [.current] := by
  rcases h with ⟨ns, rfl, -⟩ | ⟨k, ns, rfl, hns⟩
  · intro he
    cases (List.cons.inj he).1
  · intro he
    cases k with
    | zero =>
      rw [List.replicate_zero, List.nil_append] at he
      subst he
      exact hns .current List.mem_cons_self
    | succ k =>
      rw [List.replicate_succ, List.cons_append] at he
      cases (List.cons.inj he).1

/-- **The depth of a normal path below a normal root** is the number of names
that follow the root's components. -/
theorem depthBelow_normalize {R s : String} {ns : List String} (hR : normalize R = R)
    (h : clean (components s) = clean (components R) ++ ns.map .name) :
    depthBelow R (normalize s) = some ns.length := by
  unfold depthBelow
  dsimp only
  by_cases hRc : clean (components R) = []
  · -- the root `.`: a relative path counts whole
    have hdot : R = "." := by rw [← hR, normalize_of_clean_nil hRc]
    rw [hRc, List.nil_append] at h
    rw [hdot]
    cases ns with
    | nil =>
      rw [normalize_of_clean_nil h]
      rfl
    | cons n ns =>
      rw [components_normalize (by rw [h]; exact List.cons_ne_nil _ _), h,
        if_pos ⟨rfl, fun he => by cases Option.some.inj he⟩, Option.bind_some, countNames_map_name]
  · -- any other root is written with its components, which the path's start with
    have hrc : components R = clean (components R) := by
      have hc := components_normalize hRc
      rwa [hR] at hc
    have hpc : components (normalize s) = components R ++ ns.map .name := by
      rw [components_normalize (by rw [h]; exact List.append_ne_nil_of_left_ne_nil hRc _), h, ← hrc]
    rw [hpc, if_neg fun he => (clean_components R).ne_current (hrc ▸ he.1), dropPrefix?_append,
      Option.bind_some, countNames_map_name]

/-- The depth below a normal root of the root with names joined is the
number of names. -/
theorem depthBelow_joinAll {R : String} {ns : List String} (hR : normalize R = R)
    (hns : ∀ x ∈ ns, IsName x.toList) : depthBelow R (normalize (joinAll R ns)) = some ns.length :=
  depthBelow_normalize hR (clean_components_joinAll R hns)

end Path

end ReadingOrder
