import ReadingOrder.Proofs.Volume.Walk
/-!
# Reading a directory by its normal path

A scan names each directory it records by the normal form of the root's
path with the names below the root joined to it, and listing the directory
later reads that path again. Reading it must lead back to the directory.

It does when the root's path is itself in normal form. Then the pieces of
the directory's path are the pieces of the root's path followed by the names
(`walk_normalize_joinAll`): clean-up can cancel no name against a later `..`,
since the names come last and none of them is `..`. Reading the root's pieces
reaches the root's directory, and reading the names from there goes down the
chain of directories (`WellFormed.resolve_normalize_joinAll`). The path has
to be one the file system accepts: shorter than `pathMax` bytes, and without
a NUL byte, which it has only when the root has one.
-/

namespace ReadingOrder

namespace Volume

open ReadingOrder.Path

variable {v : Volume} {s R : String} {cs : List Component} {ns : List String}

/-! ## Characters of a rendered path -/

/-- Every character of texts joined by slashes is a slash or a character of
one of the texts. -/
theorem mem_intercalate_slash {x : Char} :
    ∀ {ss : List String}, x ∈ ("/".intercalate ss).toList → x = '/' ∨ ∃ t ∈ ss, x ∈ t.toList
  | [], h => absurd h (by rw [String.intercalate_nil]; exact List.not_mem_nil)
  | [t], h => Or.inr ⟨t, List.mem_singleton_self t, by rwa [String.intercalate_singleton] at h⟩
  | t :: u :: ss, h => by
    rw [String.intercalate_cons_cons, String.toList_append, String.toList_append] at h
    rcases List.mem_append.1 h with h | h
    · rcases List.mem_append.1 h with h | h
      · exact Or.inr ⟨t, List.mem_cons_self, h⟩
      · exact Or.inl (List.mem_singleton.1 h)
    · rcases mem_intercalate_slash h with h | ⟨t', ht', h⟩
      · exact Or.inl h
      · exact Or.inr ⟨t', List.mem_cons_of_mem _ ht', h⟩

/-- Every character of texts joined by slashes is in the joined text. -/
theorem mem_intercalate_of_mem {x : Char} {t : String} :
    ∀ {ss : List String}, t ∈ ss → x ∈ t.toList → x ∈ ("/".intercalate ss).toList
  | [t'], ht, hx => by
    rw [List.mem_singleton.1 ht] at hx
    rwa [String.intercalate_singleton]
  | t' :: u :: ss, ht, hx => by
    rw [String.intercalate_cons_cons, String.toList_append, String.toList_append]
    rcases List.mem_cons.1 ht with rfl | ht
    · exact List.mem_append_left _ (List.mem_append_left _ hx)
    · exact List.mem_append_right _ (mem_intercalate_of_mem ht hx)

/-- **What a rendered path is made of**: slashes and the characters of its
components' texts. -/
theorem mem_render {x : Char} (h : x ∈ (render cs).toList) :
    x = '/' ∨ ∃ c ∈ cs, x ∈ c.text.toList := by
  unfold render at h
  split at h
  · rename_i rest
    rw [String.toList_append] at h
    rcases List.mem_append.1 h with h | h
    · exact Or.inl (List.mem_singleton.1 h)
    · rcases mem_intercalate_slash h with h | ⟨t, ht, hx⟩
      · exact Or.inl h
      · obtain ⟨c, hc, rfl⟩ := List.mem_map.1 ht
        exact Or.inr ⟨c, List.mem_cons_of_mem _ hc, hx⟩
  · rcases mem_intercalate_slash h with h | ⟨t, ht, hx⟩
    · exact Or.inl h
    · obtain ⟨c, hc, rfl⟩ := List.mem_map.1 ht
      exact Or.inr ⟨c, hc, hx⟩

/-- The text of a name of a rendered path appears in it. -/
theorem mem_render_of_mem {x : Char} {c : Component} (hc : c ∈ cs) (hne : c ≠ .root)
    (hx : x ∈ c.text.toList) : x ∈ (render cs).toList := by
  unfold render
  split
  · rename_i rest
    rw [String.toList_append]
    refine List.mem_append_right _ (mem_intercalate_of_mem (List.mem_map_of_mem ?_) hx)
    rcases List.mem_cons.1 hc with rfl | hc
    · exact absurd rfl hne
    · exact hc
  · exact mem_intercalate_of_mem (List.mem_map_of_mem hc) hx

/-! ## Pieces of a rendered path -/

/-- A path that ends in a slash has an empty last piece. -/
theorem nil_mem_splitSlash {xs : List Char} (h : xs.getLast? = some '/') : [] ∈ splitSlash xs := by
  obtain ⟨ys, rfl⟩ := List.getLast?_eq_some_iff.1 h
  rw [splitSlash_append_slash]
  exact List.mem_append_right _ List.mem_cons_self

/-- A path cut into non-empty pieces only reads as those pieces. -/
theorem pieces_of_ne_nil (h : ∀ p ∈ splitSlash s.toList, p ≠ []) :
    pieces s = (splitSlash s.toList).map String.ofList := by
  unfold pieces
  dsimp only
  have hps : ((splitSlash s.toList).filterMap fun p =>
      if p.isEmpty then none else some (String.ofList p)) = (splitSlash s.toList).map String.ofList := by
    rw [List.filterMap_eq_map_iff_forall_eq_some]
    intro p hp
    rw [if_neg (by rw [List.isEmpty_iff]; exact h p hp)]
  rw [hps]
  -- a trailing slash would leave an empty piece
  have hlast : s.toList.getLast? ≠ some '/' := fun hs => h [] (nil_mem_splitSlash hs) rfl
  rw [if_neg]
  rw [Bool.and_eq_true, beq_iff_eq]
  exact fun h' => hlast h'.1

/-- A leading slash adds no piece. -/
theorem pieces_slash_append (s : String) : pieces ("/" ++ s) = pieces s := by
  unfold pieces
  dsimp only
  rw [String.toList_append, show "/".toList = ['/'] from rfl, List.singleton_append,
    splitSlash.eq_2, if_pos rfl, List.filterMap_cons_none (by rfl)]
  cases hs : s.toList with
  | nil => rfl
  | cons c cs => rw [List.getLast?_cons_cons]

/-- Texts of steps up and names joined by slashes read back as those texts. -/
theorem pieces_intercalate (h : ∀ c ∈ cs, Plain c) :
    pieces ("/".intercalate (cs.map Component.text)) = cs.map Component.text := by
  cases cs with
  | nil => rfl
  | cons c cs =>
    have hsplit := splitSlash_render_texts h (List.cons_ne_nil c cs)
    rw [pieces_of_ne_nil, hsplit, List.map_map]
    · refine List.map_congr_left fun c' _ => ?_
      exact String.ofList_toList
    · rw [hsplit]
      intro p hp
      obtain ⟨c', hc', rfl⟩ := List.mem_map.1 hp
      exact text_toList_ne_nil (h c' hc')

theorem pieces_render_root (h : ∀ c ∈ cs, IsNameComponent c) :
    pieces (render (.root :: cs)) = cs.map Component.text := by
  unfold render
  rw [pieces_slash_append]
  exact pieces_intercalate fun c hc => plain_of_isNameComponent (h c hc)

theorem pieces_render_plain (h : ∀ c ∈ cs, Plain c) : pieces (render cs) = cs.map Component.text := by
  have hroot : cs.head? ≠ some .root := by
    intro he
    obtain ⟨rest, rfl⟩ : ∃ rest, cs = .root :: rest := by
      cases cs with
      | nil => cases he
      | cons c rest => exact ⟨rest, by rw [Option.some.inj he]⟩
    exact h .root List.mem_cons_self
  rw [render_eq_intercalate hroot]
  exact pieces_intercalate h

/-- A rendered path starting at the root is read from the root. -/
theorem start_render_root (cs : List Component) : v.start (render (.root :: cs)) = [] := by
  have h : isAbsolute (render (.root :: cs)) = true := by
    show (("/" ++ "/".intercalate (cs.map Component.text)).toList.head? == some '/') = true
    rw [String.toList_append, show "/".toList = ['/'] from rfl, List.singleton_append, List.head?_cons]
    exact beq_self_eq_true _
  unfold start
  rw [if_pos h]

/-- A rendered path of steps up and names is read from the current directory. -/
theorem start_render_plain (h : ∀ c ∈ cs, Plain c) : v.start (render cs) = v.cwd := by
  unfold start
  rw [if_neg]
  cases cs with
  | nil => decide
  | cons c rest =>
    have hc : Plain c := h c List.mem_cons_self
    have hroot : (c :: rest).head? ≠ some .root := by
      intro he
      cases Option.some.inj he
      exact hc
    obtain ⟨x, xs, hx⟩ := List.exists_cons_of_ne_nil (text_toList_ne_nil hc)
    rw [render_eq_intercalate hroot]
    unfold isAbsolute
    rw [String.toList_intercalate, List.map_cons, List.map_cons, hx, List.intercalate_cons_cons_left,
      List.head?_cons]
    intro he
    exact slash_not_mem_text hc (by rw [hx, Option.some.inj (beq_iff_eq.1 he)]; exact List.mem_cons_self)

/-! ## Reading the normal path of a directory -/

theorem text_name (ns : List String) : (ns.map Component.name).map Component.text = ns := by
  rw [List.map_map]
  exact List.map_id' ns

theorem isNameComponent_names (hns : ∀ n ∈ ns, IsName n.toList) :
    ∀ c ∈ ns.map Component.name, IsNameComponent c := by
  intro c hc
  obtain ⟨n, hn, rfl⟩ := List.mem_map.1 hc
  exact hns n hn

/-- **The pieces of a directory's normal path**: reading the normal path of
a root with names joined is reading the root's normal path, then the names. -/
theorem walk_normalize_joinAll {f : Bool} {k : Nat} (R : String) (hns : ∀ n ∈ ns, IsName n.toList) :
    v.walk f k (v.start (Path.normalize (joinAll R ns))) (pieces (Path.normalize (joinAll R ns))) =
      v.walk f k (v.start (Path.normalize R)) (pieces (Path.normalize R) ++ ns) := by
  have hc := clean_components_joinAll R hns
  have hnames := isNameComponent_names hns
  rcases clean_components R with ⟨ms, hms, hmsn⟩ | ⟨j, ms, hms, hmsn⟩
  · -- a path from the root: both are read from the root, names after names
    have hall : ∀ c ∈ ms ++ ns.map Component.name, IsNameComponent c := by
      intro c hc'
      rcases List.mem_append.1 hc' with hc' | hc'
      · exact hmsn c hc'
      · exact hnames c hc'
    rw [normalize_eq_render (hc.trans (by rw [hms, List.cons_append])) (List.cons_ne_nil _ _),
      normalize_eq_render hms (List.cons_ne_nil _ _), start_render_root, start_render_root,
      pieces_render_root hall, pieces_render_root hmsn, List.map_append, text_name]
  · have hplain : ∀ c ∈ List.replicate j Component.up ++ ms, Plain c := by
      intro c hc'
      rcases List.mem_append.1 hc' with hc' | hc'
      · rw [List.eq_of_mem_replicate hc']
        trivial
      · exact plain_of_isNameComponent (hmsn c hc')
    have hall : ∀ c ∈ List.replicate j Component.up ++ ms ++ ns.map Component.name, Plain c := by
      intro c hc'
      rcases List.mem_append.1 hc' with hc' | hc'
      · exact hplain c hc'
      · exact plain_of_isNameComponent (hnames c hc')
    by_cases he : List.replicate j Component.up ++ ms = []
    · -- the root is `.`: its one piece `.` reads nothing
      have hR : Path.normalize R = "." := by
        unfold Path.normalize
        rw [hms, he]
      rw [hR, show pieces "." = ["."] from rfl, List.singleton_append, walk.eq_2, if_pos rfl]
      cases ns with
      | nil =>
        have hD : Path.normalize (joinAll R []) = "." := hR
        rw [hD, show pieces "." = ["."] from rfl, walk.eq_2, if_pos rfl]
      | cons n ns =>
        rw [hms, he, List.nil_append] at hc
        rw [normalize_eq_render hc (List.cons_ne_nil _ _),
          start_render_plain fun c hc' => plain_of_isNameComponent (hnames c hc'),
          pieces_render_plain fun c hc' => plain_of_isNameComponent (hnames c hc'), text_name]
        rfl
    · rw [normalize_eq_render (hc.trans (by rw [hms])) (List.append_ne_nil_of_left_ne_nil he _),
        normalize_eq_render hms he, start_render_plain hall, start_render_plain hplain,
        pieces_render_plain hall, pieces_render_plain hplain, List.map_append, text_name]

/-- A normal path is never empty. -/
theorem normalize_isEmpty (s : String) : (Path.normalize s).isEmpty = false := by
  cases hcs : clean (components s) with
  | nil =>
    unfold Path.normalize
    rw [hcs]
    rfl
  | cons c cs =>
    rw [normalize_eq_render hcs (List.cons_ne_nil _ _)]
    have hr := components_render (hcs ▸ clean_components s)
    rw [Bool.eq_false_iff]
    intro he
    rw [String.isEmpty_iff.1 he] at hr
    cases hr

/-- **No NUL byte in a directory's normal path** when the root's normal path
and the names have none. -/
theorem nul_not_mem_normalize_joinAll (hR : '\x00' ∉ (Path.normalize R).toList)
    (hns : ∀ n ∈ ns, ValidName n) : '\x00' ∉ (Path.normalize (joinAll R ns)).toList := by
  have hc := clean_components_joinAll R fun n hn => (hns n hn).1
  intro hx
  cases hD : clean (components (joinAll R ns)) with
  | nil =>
    unfold Path.normalize at hx
    rw [hD] at hx
    cases List.mem_singleton.1 hx
  | cons d ds =>
    rw [normalize_eq_render hD (List.cons_ne_nil _ _)] at hx
    rw [hD] at hc
    rcases mem_render hx with h0 | ⟨c, hc', h0⟩
    · cases h0
    · rw [hc] at hc'
      rcases List.mem_append.1 hc' with hc' | hc'
      · -- a component of the root's normal form, whose text is in that path
        have hne : clean (components R) ≠ [] := List.ne_nil_of_mem hc'
        obtain ⟨e, es, hes⟩ := List.exists_cons_of_ne_nil hne
        rw [normalize_eq_render hes (List.cons_ne_nil _ _)] at hR
        refine hR (mem_render_of_mem (hes ▸ hc') ?_ h0)
        rintro rfl
        exact absurd h0 (by decide)
      · obtain ⟨n, hn, rfl⟩ := List.mem_map.1 hc'
        exact (hns n hn).2.2 h0

theorem resolve_of_ok {f : Bool} {r : Reached} (h : v.resolve s f = .ok r) :
    s.isEmpty = false ∧ refusal? s = none ∧ ∃ k, v.walk f 40 (v.start s) (pieces s) = .ok (r, k) := by
  unfold resolve at h
  split at h
  · cases h
  · rename_i hne
    split at h
    · cases h
    · rename_i hr
      cases hw : v.walk f 40 (v.start s) (pieces s) with
      | error e =>
        rw [hw] at h
        cases h
      | ok x =>
        rw [hw] at h
        cases h
        exact ⟨Bool.eq_false_iff.2 hne, hr, x.2, rfl⟩

theorem resolve_eq_walk {f : Bool} (hne : s.isEmpty = false) (hr : refusal? s = none) :
    v.resolve s f = (v.walk f 40 (v.start s) (pieces s)).map Prod.fst := by
  unfold resolve
  rw [if_neg (by rw [hne]; exact Bool.false_ne_true), hr]

/-- **The top of a volume is a directory**, whatever the volume holds. -/
theorem resolve_top (f : Bool) : v.resolve "/" f = .ok (.node [] .dir) := by
  rw [resolve_eq_walk (by decide) (by decide), show pieces "/" = [] by decide,
    show v.start "/" = [] from start_render_root [], walk.eq_1]
  rfl

/-- A path is read when it has no NUL byte and is shorter than `pathMax`. -/
theorem refusal?_eq_none (h0 : '\x00' ∉ s.toList) (hlen : s.utf8ByteSize < pathMax) :
    refusal? s = none := by
  unfold refusal?
  rw [if_neg (by rw [List.contains_iff_mem]; exact h0), if_neg (Nat.not_le.2 hlen)]

theorem nul_not_mem_of_refusal? (h : refusal? s = none) : '\x00' ∉ s.toList := by
  unfold refusal? at h
  intro h0
  rw [if_pos (List.contains_iff_mem.2 h0)] at h
  cases h

theorem utf8ByteSize_lt_of_refusal? (h : refusal? s = none) : s.utf8ByteSize < pathMax := by
  unfold refusal? at h
  rw [if_neg (by rw [List.contains_iff_mem]; exact nul_not_mem_of_refusal? h)] at h
  refine Nat.lt_of_not_le fun hlen => ?_
  rw [if_pos hlen] at h
  cases h

/-- The names of a chain of directories are valid entry names. -/
theorem WellFormed.validName_of_chain (hv : v.WellFormed) {p : Place} (h : DirChain v p ns) :
    ∀ n ∈ ns, ValidName n := by
  induction h with
  | nil => exact fun n hn => absurd hn List.not_mem_nil
  | cons hl _ ih =>
    intro n hn
    rcases List.mem_cons.1 hn with rfl | hn
    · exact hv.validName hl
    · exact ih n hn

/-- **Reading a directory by its normal path leads to it**: when the root's
path is in normal form and leads to the directory at `p`, the normal path of
the root with the names of a chain of directories below `p` joined leads to
the end of the chain, provided the file system accepts its length. -/
theorem WellFormed.resolve_normalize_joinAll (hv : v.WellFormed) {p : Place} (hR : Path.normalize R = R)
    (hroot : v.resolve R true = .ok (.node p .dir)) (hc : DirChain v p ns)
    (hlen : (Path.normalize (joinAll R ns)).utf8ByteSize < pathMax) :
    v.resolve (Path.normalize (joinAll R ns)) true = .ok (.node (p ++ ns) .dir) := by
  obtain ⟨-, hr, k, hw⟩ := resolve_of_ok hroot
  have hns := hv.validName_of_chain hc
  have h0 : '\x00' ∉ (Path.normalize (joinAll R ns)).toList :=
    nul_not_mem_normalize_joinAll (by rw [hR]; exact nul_not_mem_of_refusal? hr) hns
  rw [resolve_eq_walk (normalize_isEmpty _) (refusal?_eq_none h0 hlen),
    walk_normalize_joinAll R fun n hn => (hns n hn).1, hR, walk_append hw, hv.walk_chain hc]
  rfl

end Volume

end ReadingOrder
