import ReadingOrder.Proofs.Volume.NormalPath
/-!
# Reading a directory by the path a walk writes

A walk below a root names each directory it meets by the root's path as
given, with the names on the way joined to it as written, one slash between
each (`joinAll`). It reads the directory by that path, not by its normal
form, so a root written `.` makes every such path start with `./`, and a root
with a trailing slash gets no second one.

Reading the path still leads to the directory (`WellFormed.resolve_joinAll`):
its pieces are the root's pieces followed by the names, except that a
trailing slash of the root no longer asks for a directory, which the root is
anyway (`walk_pieces_join_append`). The path is refused only for its length,
since neither the root nor a name holds a NUL byte; then reading fails with
`nameTooLong` (`resolve_joinAll_of_long`).

For a root in normal form the path is its own normal form, or, for the root
`.`, its normal form with `./` in front (`utf8ByteSize_normalize_joinAll_le`).
-/

namespace ReadingOrder

namespace Volume

open ReadingOrder.Path

variable {v : Volume} {D R n : String} {ns : List String} {p here r : Place} {k k' : Nat}

/-! ## Pieces of a joined path -/

/-- The pieces of a path that does not end in a slash are its non-empty texts
between slashes. -/
theorem pieces_of_not_slash (hs : D.toList.getLast? ≠ some '/') :
    pieces D = (splitSlash D.toList).filterMap fun p => if p.isEmpty then none else some (String.ofList p) := by
  unfold pieces
  dsimp only
  rw [if_neg]
  rw [Bool.and_eq_true, beq_iff_eq]
  exact fun h => hs h.1

/-- A name, as a piece, is the name. -/
theorem filterMap_piece_name (hn : IsName n.toList) :
    [n.toList].filterMap (fun p => if p.isEmpty then none else some (String.ofList p)) = [n] := by
  rw [List.filterMap_cons_some (by rw [if_neg (by rw [List.isEmpty_iff]; exact hn.1), String.ofList_toList]),
    List.filterMap_nil]

/-- A name is joined after the path, with a slash between unless the path is
empty or ends in one. -/
theorem join_of_name (hn : IsName n.toList) :
    join D n = if D.isEmpty || D.toList.getLast? == some '/' then D ++ n else D ++ "/" ++ n := by
  unfold join
  rw [isAbsolute_of_isName hn, if_neg Bool.false_ne_true]

theorem exists_join_eq_append (hn : IsName n.toList) : ∃ X, join D n = X ++ n := by
  rw [join_of_name hn]
  split
  · exact ⟨D, rfl⟩
  · exact ⟨D ++ "/", rfl⟩

/-- A path with a name joined ends in the name's last character. -/
theorem getLast?_join (hn : IsName n.toList) : (join D n).toList.getLast? ≠ some '/' := by
  obtain ⟨X, hX⟩ := exists_join_eq_append (D := D) hn
  rw [hX, String.toList_append, List.getLast?_append_of_ne_nil _ hn.1]
  exact fun he => hn.2.1 (List.mem_of_getLast? he)

theorem join_ne_nil (hn : IsName n.toList) : (join D n).toList ≠ [] := by
  obtain ⟨X, hX⟩ := exists_join_eq_append (D := D) hn
  rw [hX, String.toList_append]
  exact List.append_ne_nil_of_right_ne_nil _ hn.1

/-- **Joining a name to a path that does not end in a slash adds it as a
piece.** -/
theorem pieces_join (hn : IsName n.toList) (hD : D.toList ≠ []) (hs : D.toList.getLast? ≠ some '/') :
    pieces (join D n) = pieces D ++ [n] := by
  have hjoin : join D n = D ++ "/" ++ n := by
    unfold join
    rw [isAbsolute_of_isName hn, if_neg Bool.false_ne_true, if_neg]
    rw [Bool.or_eq_true, beq_iff_eq, String.isEmpty_iff]
    rintro (he | he)
    · exact hD (by rw [he]; rfl)
    · exact hs he
  rw [pieces_of_not_slash (getLast?_join hn), pieces_of_not_slash hs, hjoin, String.toList_append,
    String.toList_append, List.append_assoc, show "/".toList = ['/'] from rfl, List.singleton_append,
    splitSlash_append_slash, splitSlash_of_not_mem hn.2.1, List.filterMap_append, filterMap_piece_name hn]

/-- **Joining a name to a path that ends in a slash** puts it in place of the
`.` that the slash asks for. -/
theorem pieces_join_of_slash (hn : IsName n.toList) (hs : D.toList.getLast? = some '/') :
    pieces (join D n) = (pieces D).dropLast ++ [n] := by
  obtain ⟨xs, hxs⟩ := List.getLast?_eq_some_iff.1 hs
  have hjoin : join D n = D ++ n := by
    unfold join
    rw [isAbsolute_of_isName hn, if_neg Bool.false_ne_true, if_pos]
    rw [Bool.or_eq_true, beq_iff_eq]
    exact Or.inr hs
  rw [pieces_of_not_slash (getLast?_join hn), hjoin, String.toList_append, hxs, List.append_assoc,
    List.singleton_append, splitSlash_append_slash, splitSlash_of_not_mem hn.2.1, List.filterMap_append,
    filterMap_piece_name hn]
  -- the slash leaves an empty last piece, which reads as nothing
  unfold pieces
  dsimp only
  rw [hxs, show xs ++ ['/'] = xs ++ '/' :: [] from rfl, splitSlash_append_slash, List.filterMap_append,
    show splitSlash [] = [[]] from rfl, List.filterMap_cons_none (by rfl), List.filterMap_nil, List.append_nil,
    List.getLast?_concat]
  split
  · rw [List.dropLast_concat]
  · rename_i h
    -- without pieces before the slash, there is nothing to drop
    have hnil : ((splitSlash xs).filterMap fun p => if p.isEmpty then none else some (String.ofList p)) = [] := by
      simpa using h
    rw [hnil]
    rfl

/-- A path that ends in a slash reads as its pieces with a `.` after them,
or as nothing. -/
theorem pieces_of_slash (hs : D.toList.getLast? = some '/') :
    pieces D = (pieces D).dropLast ++ ["."] ∨ pieces D = [] := by
  unfold pieces
  dsimp only
  split
  · exact .inl (by rw [List.dropLast_concat])
  · rename_i h
    right
    simpa [hs] using h

/-- **A path with names joined reads the path's pieces, then the names**,
when the path does not end in a slash. -/
theorem pieces_joinAll (hns : ∀ n ∈ ns, IsName n.toList) (hD : D.toList ≠ [])
    (hs : D.toList.getLast? ≠ some '/') : pieces (joinAll D ns) = pieces D ++ ns := by
  induction ns generalizing D with
  | nil => rw [List.append_nil]; rfl
  | cons n ns ih =>
    have hn := hns n List.mem_cons_self
    rw [joinAll_cons, ih (fun m hm => hns m (List.mem_cons_of_mem _ hm)) (join_ne_nil hn) (getLast?_join hn),
      pieces_join hn hD hs, List.append_assoc, List.singleton_append]

/-- A path with names joined is read from where the path is read. -/
theorem start_joinAll (hD : D.toList ≠ []) (hns : ∀ n ∈ ns, IsName n.toList) :
    v.start (joinAll D ns) = v.start D := by
  induction ns generalizing D with
  | nil => rfl
  | cons n ns ih =>
    have hn := hns n List.mem_cons_self
    rw [joinAll_cons, ih (join_ne_nil hn) fun m hm => hns m (List.mem_cons_of_mem _ hm)]
    -- the joined path starts with the path's first character
    obtain ⟨x, xs, hx⟩ := List.exists_cons_of_ne_nil hD
    unfold start isAbsolute
    have hhead : (join D n).toList.head? = D.toList.head? := by
      rw [join_of_name hn]
      split <;> simp only [String.toList_append, hx, List.cons_append, List.head?_cons]
    rw [hhead]

/-! ## Reading a joined path -/

/-- A name that leads to nothing or to a file, with pieces after it, stops
the walk: only a directory is read through. -/
theorem walk_cons_of_not_dir {f : Bool} {p : String} {rest : List String} (h1 : ¬ p = ".") (h2 : ¬ p = "..")
    (h3 : ¬ p.utf8ByteSize > nameMax)
    (hl : v.lookup (here ++ [p]) = none ∨ ∃ c, v.lookup (here ++ [p]) = some (.file c))
    (hrest : rest.isEmpty = false) : ∃ e, v.walk f k here (p :: rest) = .error e := by
  rw [walk.eq_2, if_neg h1, if_neg h2, if_neg h3]
  dsimp only
  rcases hl with hl | ⟨c, hl⟩
  · rw [hl, hrest, if_neg Bool.false_ne_true]
    exact ⟨_, rfl⟩
  · rw [hl, hrest, if_neg Bool.false_ne_true]
    exact ⟨_, rfl⟩

/-- **A trailing `.` that reads a directory reads nothing**: it only asks for
a directory, which the pieces before it reached. -/
theorem walk_append_dot {ps : List String} :
    v.walk true k here (ps ++ ["."]) = .ok (.node r .dir, k') → v.walk true k here ps = .ok (.node r .dir, k') := by
  fun_induction v.walk true k here ps with
  | case1 links here =>
    intro h
    rw [List.nil_append, walk.eq_2, if_pos rfl, walk.eq_1] at h
    exact h
  | case2 links here rest ih =>
    intro h
    rw [List.cons_append, walk.eq_2, if_pos rfl] at h
    exact ih h
  | case3 links here rest hne ih =>
    intro h
    rw [List.cons_append, walk.eq_2, if_neg hne, if_pos rfl] at h
    exact ih h
  | case4 links here p rest h1 h2 h3 =>
    intro h
    rw [List.cons_append, walk.eq_2, if_neg h1, if_neg h2, if_pos h3] at h
    cases h
  | case5 links here p rest h1 h2 h3 place hl hrest =>
    intro h
    obtain ⟨e, he⟩ := walk_cons_of_not_dir (f := true) (k := links) h1 h2 h3 (.inl hl)
      (by simp : (rest ++ ["."]).isEmpty = false)
    rw [List.cons_append, he] at h
    cases h
  | case6 links here p rest h1 h2 h3 place hl hrest =>
    intro h
    obtain ⟨e, he⟩ := walk_cons_of_not_dir (f := true) (k := links) h1 h2 h3 (.inl hl)
      (by simp : (rest ++ ["."]).isEmpty = false)
    rw [List.cons_append, he] at h
    cases h
  | case7 links here p rest h1 h2 h3 place hl ih =>
    intro h
    have hl' : v.lookup (here ++ [p]) = some .dir := hl
    rw [List.cons_append, walk.eq_2, if_neg h1, if_neg h2, if_neg h3] at h
    dsimp only at h
    rw [hl'] at h
    exact ih h
  | case8 links here p rest h1 h2 h3 place c hl hrest =>
    intro h
    obtain ⟨e, he⟩ := walk_cons_of_not_dir (f := true) (k := links) h1 h2 h3 (.inr ⟨c, hl⟩)
      (by simp : (rest ++ ["."]).isEmpty = false)
    rw [List.cons_append, he] at h
    cases h
  | case9 links here p rest h1 h2 h3 place c hl hrest =>
    intro h
    obtain ⟨e, he⟩ := walk_cons_of_not_dir (f := true) (k := links) h1 h2 h3 (.inr ⟨c, hl⟩)
      (by simp : (rest ++ ["."]).isEmpty = false)
    rw [List.cons_append, he] at h
    cases h
  | case10 links here p rest h1 h2 h3 place t hl hfollow => simp at hfollow
  | case11 here p rest h1 h2 h3 place t hl hfollow =>
    intro h
    have hl' : v.lookup (here ++ [p]) = some (.link t) := hl
    rw [List.cons_append, walk.eq_2, if_neg h1, if_neg h2, if_neg h3] at h
    dsimp only at h
    rw [hl', Bool.not_true, Bool.and_false] at h
    dsimp only at h
    rw [if_neg Bool.false_ne_true] at h
    cases h
  | case12 here p rest h1 h2 h3 place t hl hfollow k ih =>
    intro h
    have hl' : v.lookup (here ++ [p]) = some (.link t) := hl
    rw [List.cons_append, walk.eq_2, if_neg h1, if_neg h2, if_neg h3] at h
    dsimp only at h
    rw [hl', Bool.not_true, Bool.and_false] at h
    dsimp only at h
    rw [if_neg Bool.false_ne_true, ← List.append_assoc] at h
    exact ih h

/-- **Reading a path with a name joined** reads the path, then the name,
whether or not the path ends in a slash. -/
theorem walk_pieces_join_append (hn : IsName n.toList) (hD : D.toList ≠ []) {qs : List String}
    (hw : v.walk true k here (pieces D) = .ok (.node r .dir, k')) :
    v.walk true k here (pieces (join D n) ++ qs) = v.walk true k' r (n :: qs) := by
  by_cases hs : D.toList.getLast? = some '/'
  · -- the slash asked for a directory that the pieces before it reach
    have hw' : v.walk true k here (pieces D).dropLast = .ok (.node r .dir, k') := by
      rcases pieces_of_slash hs with hp | hp
      · rw [hp] at hw
        exact walk_append_dot hw
      · rw [hp] at hw ⊢
        exact hw
    rw [pieces_join_of_slash hn hs, List.append_assoc, walk_append hw', List.singleton_append]
  · rw [pieces_join hn hD hs, List.append_assoc, walk_append hw, List.singleton_append]

/-- No NUL byte is in a path with names joined when none is in the path or
the names. -/
theorem nul_not_mem_joinAll (hD : '\x00' ∉ D.toList) (hns : ∀ n ∈ ns, ValidName n) :
    '\x00' ∉ (joinAll D ns).toList := by
  induction ns generalizing D with
  | nil => exact hD
  | cons n ns ih =>
    rw [joinAll_cons]
    refine ih ?_ fun m hm => hns m (List.mem_cons_of_mem _ hm)
    have hn := (hns n List.mem_cons_self).2.2
    unfold join
    split
    · exact hn
    · split <;> simp [hD, hn]

/-- A path with names joined is not empty when the path is not. -/
theorem joinAll_ne_nil (hD : D.toList ≠ []) (hns : ∀ n ∈ ns, IsName n.toList) : (joinAll D ns).toList ≠ [] := by
  induction ns generalizing D with
  | nil => exact hD
  | cons n ns ih =>
    rw [joinAll_cons]
    exact ih (join_ne_nil (hns n List.mem_cons_self)) fun m hm => hns m (List.mem_cons_of_mem _ hm)

theorem isEmpty_eq_false_of_toList (h : D.toList ≠ []) : D.isEmpty = false := by
  rw [Bool.eq_false_iff]
  intro he
  exact h (by rw [String.isEmpty_iff.1 he]; rfl)

/-- **Reading a directory by the path a walk writes leads to it**: the root's
path with the names of a chain of real directories below the root's place
joined leads to the end of the chain, when the file system accepts its
length. -/
theorem WellFormed.resolve_joinAll (hv : v.WellFormed) (hroot : v.resolve R true = .ok (.node p .dir))
    (hc : DirChain v p ns) (hlen : (joinAll R ns).utf8ByteSize < pathMax) :
    v.resolve (joinAll R ns) true = .ok (.node (p ++ ns) .dir) := by
  cases ns with
  | nil => rw [List.append_nil]; exact hroot
  | cons n ns =>
    obtain ⟨hne, hr, k, hw⟩ := resolve_of_ok hroot
    have hvalid := hv.validName_of_chain hc
    have hnames : ∀ m ∈ n :: ns, IsName m.toList := fun m hm => (hvalid m hm).1
    have hn := hnames n List.mem_cons_self
    have hrest : ∀ m ∈ ns, IsName m.toList := fun m hm => hnames m (List.mem_cons_of_mem _ hm)
    have hR : R.toList ≠ [] := fun he => by
      rw [String.isEmpty_iff.2 (String.toList_eq_nil_iff.1 he)] at hne
      cases hne
    have h0 : '\x00' ∉ (joinAll R (n :: ns)).toList :=
      nul_not_mem_joinAll (nul_not_mem_of_refusal? hr) hvalid
    -- the path's pieces are the root's, then the names, which go down the chain
    rw [resolve_eq_walk (isEmpty_eq_false_of_toList (joinAll_ne_nil hR hnames)) (refusal?_eq_none h0 hlen),
      start_joinAll hR hnames, joinAll_cons, pieces_joinAll hrest (join_ne_nil hn) (getLast?_join hn),
      walk_pieces_join_append hn hR hw, hv.walk_chain hc]
    rfl

/-- **A path the file system refuses for its length** is not read: the
root's path with the names of a chain joined fails with `nameTooLong` when it
is `pathMax` bytes long or more. -/
theorem WellFormed.resolve_joinAll_of_long (hv : v.WellFormed) (hroot : v.resolve R true = .ok (.node p .dir))
    (hc : DirChain v p ns) (hlen : pathMax ≤ (joinAll R ns).utf8ByteSize) :
    v.resolve (joinAll R ns) true = .error .nameTooLong := by
  obtain ⟨hne, hr, -⟩ := resolve_of_ok hroot
  have hvalid := hv.validName_of_chain hc
  have hR : R.toList ≠ [] := fun he => by
    rw [String.isEmpty_iff.2 (String.toList_eq_nil_iff.1 he)] at hne
    cases hne
  have hne' : (joinAll R ns).isEmpty = false :=
    isEmpty_eq_false_of_toList (joinAll_ne_nil hR fun m hm => (hvalid m hm).1)
  have h0 : (joinAll R ns).toList.contains '\x00' = false := by
    rw [Bool.eq_false_iff, ne_eq, List.contains_iff_mem]
    exact nul_not_mem_joinAll (nul_not_mem_of_refusal? hr) hvalid
  unfold resolve refusal?
  rw [hne', h0, if_neg Bool.false_ne_true, if_neg Bool.false_ne_true, if_pos hlen]

/-- **Listing a directory by the path a walk writes** gives its entries, or
fails with `nameTooLong` when the path is too long to be read. -/
theorem WellFormed.listDir_joinAll (hv : v.WellFormed) (hroot : v.resolve R true = .ok (.node p .dir))
    (hc : DirChain v p ns) :
    v.listDir (joinAll R ns) = if (joinAll R ns).utf8ByteSize < pathMax then .ok (p ++ ns, v.entries (p ++ ns))
      else .error .nameTooLong := by
  unfold listDir
  by_cases hlen : (joinAll R ns).utf8ByteSize < pathMax
  · rw [if_pos hlen, hv.resolve_joinAll hroot hc hlen]
  · rw [if_neg hlen, hv.resolve_joinAll_of_long hroot hc (Nat.le_of_not_lt hlen)]

/-- **A file at the top of a volume is read by its absolute path.** -/
theorem readFile_top (name : String) {s c : String} (hs : s = "/" ++ name) (hn : ValidName name)
    (hl : v.lookup [name] = some (.file c)) : v.readFile s = .ok c := by
  have hpath : s = render [.root, .name name] := by
    rw [hs]
    show "/" ++ name = "/" ++ "/".intercalate [name]
    rw [String.intercalate_singleton]
  -- the path is refused neither for a NUL byte nor for its length
  have hlen : s.utf8ByteSize < pathMax := by
    have hname := hn.2.1
    have hslash : "/".utf8ByteSize = 1 := rfl
    rw [hs, String.utf8ByteSize_append]
    unfold nameMax at hname
    unfold pathMax
    omega
  have h0 : '\x00' ∉ s.toList := by
    rw [hs, String.toList_append]
    exact List.not_mem_append (by decide) hn.2.2
  have hpieces : pieces s = [name] := by
    rw [hpath, pieces_render_root fun c hc => by rw [List.mem_singleton.1 hc]; exact hn.1]
    rfl
  unfold readFile metadata
  rw [resolve_eq_walk (isEmpty_eq_false_of_toList (by rw [hs, String.toList_append]; simp))
    (refusal?_eq_none h0 hlen), hpieces, hpath, start_render_root, walk_file (c := c) hn hl]
  rfl

/-! ## The length of a joined path -/

/-- Joining a path adds at most its bytes and one slash. -/
theorem utf8ByteSize_join_le (D n : String) : (join D n).utf8ByteSize ≤ D.utf8ByteSize + n.utf8ByteSize + 1 := by
  have hslash : "/".utf8ByteSize = 1 := rfl
  unfold join
  split
  · omega
  · split <;> simp only [String.utf8ByteSize_append, hslash] <;> omega

/-- Below a path that is not empty and does not end in a slash, joining a name
adds one slash and the name. -/
theorem utf8ByteSize_join (hn : IsName n.toList) (hD : D.toList ≠ []) (hs : D.toList.getLast? ≠ some '/') :
    (join D n).utf8ByteSize = D.utf8ByteSize + 1 + n.utf8ByteSize := by
  rw [join_of_name hn, if_neg, String.utf8ByteSize_append, String.utf8ByteSize_append]
  · rfl
  · rw [isEmpty_eq_false_of_toList hD, Bool.false_or, beq_iff_eq]
    exact hs

/-- **Names of at most `k` bytes** make a joined path at most `k + 1` bytes
longer each. -/
theorem utf8ByteSize_joinAll_le (hns : ∀ n ∈ ns, n.utf8ByteSize ≤ k) :
    (joinAll D ns).utf8ByteSize ≤ D.utf8ByteSize + ns.length * (k + 1) := by
  induction ns generalizing D with
  | nil => exact Nat.le_add_right _ _
  | cons n ns ih =>
    have hjoin := utf8ByteSize_join_le D n
    have hrest := ih (D := join D n) fun m hm => hns m (List.mem_cons_of_mem _ hm)
    have hn := hns n List.mem_cons_self
    rw [joinAll_cons, List.length_cons, Nat.succ_mul]
    omega

/-- A name joined `j` times below a path that is not empty and does not end in
a slash makes it `j` times one slash and the name longer. -/
theorem utf8ByteSize_joinAll_replicate (hn : IsName n.toList) (hD : D.toList ≠ [])
    (hs : D.toList.getLast? ≠ some '/') (j : Nat) :
    (joinAll D (List.replicate j n)).utf8ByteSize = D.utf8ByteSize + j * (n.utf8ByteSize + 1) := by
  induction j generalizing D with
  | zero => rw [List.replicate_zero, Nat.zero_mul, Nat.add_zero]; rfl
  | succ j ih =>
    rw [List.replicate_succ, joinAll_cons, ih (join_ne_nil hn) (getLast?_join hn), utf8ByteSize_join hn hD hs,
      Nat.succ_mul]
    omega

/-- **A chain of a well-formed volume has a bounded path**: its names are at
most `nameMax` bytes each, and it has no more names than the volume has
places. -/
theorem WellFormed.utf8ByteSize_joinAll_chain_le (hv : v.WellFormed) (hc : DirChain v p ns) :
    (joinAll R ns).utf8ByteSize ≤ R.utf8ByteSize + v.nodes.length * (nameMax + 1) :=
  calc (joinAll R ns).utf8ByteSize
      _ ≤ R.utf8ByteSize + ns.length * (nameMax + 1) :=
        utf8ByteSize_joinAll_le fun n hn => (hv.validName_of_chain hc n hn).2.1
      _ ≤ R.utf8ByteSize + v.nodes.length * (nameMax + 1) :=
        Nat.add_le_add_left (Nat.mul_le_mul_right _ (hc.length_le hv)) _

/-- **A small volume has no path too long to read** below a root: when the
root and as many longest names as the volume has places fit below
`pathMax`, every chain below the root has a readable path. -/
theorem WellFormed.joinAll_short (hv : v.WellFormed)
    (hsmall : R.utf8ByteSize + v.nodes.length * (nameMax + 1) < pathMax) (hc : DirChain v p ns) :
    (joinAll R ns).utf8ByteSize < pathMax :=
  Nat.lt_of_le_of_lt (hv.utf8ByteSize_joinAll_chain_le hc) hsmall

/-! ## The normal form of a joined path -/

/-- Texts joined by a separator, with one more text after them. -/
theorem intercalate_snoc {s t : String} {l : List String} (hl : l ≠ []) :
    s.intercalate (l ++ [t]) = s.intercalate l ++ s ++ t := by
  induction l with
  | nil => exact absurd rfl hl
  | cons a l ih =>
    cases l with
    | nil =>
      rw [List.singleton_append, String.intercalate_cons_cons, String.intercalate_singleton,
        String.intercalate_singleton]
    | cons b l =>
      rw [List.cons_append, List.cons_append, String.intercalate_cons_cons, ← List.cons_append,
        ih (List.cons_ne_nil _ _), String.intercalate_cons_cons]
      simp only [String.append_assoc]

/-- Texts joined by slashes end as the last text does, when it is not empty. -/
theorem getLast?_intercalate {l : List String} {t : String} (ht : t.toList ≠ []) :
    ("/".intercalate (l ++ [t])).toList.getLast? = t.toList.getLast? := by
  cases l with
  | nil => rw [List.nil_append, String.intercalate_singleton]
  | cons a l =>
    rw [intercalate_snoc (List.cons_ne_nil _ _), String.toList_append, List.getLast?_append_of_ne_nil _ ht]

/-- **Joining a name to texts joined by slashes** adds it as one more text,
when the last text is not empty and has no slash. -/
theorem join_intercalate {T : List String} {t : String} (ht : t.toList ≠ []) (hts : '/' ∉ t.toList)
    (hn : IsName n.toList) (P : String) :
    join (P ++ "/".intercalate (T ++ [t])) n = P ++ "/".intercalate (T ++ [t] ++ [n]) := by
  have hlast : (P ++ "/".intercalate (T ++ [t])).toList.getLast? = t.toList.getLast? := by
    rw [String.toList_append, List.getLast?_append_of_ne_nil _ (by
      rw [← List.getLast?_isSome, getLast?_intercalate ht, List.getLast?_isSome]; exact ht),
      getLast?_intercalate ht]
  rw [join_of_name hn, if_neg, intercalate_snoc (List.append_ne_nil_of_right_ne_nil _ (List.cons_ne_nil _ _))]
  · simp only [String.append_assoc]
  rw [Bool.or_eq_true, beq_iff_eq, hlast, String.isEmpty_iff]
  rintro (he | he)
  · have := congrArg String.toList he
    rw [String.toList_append] at this
    exact List.append_ne_nil_of_right_ne_nil _ (by
      rw [← List.getLast?_isSome, getLast?_intercalate ht, List.getLast?_isSome]; exact ht) this
  · exact hts (List.mem_of_getLast? he)

/-- **A name joined to a path in normal form** is that path's components
with the name added, written out. -/
theorem join_render {cs : List Component} (hcs : Clean cs) (hne : cs ≠ []) (hn : IsName n.toList) :
    join (render cs) n = render (cs ++ [.name n]) := by
  rcases hcs with ⟨ms, rfl, hms⟩ | ⟨k, ms, rfl, hms⟩
  · rcases List.eq_nil_or_concat ms with rfl | ⟨L, c, rfl⟩
    · -- the root alone ends in its slash
      have hslash : ((render [Component.root]).isEmpty ||
          (render [Component.root]).toList.getLast? == some '/') = true := by decide
      rw [join_of_name hn, if_pos hslash]
      rfl
    · rw [List.concat_eq_append] at hms ⊢
      have hc : IsNameComponent c := hms c (List.mem_append_right _ (List.mem_singleton_self _))
      have hct := plain_of_isNameComponent hc
      show join ("/" ++ "/".intercalate ((L ++ [c]).map Component.text)) n =
        "/" ++ "/".intercalate ((L ++ [c] ++ [Component.name n]).map Component.text)
      simp only [List.map_append, List.map_cons, List.map_nil, Component.text]
      exact join_intercalate (text_toList_ne_nil hct) (slash_not_mem_text hct) hn "/"
  · -- steps up and names: the last is not empty and has no slash
    obtain ⟨L, c, hLc⟩ := List.eq_nil_or_concat (List.replicate k Component.up ++ ms) |>.resolve_left hne
    rw [List.concat_eq_append] at hLc
    have hplain : ∀ x ∈ List.replicate k Component.up ++ ms, Plain x := by
      intro x hx
      rcases List.mem_append.1 hx with hx | hx
      · rw [List.eq_of_mem_replicate hx]
        trivial
      · exact plain_of_isNameComponent (hms x hx)
    have hct : Plain c := hplain c (by rw [hLc]; exact List.mem_append_right _ (List.mem_singleton_self _))
    have hhead : ∀ xs : List Component, (∀ x ∈ xs, Plain x) → xs.head? ≠ some .root := by
      intro xs hxs he
      cases xs with
      | nil => cases he
      | cons x xs =>
        cases Option.some.inj he
        exact hxs _ List.mem_cons_self
    have hplain' : ∀ x ∈ List.replicate k Component.up ++ ms ++ [.name n], Plain x := by
      intro x hx
      rcases List.mem_append.1 hx with hx | hx
      · exact hplain x hx
      · rw [List.mem_singleton.1 hx]
        exact hn
    rw [render_eq_intercalate (hhead _ hplain), render_eq_intercalate (hhead _ hplain'), hLc]
    simp only [List.map_append, List.map_cons, List.map_nil, Component.text]
    have h := join_intercalate (T := L.map Component.text) (text_toList_ne_nil hct) (slash_not_mem_text hct) hn ""
    rwa [String.empty_append, String.empty_append] at h

/-- **Names joined to a path in normal form** are that path's components
with the names added, written out. -/
theorem joinAll_render {cs : List Component} (hcs : Clean cs) (hne : cs ≠ [])
    (hns : ∀ n ∈ ns, IsName n.toList) : joinAll (render cs) ns = render (cs ++ ns.map .name) := by
  induction ns generalizing cs with
  | nil => rw [List.map_nil, List.append_nil]; rfl
  | cons n ns ih =>
    have hn := hns n List.mem_cons_self
    rw [joinAll_cons, join_render hcs hne hn, ih (clean_append_of_isName hcs hn)
      (List.append_ne_nil_of_left_ne_nil hne _) fun m hm => hns m (List.mem_cons_of_mem _ hm),
      List.map_cons, List.append_assoc, List.singleton_append]

/-- Joining names looks only at the end of a path that is not empty. -/
theorem joinAll_append_left {X Y : String} (hY : Y.toList ≠ []) (hns : ∀ n ∈ ns, IsName n.toList) :
    joinAll (X ++ Y) ns = X ++ joinAll Y ns := by
  induction ns generalizing Y with
  | nil => rfl
  | cons n ns ih =>
    have hn := hns n List.mem_cons_self
    have hXY : (X ++ Y).toList.getLast? = Y.toList.getLast? := by
      rw [String.toList_append, List.getLast?_append_of_ne_nil _ hY]
    have hjoin : join (X ++ Y) n = X ++ join Y n := by
      rw [join_of_name hn, join_of_name hn, isEmpty_eq_false_of_toList hY,
        isEmpty_eq_false_of_toList (by rw [String.toList_append]; exact List.append_ne_nil_of_right_ne_nil _ hY),
        hXY]
      split <;> simp only [String.append_assoc]
    rw [joinAll_cons, joinAll_cons, hjoin, ih (join_ne_nil hn) fun m hm => hns m (List.mem_cons_of_mem _ hm)]

/-- **The normal form of a path a walk writes is no longer than the path**,
below a root in normal form: it is the path itself, or, below the root `.`,
the path without its leading `./`. -/
theorem utf8ByteSize_normalize_joinAll_le (hR : Path.normalize R = R) (hns : ∀ n ∈ ns, IsName n.toList) :
    (Path.normalize (joinAll R ns)).utf8ByteSize ≤ (joinAll R ns).utf8ByteSize := by
  have hclean := clean_components_joinAll R hns
  cases hcs : clean (components R) with
  | cons c cs =>
    -- the root renders its clean components, and names joined to it keep it clean
    have hRr : R = render (c :: cs) := hR.symm.trans (normalize_eq_render hcs (List.cons_ne_nil _ _))
    have hc : Clean (c :: cs) := hcs ▸ clean_components R
    rw [hcs] at hclean
    rw [normalize_eq_render hclean (List.append_ne_nil_of_left_ne_nil (List.cons_ne_nil _ _) _), hRr,
      joinAll_render hc (List.cons_ne_nil _ _) hns]
  | nil =>
    -- the root is `.`, which the path keeps in front
    have hdot : R = "." := by
      rw [← hR]
      unfold Path.normalize
      rw [hcs]
    subst hdot
    cases ns with
    | nil => exact Nat.le_refl _
    | cons n ns =>
      have hn := hns n List.mem_cons_self
      have hrest : ∀ m ∈ ns, IsName m.toList := fun m hm => hns m (List.mem_cons_of_mem _ hm)
      have hname : Clean [Component.name n] := Or.inr ⟨0, [.name n], rfl, fun c hc => by
        rw [List.mem_singleton.1 hc]; exact hn⟩
      have hwrite : joinAll "." (n :: ns) = "./" ++ render (Component.name n :: ns.map .name) := by
        rw [joinAll_cons, join_of_name hn, if_neg (by decide), show "." ++ "/" ++ n = "./" ++ render [.name n] from rfl,
          joinAll_append_left (by rw [render_eq_intercalate (fun h => by cases h)]; exact hn.1) hrest,
          joinAll_render hname (List.cons_ne_nil _ _) hrest]
        rfl
      rw [hcs, List.nil_append] at hclean
      rw [normalize_eq_render hclean (List.cons_ne_nil _ _), hwrite, String.utf8ByteSize_append]
      exact Nat.le_add_left _ _

/-! ## A joined path relative to the root -/

/-- Names joined to a path have the path's components, then the names. -/
theorem components_joinAll (hns : ∀ n ∈ ns, IsName n.toList) :
    components (joinAll D ns) = components D ++ ns.map .name := by
  induction ns generalizing D with
  | nil => rw [List.map_nil, List.append_nil]; rfl
  | cons n ns ih =>
    rw [joinAll_cons, ih fun m hm => hns m (List.mem_cons_of_mem _ hm), components_join (hns n List.mem_cons_self),
      List.map_cons, List.append_assoc, List.singleton_append]

/-- **A path a walk writes, relative to the root**, is the names from the
root joined by slashes. -/
theorem relativeTo_joinAll (hns : ∀ n ∈ ns, IsName n.toList) :
    relativeTo D (joinAll D ns) = "/".intercalate ns := by
  unfold relativeTo
  rw [components_joinAll hns, dropPrefix?_append]
  dsimp only
  rw [text_name]

end Volume

end ReadingOrder
