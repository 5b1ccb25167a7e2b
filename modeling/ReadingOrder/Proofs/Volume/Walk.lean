import ReadingOrder.Volume.Resolve
import ReadingOrder.Proofs.Path.Join
import Mathlib.Data.List.Nodup
import Mathlib.Data.String.Basic
/-!
# Reading directories of a volume

A volume a file system can hold lists each place once, and every name on
the way to a place is a real entry name: not empty, no slash, neither `.` nor
`..`, at most `nameMax` bytes and without a NUL byte (`WellFormed`). In such a
volume a place holds what the volume lists at it, and the entries of a
directory are the places one name below it, each name once.

Reading a path goes piece by piece, so reading more pieces after a directory
has been reached goes on from that directory (`walk_append`), and reading
names down a chain of real directories reaches the end of the chain without
following a link (`WellFormed.walk_chain`).
-/

namespace ReadingOrder

namespace Volume

/-- **A name an entry may have**: a path name (not empty, no slash, neither
`.` nor `..`), at most `nameMax` bytes long and without a NUL byte. -/
def ValidName (s : String) : Prop :=
  Path.IsName s.toList ∧ s.utf8ByteSize ≤ nameMax ∧ '\x00' ∉ s.toList

instance (s : String) : Decidable (ValidName s) :=
  inferInstanceAs (Decidable (_ ∧ _ ∧ _))

/-- **A volume a file system can hold**: no place is listed twice, and every
name on the way to a place is one an entry may have. -/
structure WellFormed (v : Volume) : Prop where
  unique : (v.nodes.map Prod.fst).Nodup
  names : ∀ q x, (q, x) ∈ v.nodes → ∀ s ∈ q, ValidName s

variable {v : Volume} {p q here : Place} {x : Node} {name : String}

/-- A volume is well formed when its places are distinct and every name of
every place it lists may name an entry: the form in which a listed volume
is checked. -/
theorem WellFormed.of_places (hu : (v.nodes.map Prod.fst).Nodup)
    (hn : ∀ e ∈ v.nodes, ∀ s ∈ e.1, ValidName s) : v.WellFormed :=
  ⟨hu, fun q y hq => hn (q, y) hq⟩

/-! ## Places and entries -/

theorem lookup_of_ne_nil (hq : q ≠ []) : v.lookup q = (v.nodes.find? (·.1 = q)).map (·.2) := by
  unfold lookup
  rw [if_neg hq]

/-- **What a place holds** is what the volume lists at it. -/
theorem WellFormed.lookup_eq_some_iff (hv : v.WellFormed) (hq : q ≠ []) :
    v.lookup q = some x ↔ (q, x) ∈ v.nodes := by
  rw [lookup_of_ne_nil hq, Option.map_eq_some_iff]
  constructor
  · rintro ⟨e, he, rfl⟩
    have hq' : e.1 = q := by simpa using List.find?_some he
    rw [← hq']
    exact List.mem_of_find?_eq_some he
  · intro hmem
    cases hf : v.nodes.find? (·.1 = q) with
    | none => exact absurd (decide_eq_true rfl) (List.find?_eq_none.1 hf _ hmem)
    | some e =>
      have hq' : e.1 = q := by simpa using List.find?_some hf
      -- the volume lists the place once, so the entry found is this one
      have he := List.inj_on_of_nodup_map hv.unique (List.mem_of_find?_eq_some hf) hmem hq'
      exact ⟨e, rfl, by rw [he]⟩

/-- A name on the way to a listed place is a valid entry name. -/
theorem WellFormed.validName (hv : v.WellFormed) (hl : v.lookup (p ++ [name]) = some x) :
    ValidName name :=
  hv.names _ _ ((hv.lookup_eq_some_iff (List.append_ne_nil_of_right_ne_nil _ (List.cons_ne_nil _ _))).1
    hl) name (List.mem_append_right _ (List.mem_singleton_self _))

/-- **The entries of a directory** are the places one name below it. -/
theorem mem_entries : (name, x) ∈ v.entries p ↔ (p ++ [name], x) ∈ v.nodes := by
  unfold entries
  dsimp only
  rw [List.mem_mergeSort, List.mem_filterMap]
  constructor
  · rintro ⟨⟨q, y⟩, hq, hqy⟩
    dsimp only at hqy
    split at hqy
    · rename_i last hlast
      split at hqy
      · rename_i hdrop
        cases hqy
        obtain ⟨ys, rfl⟩ := List.getLast?_eq_some_iff.1 hlast
        rw [List.dropLast_concat] at hdrop
        rw [← hdrop]
        exact hq
      · cases hqy
    · cases hqy
  · intro h
    refine ⟨(p ++ [name], x), h, ?_⟩
    rw [List.getLast?_concat, List.dropLast_concat]
    exact if_pos rfl

/-- **An entry is what its place holds.** -/
theorem WellFormed.lookup_of_mem_entries (hv : v.WellFormed) (h : (name, x) ∈ v.entries p) :
    v.lookup (p ++ [name]) = some x :=
  (hv.lookup_eq_some_iff (List.append_ne_nil_of_right_ne_nil _ (List.cons_ne_nil _ _))).2
    (mem_entries.1 h)

/-- **No name is listed twice in a directory.** -/
theorem WellFormed.nodup_entries (hv : v.WellFormed) (p : Place) :
    ((v.entries p).map Prod.fst).Nodup := by
  unfold entries
  dsimp only
  refine (((List.mergeSort_perm _ _).map Prod.fst).nodup_iff).2 (List.Nodup.map_on ?_ ?_)
  · -- one place per name
    rintro ⟨nm, y⟩ ha ⟨nm', y'⟩ hb hab
    dsimp only at hab
    subst hab
    have hya := mem_entries.1 (List.mem_mergeSort.2 ha)
    have hyb := mem_entries.1 (List.mem_mergeSort.2 hb)
    obtain ⟨-, hy⟩ := Prod.mk.inj (List.inj_on_of_nodup_map hv.unique hya hyb rfl)
    rw [hy]
  · -- one entry per place
    refine List.Nodup.filterMap ?_ (List.Nodup.of_map Prod.fst hv.unique)
    rintro ⟨q, y⟩ ⟨q', y'⟩ ⟨nm, z⟩ hb hb'
    dsimp only at hb hb'
    split at hb
    · rename_i l hl
      split at hb
      · rename_i hd
        split at hb'
        · rename_i l' hl'
          split at hb'
          · rename_i hd'
            cases hb
            cases hb'
            obtain ⟨ys, rfl⟩ := List.getLast?_eq_some_iff.1 hl
            obtain ⟨ys', rfl⟩ := List.getLast?_eq_some_iff.1 hl'
            rw [List.dropLast_concat] at hd hd'
            rw [hd, hd']
          · cases hb'
        · cases hb'
      · cases hb
    · cases hb

/-- **A directory lists its entries in increasing order of their names.** -/
theorem WellFormed.entries_sorted (hv : v.WellFormed) (p : Place) :
    (v.entries p).Pairwise fun a b => a.1 < b.1 := by
  have hle : (v.entries p).Pairwise fun a b => Path.nameLe a.1 b.1 = true := by
    unfold entries
    refine List.pairwise_mergeSort (fun a b c hab hbc => ?_) (fun a b => ?_) _
    · exact decide_eq_true (le_trans (of_decide_eq_true hab) (of_decide_eq_true hbc))
    · unfold Path.nameLe
      rcases le_total a.1 b.1 with h | h <;> simp [h]
  have hne : (v.entries p).Pairwise fun a b => a.1 ≠ b.1 := List.pairwise_map.1 (hv.nodup_entries p)
  exact (hle.and hne).imp fun h => lt_of_le_of_ne (of_decide_eq_true h.1) h.2

/-! ## Reading pieces -/

variable {f : Bool} {k k' : Nat} {r : Place} {ps qs ns : List String}

/-- Reading a real directory goes down into it. -/
theorem walk_dir (hn : ValidName name) (hl : v.lookup (here ++ [name]) = some .dir) :
    v.walk f k here (name :: ps) = v.walk f k (here ++ [name]) ps := by
  have h1 : name ≠ "." := fun h => hn.1.2.2.1 (by rw [h]; rfl)
  have h2 : name ≠ ".." := fun h => hn.1.2.2.2 (by rw [h]; rfl)
  rw [walk.eq_2, if_neg h1, if_neg h2, if_neg (Nat.not_lt.2 hn.2.1)]
  dsimp only
  rw [hl]

/-- Reading a regular file as the last piece reaches it. -/
theorem walk_file {c : String} (hn : ValidName name) (hl : v.lookup (here ++ [name]) = some (.file c)) :
    v.walk f k here [name] = .ok (.node (here ++ [name]) (.file c), k) := by
  have h1 : name ≠ "." := fun h => hn.1.2.2.1 (by rw [h]; rfl)
  have h2 : name ≠ ".." := fun h => hn.1.2.2.2 (by rw [h]; rfl)
  rw [walk.eq_2, if_neg h1, if_neg h2, if_neg (Nat.not_lt.2 hn.2.1)]
  dsimp only
  rw [hl]
  rfl

/-- **Reading goes on where it stopped**: after pieces that lead to a
directory, more pieces are read from that directory, with as many links
left to follow as were left. -/
theorem walk_append :
    v.walk true k here ps = .ok (.node r .dir, k') → v.walk true k here (ps ++ qs) = v.walk true k' r qs := by
  fun_induction v.walk true k here ps with
  | case1 links here =>
    intro h
    cases h
    rfl
  | case2 links here rest ih =>
    intro h
    rw [List.cons_append, walk.eq_2, if_pos rfl]
    exact ih h
  | case3 links here rest hne ih =>
    intro h
    rw [List.cons_append, walk.eq_2, if_neg hne, if_pos rfl]
    exact ih h
  | case4 => intro h; cases h
  | case5 => intro h; cases h
  | case6 => intro h; cases h
  | case7 links here p rest h1 h2 h3 place hl ih =>
    intro h
    have hl' : v.lookup (here ++ [p]) = some .dir := hl
    rw [List.cons_append, walk.eq_2, if_neg h1, if_neg h2, if_neg h3]
    dsimp only
    rw [hl']
    exact ih h
  | case8 => intro h; simp at h
  | case9 => intro h; cases h
  | case10 => intro h; simp at h
  | case11 => intro h; cases h
  | case12 here p rest h1 h2 h3 place t hl hne k ih =>
    intro h
    have hl' : v.lookup (here ++ [p]) = some (.link t) := hl
    rw [List.cons_append, walk.eq_2, if_neg h1, if_neg h2, if_neg h3]
    dsimp only
    rw [hl', Bool.not_true, Bool.and_false]
    dsimp only
    rw [if_neg Bool.false_ne_true, ← List.append_assoc]
    exact ih h

/-- **A chain of real directories below a place**: each name leads to a
directory, not through a link. -/
inductive DirChain (v : Volume) : Place → List String → Prop
  | nil (p : Place) : DirChain v p []
  | cons {p : Place} {name : String} {ns : List String} :
      v.lookup (p ++ [name]) = some .dir → DirChain v (p ++ [name]) ns → DirChain v p (name :: ns)

theorem DirChain.snoc (h : DirChain v p ns) (hl : v.lookup (p ++ ns ++ [name]) = some .dir) :
    DirChain v p (ns ++ [name]) := by
  induction h with
  | nil p =>
    rw [List.append_nil] at hl
    exact .cons hl (.nil _)
  | @cons p m ns hl' _ ih =>
    exact .cons hl' (ih (by rwa [List.append_assoc p [m], List.singleton_append]))

/-- The start of a chain is a chain. -/
theorem DirChain.of_append (h : DirChain v p (ns ++ qs)) : DirChain v p ns := by
  induction ns generalizing p with
  | nil => exact .nil p
  | cons m ns ih =>
    rw [List.cons_append] at h
    cases h with
    | cons hl hc => exact .cons hl (ih hc)

/-- The last directory of a chain is a directory of the volume. -/
theorem DirChain.lookup_last {ms : List String} {m : String} :
    ∀ {p : Place}, DirChain v p (ms ++ [m]) → v.lookup (p ++ ms ++ [m]) = some .dir := by
  induction ms with
  | nil =>
    intro p h
    cases h with
    | cons hl _ => rw [List.append_nil]; exact hl
  | cons a ms ih =>
    intro p h
    cases h with
    | cons _ hc =>
      have hl := ih hc
      rwa [List.append_assoc p [a] ms, List.singleton_append] at hl

/-- **A chain is no longer than the volume has places**: the places along it
are distinct places the volume lists. -/
theorem DirChain.length_le (hv : v.WellFormed) (hc : DirChain v p ns) : ns.length ≤ v.nodes.length := by
  -- the place after `j + 1` steps, for each step of the chain
  have hsub : ((List.range ns.length).map fun j => p ++ ns.take (j + 1)) ⊆ v.nodes.map Prod.fst := by
    intro q hq
    obtain ⟨j, hj, rfl⟩ := List.mem_map.1 hq
    have hlt := List.mem_range.1 hj
    have htake : ns.take (j + 1) = ns.take j ++ [ns[j]] := by
      rw [List.take_add_one, List.getElem?_eq_getElem hlt]
      rfl
    have hcj : DirChain v p (ns.take j ++ [ns[j]]) := by
      rw [← htake]
      have hc' : DirChain v p (ns.take (j + 1) ++ ns.drop (j + 1)) := by
        rw [List.take_append_drop]
        exact hc
      exact hc'.of_append
    have hl := hcj.lookup_last
    rw [List.append_assoc, ← htake] at hl
    have hne : p ++ ns.take (j + 1) ≠ [] := by
      rw [htake]
      exact List.append_ne_nil_of_right_ne_nil _ (List.append_ne_nil_of_right_ne_nil _ (List.cons_ne_nil _ _))
    exact List.mem_map.2 ⟨_, (hv.lookup_eq_some_iff hne).1 hl, rfl⟩
  have hnd : ((List.range ns.length).map fun j => p ++ ns.take (j + 1)).Nodup := by
    refine List.nodup_range.map_on fun i hi j hj he => ?_
    have hlen := congrArg List.length he
    have hi' := List.mem_range.1 hi
    have hj' := List.mem_range.1 hj
    simp only [List.length_append, List.length_take] at hlen
    omega
  have hle := hnd.length_le_of_subset hsub
  rwa [List.length_map, List.length_range, List.length_map] at hle

/-- **Reading down a chain of directories** reaches its end, following no
link. -/
theorem WellFormed.walk_chain (hv : v.WellFormed) (h : DirChain v here ns) :
    v.walk f k here ns = .ok (.node (here ++ ns) .dir, k) := by
  induction h with
  | nil p =>
    rw [List.append_nil, walk.eq_1]
  | cons hl _ ih =>
    rw [walk_dir (hv.validName hl) hl, ih, List.append_assoc, List.singleton_append]

end Volume

end ReadingOrder
