import ReadingOrder.Tree.Basic
/-!
# The shape of the trees `insert` builds

A tree starts as its root alone, and `insert` is the only way it grows. One
insert does one of three things (`insert_cases`): it finds the path already
in the tree and gives its node back, changing nothing, whatever the parent
asked for; it finds no node at the position asked for as parent and changes
nothing; or it appends one node at the end of the arena and lists it last
among its parent's children. Everything below is read off that.

The shape every tree reachable from `new` has (`Shaped`) is what the rest
of the library leans on. Every node other than the root hangs below an
*earlier* node, one level deeper, so that following parents always ends at
the root; every node is listed exactly once, among the children of its
parent, and the root nowhere; and no two nodes have paths with the same
components, so that looking a path up (`find`) names exactly the node whose
path it is. The root keeps the normalised path the tree was made with.
-/

namespace ReadingOrder

namespace Path

/-- Two paths are the same exactly when their components are. -/
theorem same_iff {a b : String} : same a b = true ↔ components a = components b := by
  unfold same
  exact beq_iff_eq

theorem same_refl (a : String) : same a a = true :=
  same_iff.2 rfl

theorem same_comm {a b : String} (h : same a b = true) : same b a = true :=
  same_iff.2 (same_iff.1 h).symm

theorem same_trans {a b c : String} (h₁ : same a b = true) (h₂ : same b c = true) :
    same a c = true :=
  same_iff.2 ((same_iff.1 h₁).trans (same_iff.1 h₂))

end Path

namespace DirTree

variable {t : DirTree} {parent i j q : Nat} {p x root : String} {pn n m : DirNode}

/-! ## Reading a tree -/

theorem get?_eq_none_iff : t.get? i = none ↔ t.size ≤ i := by
  unfold get? size
  exact Array.getElem?_eq_none_iff

theorem lt_size_of_get? (h : t.get? i = some n) : i < t.size := by
  unfold get? at h
  unfold size
  exact (Array.getElem?_eq_some_iff.1 h).1

theorem parent_of_get? (h : t.get? i = some n) : t.parent i = n.parent := by
  unfold parent
  rw [h]
  rfl

theorem children_of_get? (h : t.get? i = some n) : t.children i = n.children := by
  unfold children
  rw [h]
  rfl

theorem parent_of_get?_none (h : t.get? i = none) : t.parent i = none := by
  unfold parent
  rw [h]
  rfl

theorem get?_new (i : Nat) :
    (new root).get? i =
      if i = 0 then some ⟨Path.normalize root, Path.tag (Path.normalize root), none, [], 0⟩
      else none := by
  unfold new get?
  split
  · subst i
    rfl
  · simp only [List.getElem?_toArray, List.getElem?_singleton]
    simp [*]

@[simp] theorem size_new (root : String) : (new root).size = 1 := rfl

/-! ## What one insert does -/

/-- The node an insert appends for the path `p` below the node `pn` at
`parent`. -/
def leaf (parent : Nat) (pn : DirNode) (p : String) : DirNode :=
  ⟨Path.normalize p, Path.tag (Path.normalize p), some parent, [], pn.depth + 1⟩

/-- The tree an insert leaves when it appends. -/
def appendLeaf (t : DirTree) (parent : Nat) (pn : DirNode) (p : String) : DirTree :=
  ⟨(t.nodes.modify parent fun n => { n with children := n.children ++ [t.size] }).push
    (leaf parent pn p)⟩

theorem insert_of_find (h : t.find (Path.normalize p) = some j) :
    t.insert parent p = (t, some j) := by
  unfold insert
  dsimp only
  rw [h]

theorem insert_of_get?_none (hf : t.find (Path.normalize p) = none) (hp : t.get? parent = none) :
    t.insert parent p = (t, none) := by
  unfold insert
  dsimp only
  rw [hf, hp]

theorem insert_of_get?_some (hf : t.find (Path.normalize p) = none)
    (hp : t.get? parent = some pn) :
    t.insert parent p = (t.appendLeaf parent pn p, some t.size) := by
  unfold insert
  dsimp only
  rw [hf, hp]
  rfl

/-- **One insert does one of three things**: it gives back the node already
holding the path, or refuses a parent with no node, both changing nothing,
or it appends a leaf below the parent. -/
theorem insert_cases (t : DirTree) (parent : Nat) (p : String) :
    (∃ j, t.find (Path.normalize p) = some j ∧ t.insert parent p = (t, some j)) ∨
    (t.find (Path.normalize p) = none ∧ t.get? parent = none ∧ t.insert parent p = (t, none)) ∨
    (∃ pn, t.find (Path.normalize p) = none ∧ t.get? parent = some pn ∧
      t.insert parent p = (t.appendLeaf parent pn p, some t.size)) := by
  cases hf : t.find (Path.normalize p) with
  | some j => exact Or.inl ⟨j, rfl, insert_of_find hf⟩
  | none =>
    cases hp : t.get? parent with
    | none => exact Or.inr (Or.inl ⟨rfl, rfl, insert_of_get?_none hf hp⟩)
    | some pn => exact Or.inr (Or.inr ⟨pn, rfl, rfl, insert_of_get?_some hf hp⟩)

@[simp] theorem size_appendLeaf : (t.appendLeaf parent pn p).size = t.size + 1 := by
  unfold appendLeaf size
  rw [Array.size_push, Array.size_modify]

theorem get?_appendLeaf (hp : t.get? parent = some pn) (i : Nat) :
    (t.appendLeaf parent pn p).get? i =
      if i = t.size then some (leaf parent pn p)
      else if i = parent then some { pn with children := pn.children ++ [t.size] }
      else t.get? i := by
  unfold appendLeaf get?
  rw [Array.getElem?_push, Array.size_modify, Array.getElem?_modify,
    show t.nodes.size = t.size from rfl]
  unfold get? at hp
  by_cases hs : i = t.size
  · rw [if_pos hs, if_pos hs]
  · rw [if_neg hs, if_neg hs]
    by_cases hi : i = parent
    · subst i
      rw [if_pos rfl, if_pos rfl, hp]
      rfl
    · rw [if_neg (Ne.symm hi), if_neg hi]

theorem get?_appendLeaf_size (hp : t.get? parent = some pn) :
    (t.appendLeaf parent pn p).get? t.size = some (leaf parent pn p) := by
  rw [get?_appendLeaf hp, if_pos rfl]

theorem get?_appendLeaf_parent (hp : t.get? parent = some pn) :
    (t.appendLeaf parent pn p).get? parent = some { pn with children := pn.children ++ [t.size] } := by
  have hlt : parent ≠ t.size := Nat.ne_of_lt (lt_size_of_get? hp)
  rw [get?_appendLeaf hp, if_neg hlt, if_pos rfl]

theorem get?_appendLeaf_of_ne (hp : t.get? parent = some pn) (hi : i ≠ parent) (hs : i ≠ t.size) :
    (t.appendLeaf parent pn p).get? i = t.get? i := by
  rw [get?_appendLeaf hp, if_neg hs, if_neg hi]

/-- An append changes no node's path, tag, parent or depth. -/
theorem get?_appendLeaf_of_lt (hp : t.get? parent = some pn) (h : t.get? i = some n) :
    ∃ n', (t.appendLeaf parent pn p).get? i = some n' ∧ n'.identifier = n.identifier ∧
      n'.tag = n.tag ∧ n'.parent = n.parent ∧ n'.depth = n.depth := by
  have hs : i ≠ t.size := Nat.ne_of_lt (lt_size_of_get? h)
  by_cases hi : i = parent
  · subst i
    rw [hp] at h
    cases h
    exact ⟨_, get?_appendLeaf_parent hp, rfl, rfl, rfl, rfl⟩
  · exact ⟨n, by rw [get?_appendLeaf_of_ne hp hi hs, h], rfl, rfl, rfl, rfl⟩

/-- **A node after an append** is the new leaf, or a node from before with
its path, parent and depth. -/
theorem get?_appendLeaf_eq_some (hp : t.get? parent = some pn)
    (h : (t.appendLeaf parent pn p).get? j = some m) :
    (j = t.size ∧ m = leaf parent pn p) ∨
      ∃ m₀, t.get? j = some m₀ ∧ m.identifier = m₀.identifier ∧ m.parent = m₀.parent ∧
        m.depth = m₀.depth := by
  rw [get?_appendLeaf hp] at h
  split at h
  · exact Or.inl ⟨‹_›, (Option.some.inj h).symm⟩
  · split at h
    · cases h
      exact Or.inr ⟨pn, by rw [‹j = parent›]; exact hp, rfl, rfl, rfl⟩
    · exact Or.inr ⟨m, h, rfl, rfl, rfl⟩

/-- A node after an append is the new leaf, or has the path of a node before. -/
theorem identifier_appendLeaf (hp : t.get? parent = some pn)
    (h : (t.appendLeaf parent pn p).get? j = some m) :
    (j = t.size ∧ m.identifier = Path.normalize p) ∨
      ∃ m₀, t.get? j = some m₀ ∧ m.identifier = m₀.identifier := by
  rcases get?_appendLeaf_eq_some hp h with ⟨hj, rfl⟩ | ⟨m₀, hm₀, hid, -⟩
  · exact Or.inl ⟨hj, rfl⟩
  · exact Or.inr ⟨m₀, hm₀, hid⟩

/-- **A node after an insert** is named by the normal form of the inserted
path, or has the path of a node before. -/
theorem identifier_insert (h : (t.insert parent p).1.get? j = some m) :
    m.identifier = Path.normalize p ∨ ∃ j' n, t.get? j' = some n ∧ m.identifier = n.identifier := by
  rcases insert_cases t parent p with ⟨j', -, he⟩ | ⟨-, -, he⟩ | ⟨pn, -, hp, he⟩
  · rw [he] at h
    exact Or.inr ⟨j, m, h, rfl⟩
  · rw [he] at h
    exact Or.inr ⟨j, m, h, rfl⟩
  · rw [he] at h
    rcases identifier_appendLeaf hp h with ⟨-, hid⟩ | ⟨m₀, hm₀, hid⟩
    · exact Or.inl hid
    · exact Or.inr ⟨j, m₀, hm₀, hid⟩

theorem parent_appendLeaf (hp : t.get? parent = some pn) (i : Nat) :
    (t.appendLeaf parent pn p).parent i = if i = t.size then some parent else t.parent i := by
  unfold DirTree.parent
  rw [get?_appendLeaf hp]
  by_cases hs : i = t.size
  · rw [if_pos hs, if_pos hs]
    rfl
  · rw [if_neg hs, if_neg hs]
    by_cases hi : i = parent
    · subst i
      rw [if_pos rfl, hp]
      rfl
    · rw [if_neg hi]

theorem children_appendLeaf (hp : t.get? parent = some pn) (j : Nat) :
    (t.appendLeaf parent pn p).children j =
      if j = parent then t.children j ++ [t.size] else t.children j := by
  unfold DirTree.children
  rw [get?_appendLeaf hp]
  by_cases hs : j = t.size
  · have hj : j ≠ parent := fun h => Nat.ne_of_lt (lt_size_of_get? hp) (h.symm.trans hs)
    have hn : t.get? j = none := get?_eq_none_iff.2 (Nat.le_of_eq hs.symm)
    rw [if_pos hs, if_neg hj, hn]
    rfl
  · rw [if_neg hs]
    by_cases hj : j = parent
    · subst j
      rw [if_pos rfl, if_pos rfl, hp]
      rfl
    · rw [if_neg hj, if_neg hj]

/-! ## Looking paths up -/

theorem find_spec (h : t.find x = some i) :
    ∃ n, t.get? i = some n ∧ Path.same n.identifier x = true := by
  unfold find at h
  obtain ⟨hi, hs, -⟩ := Array.findIdx?_eq_some_iff_getElem.1 h
  exact ⟨t.nodes[i], Array.getElem?_eq_getElem hi, hs⟩

theorem find_eq_none_iff :
    t.find x = none ↔ ∀ i n, t.get? i = some n → Path.same n.identifier x = false := by
  unfold find
  rw [Array.findIdx?_eq_none_iff]
  constructor
  · intro h i n hn
    exact h n (Array.mem_of_getElem? hn)
  · intro h n hn
    obtain ⟨i, hi, rfl⟩ := Array.getElem_of_mem hn
    exact h i _ (Array.getElem?_eq_getElem hi)

/-! ## The shape -/

/-- **The shape of a tree built by inserts.** -/
structure Shaped (t : DirTree) : Prop where
  /-- The root is a node with no parent, at depth `0`. -/
  root : ∃ n, t.get? 0 = some n ∧ n.parent = none ∧ n.depth = 0
  /-- Every other node hangs below an earlier node, one level deeper. -/
  below : ∀ i n, t.get? i = some n → i ≠ 0 →
    ∃ q m, n.parent = some q ∧ q < i ∧ t.get? q = some m ∧ n.depth = m.depth + 1
  /-- A node is shown by the last name of its path. -/
  tag : ∀ i n, t.get? i = some n → n.tag = Path.tag n.identifier
  /-- A node is listed once among the children of its parent, and nowhere
  else; the root and positions without a node are listed nowhere. -/
  count_children : ∀ i j, (t.children j).count i = if t.parent i = some j then 1 else 0
  /-- No two nodes have paths with the same components. -/
  unique : ∀ i j n m, t.get? i = some n → t.get? j = some m →
    Path.same n.identifier m.identifier = true → i = j

namespace Shaped

theorem new (root : String) : (new root).Shaped where
  root := ⟨_, get?_new 0, rfl, rfl⟩
  below i n h hi := by
    rw [get?_new, if_neg hi] at h
    cases h
  tag i n h := by
    rw [get?_new] at h
    split at h
    · cases h
      rfl
    · cases h
  count_children i j := by
    have hc : (DirTree.new root).children j = [] := by
      unfold DirTree.children
      rw [get?_new]
      split <;> rfl
    have hp : (DirTree.new root).parent i = none := by
      unfold DirTree.parent
      rw [get?_new]
      split <;> rfl
    rw [hc, hp]
    rfl
  unique i j n m hi hj _ := by
    rw [get?_new] at hi hj
    split at hi
    · split at hj
      · omega
      · cases hj
    · cases hi

theorem size_pos (h : t.Shaped) : 0 < t.size := by
  obtain ⟨n, hn, -⟩ := h.root
  exact lt_size_of_get? hn

/-- **Looking a path up names the node whose path it is**, and no other. -/
theorem find_eq_some_iff (h : t.Shaped) :
    t.find x = some i ↔ ∃ n, t.get? i = some n ∧ Path.same n.identifier x = true := by
  constructor
  · exact find_spec
  · rintro ⟨n, hn, hs⟩
    cases hf : t.find x with
    | none =>
      rw [find_eq_none_iff] at hf
      rw [hf i n hn] at hs
      cases hs
    | some i' =>
      obtain ⟨n', hn', hs'⟩ := find_spec hf
      rw [h.unique i' i n' n hn' hn (Path.same_trans hs' (Path.same_comm hs))]

/-- An append keeps the shape, when the path is new and the parent a node. -/
theorem appendLeaf (h : t.Shaped) (hf : t.find (Path.normalize p) = none)
    (hp : t.get? parent = some pn) : (t.appendLeaf parent pn p).Shaped where
  root := by
    obtain ⟨n, hn, hnp, hnd⟩ := h.root
    obtain ⟨n', hn', -, -, hp', hd'⟩ := get?_appendLeaf_of_lt (p := p) hp hn
    exact ⟨n', hn', hp'.trans hnp, hd'.trans hnd⟩
  below i n' hi h0 := by
    rcases get?_appendLeaf_eq_some hp hi with ⟨rfl, rfl⟩ | ⟨n, hn, -, hnp, hnd⟩
    · -- the new leaf hangs below `parent`, an earlier node
      obtain ⟨m', hm', -, -, -, hd'⟩ := get?_appendLeaf_of_lt (p := p) hp hp
      exact ⟨parent, m', rfl, lt_size_of_get? hp, hm', by rw [hd']; rfl⟩
    · obtain ⟨q, m, hq, hqi, hm, hd⟩ := h.below i n hn h0
      obtain ⟨m', hm', -, -, -, hd'⟩ := get?_appendLeaf_of_lt (p := p) hp hm
      exact ⟨q, m', hnp.trans hq, hqi, hm', by rw [hnd, hd, hd']⟩
  tag i n' hi := by
    rw [get?_appendLeaf hp] at hi
    split at hi
    · cases hi
      rfl
    · split at hi
      · cases hi
        exact h.tag parent pn hp
      · exact h.tag i n' hi
  count_children i j := by
    rw [children_appendLeaf hp, parent_appendLeaf hp]
    have hnone : t.parent t.size = none := parent_of_get?_none (get?_eq_none_iff.2 (Nat.le_refl _))
    by_cases hj : j = parent
    · rw [if_pos hj, List.count_append, h.count_children, List.count_singleton]
      by_cases hi : i = t.size
      · subst i
        rw [hnone, if_pos rfl, hj]
        simp
      · rw [if_neg hi]
        simp [Ne.symm hi]
    · rw [if_neg hj, h.count_children]
      by_cases hi : i = t.size
      · subst i
        rw [hnone, if_pos rfl]
        simp [Ne.symm hj]
      · rw [if_neg hi]
  unique i j n' m' hi hj hs := by
    rw [find_eq_none_iff] at hf
    -- an old node keeps its path, and the new one has a path no old node has
    rcases get?_appendLeaf_eq_some hp hi with ⟨rfl, rfl⟩ | ⟨n, hn, hni, -⟩ <;>
      rcases get?_appendLeaf_eq_some hp hj with ⟨rfl, rfl⟩ | ⟨m, hm, hmi, -⟩
    · rfl
    · rw [hmi] at hs
      exact absurd ((hf j m hm).symm.trans (Path.same_comm hs)) Bool.false_ne_true
    · rw [hni] at hs
      exact absurd ((hf i n hn).symm.trans hs) Bool.false_ne_true
    · rw [hni, hmi] at hs
      exact h.unique i j n m hn hm hs

/-- **An insert keeps the shape.** -/
theorem insert (h : t.Shaped) (parent : Nat) (p : String) : (t.insert parent p).1.Shaped := by
  rcases insert_cases t parent p with ⟨j, -, he⟩ | ⟨-, -, he⟩ | ⟨pn, hf, hp, he⟩
  · rw [he]
    exact h
  · rw [he]
    exact h
  · rw [he]
    exact h.appendLeaf hf hp

/-- A path that some node has is not added again: its node comes back and the
tree stays as it is, whatever the parent. -/
theorem insert_of_same (h : t.Shaped) (hj : t.get? j = some n)
    (hs : Path.same n.identifier (Path.normalize p) = true) : t.insert parent p = (t, some j) :=
  insert_of_find (h.find_eq_some_iff.2 ⟨n, hj, hs⟩)

end Shaped

/-- A new path below a position with no node adds nothing. -/
theorem insert_of_fresh_of_le
    (hfresh : ∀ j n, t.get? j = some n → Path.same n.identifier (Path.normalize p) = false)
    (hle : t.size ≤ parent) : t.insert parent p = (t, none) :=
  insert_of_get?_none (find_eq_none_iff.2 hfresh) (get?_eq_none_iff.2 hle)

/-! ## Trees reachable by inserts -/

/-- **The trees a run of inserts builds** from the tree of a root alone, with
any parents and any paths. -/
inductive Reachable (root : String) : DirTree → Prop
  | new : Reachable root (new root)
  | insert {t : DirTree} (parent : Nat) (p : String) :
      Reachable root t → Reachable root (t.insert parent p).1

theorem Reachable.shaped (h : t.Reachable root) : t.Shaped := by
  induction h with
  | new => exact Shaped.new root
  | insert parent p _ ih => exact ih.insert parent p

/-- An insert keeps the root's path. -/
theorem identifier_zero_insert (h : t.get? 0 = some n) (parent : Nat) (p : String) :
    ∃ n', (t.insert parent p).1.get? 0 = some n' ∧ n'.identifier = n.identifier := by
  rcases insert_cases t parent p with ⟨j, -, he⟩ | ⟨-, -, he⟩ | ⟨pn, -, hp, he⟩
  · rw [he]
    exact ⟨n, h, rfl⟩
  · rw [he]
    exact ⟨n, h, rfl⟩
  · rw [he]
    obtain ⟨n', hn', hid, -⟩ := get?_appendLeaf_of_lt (p := p) hp h
    exact ⟨n', hn', hid⟩

theorem Reachable.root_identifier (h : t.Reachable root) :
    ∃ n, t.get? 0 = some n ∧ n.identifier = Path.normalize root := by
  induction h with
  | new => exact ⟨_, get?_new 0, rfl⟩
  | insert parent p _ ih =>
    obtain ⟨n, hn, hid⟩ := ih
    obtain ⟨n', hn', hid'⟩ := identifier_zero_insert hn parent p
    exact ⟨n', hn', hid'.trans hid⟩

theorem Reachable.rootPath (h : t.Reachable root) : t.rootPath = Path.normalize root := by
  obtain ⟨n, hn, hid⟩ := h.root_identifier
  unfold DirTree.rootPath
  rw [hn]
  exact hid

/-- **What inserting `p` below `parent` does**: a path some node already has
gives that node back and leaves the tree as it is, whatever the parent; a new
path below a position with no node adds nothing; and a new path below a node
appends exactly one node, the new last child of the parent, and touches no
other node. -/
def InsertSpec (t : DirTree) (parent : Nat) (p : String) : Prop :=
  (∀ j n, t.get? j = some n → Path.same n.identifier (Path.normalize p) = true →
    t.insert parent p = (t, some j)) ∧
  ((∀ j n, t.get? j = some n → Path.same n.identifier (Path.normalize p) = false) →
    t.size ≤ parent → t.insert parent p = (t, none)) ∧
  (∀ pn, (∀ j n, t.get? j = some n → Path.same n.identifier (Path.normalize p) = false) →
    t.get? parent = some pn →
    ∃ t', t.insert parent p = (t', some t.size) ∧ t'.size = t.size + 1 ∧
      t'.get? t.size =
        some ⟨Path.normalize p, Path.tag (Path.normalize p), some parent, [], pn.depth + 1⟩ ∧
      t'.get? parent = some { pn with children := pn.children ++ [t.size] } ∧
      ∀ i, i ≠ parent → i < t.size → t'.get? i = t.get? i)

theorem Shaped.insertSpec (h : t.Shaped) (parent : Nat) (p : String) : t.InsertSpec parent p := by
  refine ⟨fun j n hj hs => h.insert_of_same hj hs, insert_of_fresh_of_le, ?_⟩
  intro pn hfresh hp
  refine ⟨t.appendLeaf parent pn p, insert_of_get?_some (find_eq_none_iff.2 hfresh) hp,
    size_appendLeaf, get?_appendLeaf_size hp, get?_appendLeaf_parent hp, ?_⟩
  intro i hi hlt
  exact get?_appendLeaf_of_ne hp hi (Nat.ne_of_lt hlt)

/-- **Every tree a run of inserts builds is well formed.** The root keeps
the normalised path the tree was made with; the tree has the shape of
`Shaped`; looking a path up finds exactly the node whose path has the same
components; and every further insert does what `InsertSpec` says. -/
theorem reachable_tree_shape (h : t.Reachable root) :
    (∃ n, t.get? 0 = some n ∧ n.identifier = Path.normalize root) ∧ t.Shaped ∧
    (∀ x i, t.find x = some i ↔ ∃ n, t.get? i = some n ∧ Path.same n.identifier x = true) ∧
    (∀ x, t.contains x = (t.find x).isSome) ∧
    ∀ parent p, t.InsertSpec parent p :=
  ⟨h.root_identifier, h.shaped, fun _ _ => h.shaped.find_eq_some_iff, fun _ => rfl,
    h.shaped.insertSpec⟩

/-- The tree of `/robot` after `src` was inserted twice, once as
`/robot/./src`, is one the theorem covers. -/
theorem robot_tree_shape :
    (((new "/robot").insert 0 "/robot/src").1.insert 0 "/robot/./src").1.Reachable "/robot" ∧
    ((∃ n, (((new "/robot").insert 0 "/robot/src").1.insert 0 "/robot/./src").1.get? 0 = some n ∧
        n.identifier = Path.normalize "/robot") ∧
      (((new "/robot").insert 0 "/robot/src").1.insert 0 "/robot/./src").1.Shaped ∧
      (∀ x i, (((new "/robot").insert 0 "/robot/src").1.insert 0 "/robot/./src").1.find x = some i ↔
        ∃ n, (((new "/robot").insert 0 "/robot/src").1.insert 0 "/robot/./src").1.get? i = some n ∧
          Path.same n.identifier x = true) ∧
      (∀ x, (((new "/robot").insert 0 "/robot/src").1.insert 0 "/robot/./src").1.contains x =
        ((((new "/robot").insert 0 "/robot/src").1.insert 0 "/robot/./src").1.find x).isSome) ∧
      ∀ parent p,
        (((new "/robot").insert 0 "/robot/src").1.insert 0 "/robot/./src").1.InsertSpec parent p) :=
  have h : (((new "/robot").insert 0 "/robot/src").1.insert 0 "/robot/./src").1.Reachable "/robot" :=
    .insert 0 "/robot/./src" (.insert 0 "/robot/src" .new)
  ⟨h, reachable_tree_shape h⟩

end DirTree

end ReadingOrder
