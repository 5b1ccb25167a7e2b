import ReadingOrder.Tree.Reorder
import ReadingOrder.Proofs.Tree.Subtree
import ReadingOrder.Proofs.Path.Clean
import ReadingOrder.Proofs.Precedence
import Mathlib.Data.Fintype.Card
/-!
# Reordering permutes siblings

`reorder` copies a tree into a fresh one, a whole level at a time: at each
node it adds copies of all the node's children, in precedence order, and
only then descends into each child. The copy hands out positions in a
different order from the input, so the two trees are matched by path: node
`j` of the copy *mirrors* node `i` of the input when they have the same path
and depth (`Mirrors`).

The invariant of the copy (`Copy`) says that the copy is a tree `insert`
can build, that each of its nodes mirrors an input node whose parent is
mirrored by its parent, and that each mirrored node is either *pending* —
no children yet, and none of its children copied elsewhere — or *settled*,
its children read by path being the precedence order of the input node's
children.

One level (`placeLevel`) appends a fresh copy of every child, because none
of them is in the copy yet and all the paths of a level are different; that
makes the node settled and its children pending. The descent
(`copyOrdered_spec`) settles a whole subtree, by induction on the fuel, and
touches nothing outside it: the subtrees of two siblings are disjoint, so
descending into one leaves the next one pending. Starting from the root
alone, every node ends up copied and settled, and matching nodes by path is
then a bijection.
-/

namespace ReadingOrder

namespace DirTree

/-! ## Placing one level -/

/-- One step of `placeLevel`: the input node with the path `p` gets a copy,
appended below `outId`. -/
def placeStep (input : DirTree) (outId : Nat) (acc : DirTree × List (Nat × Nat)) (p : String) :
    DirTree × List (Nat × Nat) :=
  match input.find p with
  | none => acc
  | some inId =>
    match acc.1.insert outId p with
    | (out', some outNode) => (out', acc.2 ++ [(inId, outNode)])
    | (out', none) => (out', acc.2)

theorem placeLevel_eq_foldl (input : DirTree) (outId : Nat) (out : DirTree) (paths : List String) :
    placeLevel input outId out paths = paths.foldl (placeStep input outId) (out, []) :=
  rfl

theorem copyOrdered_succ {input : DirTree} {rules : List Rule} {fuel inId outId : Nat}
    {out : DirTree} {node : DirNode} (h : input.get? inId = some node) :
    copyOrdered input rules (fuel + 1) inId out outId =
      (placeLevel input outId out (pinFront (input.childPaths inId) rules (node.depth + 1))).2.foldl
        (fun o x => copyOrdered input rules fuel x.1 o x.2)
        (placeLevel input outId out (pinFront (input.childPaths inId) rules (node.depth + 1))).1 := by
  rw [copyOrdered, h]
  rfl

/-- **What placing a level did to a tree**: the node at `outId`, which was
`on`, has the new positions appended to its children, the paths `ps` have
new leaves below it at the end of the arena, in order, and nothing else
changed. -/
structure Placed (o o' : DirTree) (outId : Nat) (on : DirNode) (ps : List String) : Prop where
  size : o'.size = o.size + ps.length
  parent : o'.get? outId = some { on with children := on.children ++ List.range' o.size ps.length }
  old : ∀ j, j ≠ outId → j < o.size → o'.get? j = o.get? j
  new : ∀ k (hk : k < ps.length),
    o'.get? (o.size + k) = some ⟨ps[k], Path.tag ps[k], some outId, [], on.depth + 1⟩

variable {T o o₁ o₂ : DirTree} {outId : Nat} {on : DirNode} {p : String} {ps ps₁ ps₂ : List String}

theorem Placed.nil (hon : o.get? outId = some on) : Placed o o outId on [] where
  size := rfl
  parent := by
    rw [hon, List.length_nil, List.range'_zero, List.append_nil]
  old _ _ _ := rfl
  new k hk := absurd hk (Nat.not_lt_zero k)

theorem Placed.single (hon : o.get? outId = some on) (hnorm : Path.normalize p = p) :
    Placed o (o.appendLeaf outId on p) outId on [p] where
  size := size_appendLeaf
  parent := get?_appendLeaf_parent hon
  old j hj hlt := get?_appendLeaf_of_ne hon hj (Nat.ne_of_lt hlt)
  new k hk := by
    have hk0 : k = 0 := by
      rw [List.length_singleton] at hk
      omega
    subst hk0
    rw [Nat.add_zero, get?_appendLeaf_size hon]
    unfold leaf
    rw [hnorm]
    rfl

/-- Placing two runs of paths one after the other places them all. -/
theorem Placed.append (h₁ : Placed o o₁ outId on ps₁)
    (h₂ : Placed o₁ o₂ outId { on with children := on.children ++ List.range' o.size ps₁.length } ps₂)
    (hout : outId < o.size) : Placed o o₂ outId on (ps₁ ++ ps₂) where
  size := by
    rw [h₂.size, h₁.size, List.length_append, Nat.add_assoc]
  parent := by
    rw [h₂.parent, h₁.size, List.append_assoc, List.range'_append_1, List.length_append]
  old j hj hlt := by
    rw [h₂.old j hj (by rw [h₁.size]; omega), h₁.old j hj hlt]
  new k hk := by
    rw [List.length_append] at hk
    by_cases hk₁ : k < ps₁.length
    · rw [h₂.old (o.size + k) (by omega) (by rw [h₁.size]; omega), h₁.new k hk₁,
        List.getElem_append_left hk₁]
    · have hk₂ : k - ps₁.length < ps₂.length := by omega
      have hpos : o.size + k = o₁.size + (k - ps₁.length) := by
        rw [h₁.size]
        omega
      rw [hpos, h₂.new _ hk₂, List.getElem_append_right (by omega)]

/-- A path of the input that the copy does not have yet becomes a new leaf
below `outId`, and the pair of positions is recorded. -/
theorem placeStep_fresh {pl : List (Nat × Nat)} {c : Nat} (hfind : T.find p = some c)
    (hfresh : o.find p = none) (hon : o.get? outId = some on) (hnorm : Path.normalize p = p) :
    placeStep T outId (o, pl) p = (o.appendLeaf outId on p, pl ++ [(c, o.size)]) := by
  unfold placeStep
  rw [hfind]
  dsimp only
  rw [insert_of_get?_some (p := p) (by rw [hnorm]; exact hfresh) hon]

/-- **Placing a level of fresh, distinct paths** appends a leaf for each,
in order, and records each input node with the position of its copy. -/
theorem foldl_placeStep (hon : o.get? outId = some on)
    (hfind : ∀ p ∈ ps, ∃ c, T.find p = some c) (hnorm : ∀ p ∈ ps, Path.normalize p = p)
    (hfresh : ∀ p ∈ ps, ∀ j m, o.get? j = some m → Path.same m.identifier p = false)
    (hpw : ps.Pairwise fun a b => Path.same a b = false) (pl : List (Nat × Nat)) :
    ∃ o', ps.foldl (placeStep T outId) (o, pl) =
        (o', pl ++ (ps.zipIdx o.size).map fun x => ((T.find x.1).getD 0, x.2)) ∧
      Placed o o' outId on ps ∧ ∀ r, o.Reachable r → o'.Reachable r := by
  induction ps generalizing o on pl with
  | nil => exact ⟨o, by rw [List.foldl_nil, List.zipIdx_nil, List.map_nil, List.append_nil],
      Placed.nil hon, fun _ h => h⟩
  | cons p ps ih =>
    obtain ⟨c, hc⟩ := hfind p List.mem_cons_self
    have hp : Path.normalize p = p := hnorm p List.mem_cons_self
    have hf : o.find p = none :=
      find_eq_none_iff.2 fun j m hm => hfresh p List.mem_cons_self j m hm
    have hon₁ := get?_appendLeaf_parent (p := p) hon
    -- the rest of the level is still fresh once `p` has its leaf
    have hfresh₁ : ∀ q ∈ ps, ∀ j m, (o.appendLeaf outId on p).get? j = some m →
        Path.same m.identifier q = false := by
      intro q hq j m hm
      rcases identifier_appendLeaf hon hm with ⟨-, hid⟩ | ⟨m₀, hm₀, hid⟩
      · rw [hid, hp]
        exact List.rel_of_pairwise_cons hpw hq
      · rw [hid]
        exact hfresh q (List.mem_cons_of_mem _ hq) j m₀ hm₀
    obtain ⟨o', heq, hplaced, hreach⟩ := ih hon₁
      (fun q hq => hfind q (List.mem_cons_of_mem _ hq))
      (fun q hq => hnorm q (List.mem_cons_of_mem _ hq)) hfresh₁ (List.Pairwise.of_cons hpw)
      (pl ++ [(c, o.size)])
    refine ⟨o', ?_, ?_, ?_⟩
    · rw [List.foldl_cons, placeStep_fresh hc hf hon hp, heq, size_appendLeaf, List.zipIdx_cons,
        List.map_cons, hc, List.append_assoc]
      rfl
    · exact (Placed.single hon hp).append hplaced (lt_size_of_get? hon)
    · intro r hr
      have hins : (o.insert outId p).1 = o.appendLeaf outId on p := by
        rw [insert_of_get?_some (by rw [hp]; exact hf) hon]
      exact hreach r (hins ▸ Reachable.insert outId p hr)

/-! ## Copies of an input tree -/

section Copy

variable (T : DirTree) (rules : List Rule)

/-- **Node `j` of `o` mirrors node `i` of `T`**: they have the same path and
the same depth. -/
def Mirrors (o : DirTree) (i j : Nat) : Prop :=
  ∃ n m, T.get? i = some n ∧ o.get? j = some m ∧ m.identifier = n.identifier ∧ m.depth = n.depth

/-- The parents of `i` and of its copy `j` are both absent, or mirror each
other. -/
def ParentsMirror (o : DirTree) (i j : Nat) : Prop :=
  (T.parent i = none ∧ o.parent j = none) ∨
    ∃ q q', T.parent i = some q ∧ o.parent j = some q' ∧ Mirrors T o q q'

/-- A copy whose children are not placed yet: it has none, and no child of
the input node is copied anywhere. -/
def Pending (o : DirTree) (i j : Nat) : Prop :=
  o.children j = [] ∧ ∀ c ∈ T.children i, ∀ j', ¬ Mirrors T o c j'

/-- A copy whose children are placed: read by path, they are the input
node's children in precedence order. -/
def Settled (o : DirTree) (i j : Nat) : Prop :=
  ∀ n, T.get? i = some n → o.childPaths j = pinFront (T.childPaths i) rules (n.depth + 1)

/-- **A partial copy of `T` in rule order**: a tree `insert` can build from
the root of `T`, each node of which mirrors a node of `T`, parents mirroring
parents, and each copied node pending or settled. -/
structure Copy (o : DirTree) : Prop where
  reach : o.Reachable T.rootPath
  mirror : ∀ j m, o.get? j = some m → ∃ i, Mirrors T o i j ∧ ParentsMirror T o i j
  status : ∀ i j, Mirrors T o i j → Pending T o i j ∨ Settled T rules o i j

/-- **`o'` grows out of `o`**: every node of `o` keeps its path, tag, parent
and depth, and keeps its children too unless it mirrors a node of `S`. -/
def Grows (o o' : DirTree) (S : Nat → Prop) : Prop :=
  ∀ j m, o.get? j = some m → ∃ m', o'.get? j = some m' ∧ m'.identifier = m.identifier ∧
    m'.tag = m.tag ∧ m'.parent = m.parent ∧ m'.depth = m.depth ∧
    (m'.children = m.children ∨ ∃ i, Mirrors T o i j ∧ S i)

/-- **What copying a region `S` of `T` does**: the result is a copy, grown
out of the old one by changing the children of copies in `S` only, every
node of `S` is copied and settled, and nothing outside `S` is newly copied. -/
structure Descended (o o' : DirTree) (S : Nat → Prop) : Prop where
  copy : Copy T rules o'
  grows : Grows T o o' S
  settled : ∀ d, S d → ∃ j, Mirrors T o' d j ∧ Settled T rules o' d j
  fresh : ∀ d j, Mirrors T o' d j → Mirrors T o d j ∨ S d

/-- **What placing the level of `a` gives**: a copy, grown out of the old one
at the copy of `a` only, in which `a` is settled; what it newly copies is a
child of `a`, and the pairs it records are the children of `a`, each once and
each with its copy, which is pending. -/
structure Level (o o₁ : DirTree) (a j : Nat) (pl : List (Nat × Nat)) : Prop where
  copy : Copy T rules o₁
  grows : Grows T o o₁ (· = a)
  settled : Settled T rules o₁ a j
  fresh : ∀ d j', Mirrors T o₁ d j' → Mirrors T o d j' ∨ T.parent d = some a
  placed : ∀ x ∈ pl, T.parent x.1 = some a ∧ Mirrors T o₁ x.1 x.2 ∧ Pending T o₁ x.1 x.2
  distinct : pl.Pairwise fun x y => x.1 ≠ y.1
  complete : ∀ c, T.parent c = some a → ∃ x ∈ pl, x.1 = c

end Copy

variable {o' : DirTree} {rules : List Rule} {i i' j j' a c d : Nat} {S S₁ S₂ : Nat → Prop}
  {x : String} {n : DirNode}

theorem mirrors_left_unique (hT : T.Shaped) (h : Mirrors T o i j) (h' : Mirrors T o i' j) :
    i = i' := by
  obtain ⟨n, m, hn, hm, hid, -⟩ := h
  obtain ⟨n', m', hn', hm', hid', -⟩ := h'
  rw [hm] at hm'
  cases hm'
  refine hT.unique i i' n n' hn hn' ?_
  rw [← hid, hid']
  exact Path.same_refl _

theorem mirrors_right_unique (ho : o.Shaped) (h : Mirrors T o i j) (h' : Mirrors T o i j') :
    j = j' := by
  obtain ⟨n, m, hn, hm, hid, -⟩ := h
  obtain ⟨n', m', hn', hm', hid', -⟩ := h'
  rw [hn] at hn'
  cases hn'
  refine ho.unique j j' m m' hm hm' ?_
  rw [hid, hid']
  exact Path.same_refl _

theorem Grows.refl (o : DirTree) (S : Nat → Prop) : Grows T o o S :=
  fun _ m hm => ⟨m, hm, rfl, rfl, rfl, rfl, Or.inl rfl⟩

theorem Grows.mono (h : Grows T o o' S₁) (hS : ∀ i, S₁ i → S₂ i) : Grows T o o' S₂ := by
  intro j m hm
  obtain ⟨m', hm', h1, h2, h3, h4, h5⟩ := h j m hm
  refine ⟨m', hm', h1, h2, h3, h4, ?_⟩
  rcases h5 with h5 | ⟨i, hi, hS₁⟩
  · exact Or.inl h5
  · exact Or.inr ⟨i, hi, hS i hS₁⟩

theorem Grows.mirrors (h : Grows T o o' S) (hm : Mirrors T o i j) : Mirrors T o' i j := by
  obtain ⟨n, m, hn, hmj, hid, hd⟩ := hm
  obtain ⟨m', hm', hid', -, -, hd', -⟩ := h j m hmj
  exact ⟨n, m', hn, hm', hid'.trans hid, hd'.trans hd⟩

/-- A node of `o` that mirrors in `o'` already mirrored in `o`. -/
theorem Grows.mirrors_of_lt (h : Grows T o o' S) (hm : Mirrors T o' i j) (hj : j < o.size) :
    Mirrors T o i j := by
  obtain ⟨n, m', hn, hm', hid, hd⟩ := hm
  obtain ⟨m, hmj⟩ := exists_get?_of_lt hj
  obtain ⟨m'', hm'', hid', -, -, hd', -⟩ := h j m hmj
  rw [hm'] at hm''
  cases hm''
  exact ⟨n, m, hn, hmj, hid'.symm.trans hid, hd'.symm.trans hd⟩

theorem Grows.parentsMirror (h : Grows T o o' S) (hj : o.get? j = some on)
    (hp : ParentsMirror T o i j) : ParentsMirror T o' i j := by
  obtain ⟨m', hm', -, -, hpar, -, -⟩ := h j on hj
  have hpj : o'.parent j = o.parent j := by
    rw [parent_of_get? hm', parent_of_get? hj, hpar]
  rcases hp with ⟨hi, hj'⟩ | ⟨q, q', hq, hq', hm⟩
  · exact Or.inl ⟨hi, hpj.trans hj'⟩
  · exact Or.inr ⟨q, q', hq, hpj.trans hq', h.mirrors hm⟩

theorem Grows.pathOf (h : Grows T o o' S) (hp : o.pathOf j = some x) : o'.pathOf j = some x := by
  unfold DirTree.pathOf at hp ⊢
  cases hm : o.get? j with
  | none =>
    rw [hm] at hp
    cases hp
  | some m =>
    rw [hm] at hp
    obtain ⟨m', hm', hid, -⟩ := h j m hm
    rw [hm', Option.map_some, hid]
    exact hp

theorem Grows.trans (h₁ : Grows T o o₁ S₁) (h₂ : Grows T o₁ o₂ S₂) :
    Grows T o o₂ fun i => S₁ i ∨ S₂ i := by
  intro j m hm
  obtain ⟨m₁, hm₁, a1, a2, a3, a4, a5⟩ := h₁ j m hm
  obtain ⟨m₂, hm₂, b1, b2, b3, b4, b5⟩ := h₂ j m₁ hm₁
  refine ⟨m₂, hm₂, b1.trans a1, b2.trans a2, b3.trans a3, b4.trans a4, ?_⟩
  rcases b5 with b5 | ⟨i, ⟨n, m', hn, hm', hid, hd⟩, hS⟩
  · rcases a5 with a5 | ⟨i, hi, hS⟩
    · exact Or.inl (b5.trans a5)
    · exact Or.inr ⟨i, hi, Or.inl hS⟩
  · rw [hm₁] at hm'
    cases hm'
    exact Or.inr ⟨i, ⟨n, m, hn, hm, a1.symm.trans hid, a4.symm.trans hd⟩, Or.inr hS⟩

/-- Children that keep their list keep their paths. -/
theorem Grows.childPaths (h : Grows T o o' S) (ho : o.Shaped) (hc : o'.children j = o.children j) :
    o'.childPaths j = o.childPaths j := by
  unfold DirTree.childPaths
  rw [hc]
  refine List.filterMap_congr fun c hmem => ?_
  obtain ⟨m, hm, -⟩ := get?_of_parent (ho.mem_children_iff.1 hmem)
  rw [h.pathOf (pathOf_of_get? hm), pathOf_of_get? hm]

/-- **A settled copy outside the region that changed stays settled.** -/
theorem Settled.of_grows (hs : Settled T rules o d j) (h : Grows T o o' S) (hT : T.Shaped)
    (ho : o.Shaped) (hm : Mirrors T o d j) (hd : ¬ S d) : Settled T rules o' d j := by
  intro n hn
  obtain ⟨-, m, -, hmj, -⟩ := id hm
  obtain ⟨m', hm', -, -, -, -, hch⟩ := h j m hmj
  rcases hch with hch | ⟨i, hi, hS⟩
  · rw [h.childPaths ho (by rw [children_of_get? hm', children_of_get? hmj, hch])]
    exact hs n hn
  · exact absurd (mirrors_left_unique hT hi hm ▸ hS) hd

/-- The parent of a copied node is copied. -/
theorem Copy.parent_copied (hc : Copy T rules o) (hT : T.Shaped) (hm : Mirrors T o d j)
    (hq : T.parent d = some a) : ∃ j', Mirrors T o a j' := by
  obtain ⟨-, m, -, hmj, -⟩ := id hm
  obtain ⟨i, hi, hpar⟩ := hc.mirror j m hmj
  rw [mirrors_left_unique hT hi hm] at hpar
  rcases hpar with ⟨hnone, -⟩ | ⟨q, q', hq', -, hqq⟩
  · rw [hq] at hnone
    cases hnone
  · rw [hq] at hq'
    cases hq'
    exact ⟨q', hqq⟩

/-- Climbing from a copied node strictly below `a` reaches a copied child of
`a`. -/
theorem Copy.copied_child_of_below (hc : Copy T rules o) (hT : T.Shaped) (hb : T.Below a d)
    (hne : a ≠ d) (hmd : ∃ j', Mirrors T o d j') : ∃ c, T.parent c = some a ∧ ∃ j', Mirrors T o c j' := by
  induction hb with
  | refl => exact absurd rfl hne
  | child hca hcd ih =>
    rename_i a c d
    by_cases hcd' : c = d
    · subst hcd'
      exact ⟨c, hca, hmd⟩
    · obtain ⟨c', hc', j'', hm''⟩ := ih hcd' hmd
      exact ⟨c, hca, hc.parent_copied hT hm'' hc'⟩

/-- **Below a pending copy nothing is copied**: a copied node strictly below
`a` would have a copied ancestor among the children of `a`. -/
theorem Copy.not_mirrors_below (hc : Copy T rules o) (hT : T.Shaped) (hp : Pending T o a j)
    (hb : T.Below a d) (hne : a ≠ d) : ¬ Mirrors T o d j' := by
  intro hm
  obtain ⟨c, hca, j'', hm''⟩ := hc.copied_child_of_below hT hb hne ⟨j', hm⟩
  exact hp.2 c ((hT.mem_children_iff).2 hca) j'' hm''

/-- **The children of a pending copy have paths no copied node has**: a
copied node with the path of a child of `a` would copy that child. -/
theorem Pending.same_eq_false (hT : T.Shaped) (hc : Copy T rules o) (hp : Pending T o a j)
    {x : String} (hx : x ∈ T.childPaths a) {m : DirNode} (hm : o.get? j' = some m) :
    Path.same m.identifier x = false := by
  cases hs : Path.same m.identifier x with
  | false => rfl
  | true =>
    obtain ⟨c, nc, hca, hnc, rfl⟩ := hT.mem_childPaths.1 hx
    obtain ⟨i, ⟨ni, m', hni, hm', hid, hd⟩, -⟩ := hc.mirror j' m hm
    rw [hm] at hm'
    cases hm'
    have hic : i = c := hT.unique i c ni nc hni hnc (by rw [← hid]; exact hs)
    subst hic
    exact absurd ⟨ni, m, hni, hm, hid, hd⟩ (hp.2 i (hT.mem_children_iff.2 hca) j')

/-- Positions appended in a row, read by path, give the paths they were
appended with. -/
theorem filterMap_pathOf_range' {s : Nat} (hps : ∀ k (hk : k < ps.length), o.pathOf (s + k) = some ps[k]) :
    (List.range' s ps.length).filterMap o.pathOf = ps := by
  induction ps generalizing s with
  | nil => rfl
  | cons p ps ih =>
    have h0 := hps 0 (Nat.succ_pos _)
    rw [Nat.add_zero, List.getElem_cons_zero] at h0
    have hrest : ∀ k (hk : k < ps.length), o.pathOf (s + 1 + k) = some ps[k] := by
      intro k hk
      rw [Nat.add_assoc, Nat.add_comm 1 k]
      exact hps (k + 1) (by rw [List.length_cons]; omega)
    rw [List.length_cons, List.range'_succ, List.filterMap_cons_some h0, ih hrest]

/-- Every path a tree built by `insert` holds is normal: `insert` normalises
what it adds, and normalising twice changes nothing. -/
theorem Reachable.normal {r : String} (h : o.Reachable r) (hn : o.get? j = some n) :
    Path.normalize n.identifier = n.identifier := by
  induction h generalizing j n with
  | new =>
    rw [get?_new] at hn
    split at hn
    · cases hn
      exact Path.normalize_normalize r
    · cases hn
  | insert parent p _ ih =>
    rename_i t _
    rcases insert_cases t parent p with ⟨j, -, he⟩ | ⟨-, -, he⟩ | ⟨pn, -, hp, he⟩
    · rw [he] at hn
      exact ih hn
    · rw [he] at hn
      exact ih hn
    · rw [he] at hn
      rcases identifier_appendLeaf hp hn with ⟨-, hid⟩ | ⟨m₀, hm₀, hid⟩
      · rw [hid]
        exact Path.normalize_normalize p
      · rw [hid]
        exact ih hm₀

/-- The children of a node are written as normal paths. -/
theorem Reachable.childPaths_normal {r : String} (h : o.Reachable r) {x : String}
    (hx : x ∈ o.childPaths a) : Path.normalize x = x := by
  obtain ⟨c, nc, -, hnc, rfl⟩ := h.shaped.mem_childPaths.1 hx
  exact h.normal hnc

/-! ## One level of the copy

Placing the children of a pending copy of `a` below it, in any order of
their paths, appends one fresh leaf for each child. -/

section Level

variable {o₁ : DirTree} {k : Nat} {m : DirNode}

theorem Placed.grows (h : Placed o o₁ j on ps) (hon : o.get? j = some on) (hma : Mirrors T o a j) :
    Grows T o o₁ (· = a) := by
  intro j' m hm
  by_cases hj : j' = j
  · subst hj
    rw [hon] at hm
    cases hm
    exact ⟨_, h.parent, rfl, rfl, rfl, rfl, Or.inr ⟨a, hma, rfl⟩⟩
  · rw [← h.old j' hj (lt_size_of_get? hm)] at hm
    exact ⟨m, hm, rfl, rfl, rfl, rfl, Or.inl rfl⟩

theorem Placed.new_index (h : Placed o o₁ j on ps) (hm : o₁.get? j' = some m) (hj : ¬ j' < o.size) :
    ∃ k, k < ps.length ∧ j' = o.size + k := by
  have hlt := lt_size_of_get? hm
  rw [h.size] at hlt
  exact ⟨j' - o.size, by omega, by omega⟩

/-- **Each new leaf mirrors a child of `a`**, the one `find` gives for its path. -/
theorem Placed.mirrors_new (hT : T.Shaped) (h : Placed o o₁ j on ps) (hon : o.get? j = some on)
    (hma : Mirrors T o a j) (hps : ∀ p ∈ ps, p ∈ T.childPaths a) (hk : k < ps.length) :
    ∃ c, T.parent c = some a ∧ T.find ps[k] = some c ∧ Mirrors T o₁ c (o.size + k) := by
  obtain ⟨c, nc, hca, hnc, hid⟩ := hT.mem_childPaths.1 (hps _ (List.getElem_mem hk))
  obtain ⟨na, m, hna, hm, -, hd⟩ := hma
  rw [hon] at hm
  cases hm
  refine ⟨c, hca, hT.find_eq_some_iff.2 ⟨nc, hnc, by rw [hid]; exact Path.same_refl _⟩, ?_⟩
  refine ⟨nc, _, hnc, h.new k hk, hid.symm, ?_⟩
  show on.depth + 1 = nc.depth
  rw [hT.depth_child hca hnc hna, hd]

/-- What a level newly mirrors is a child of `a`. -/
theorem Placed.fresh (hT : T.Shaped) (h : Placed o o₁ j on ps) (hon : o.get? j = some on)
    (hma : Mirrors T o a j) (hps : ∀ p ∈ ps, p ∈ T.childPaths a) (hm : Mirrors T o₁ d j') :
    Mirrors T o d j' ∨ T.parent d = some a := by
  by_cases hj : j' < o.size
  · exact Or.inl ((h.grows hon hma).mirrors_of_lt hm hj)
  · obtain ⟨-, m, -, hm', -⟩ := id hm
    obtain ⟨k, hk, rfl⟩ := h.new_index hm' hj
    obtain ⟨c, hca, -, hc⟩ := h.mirrors_new hT hon hma hps hk
    rw [mirrors_left_unique hT hm hc]
    exact Or.inr hca

/-- **A level placed below a childless copy reads, by path, as the level
placed.** -/
theorem Placed.childPaths (h : Placed o o₁ j on ps) (hon : o.get? j = some on)
    (hempty : o.children j = []) : o₁.childPaths j = ps := by
  unfold DirTree.childPaths
  rw [children_of_get? h.parent]
  dsimp only
  rw [← children_of_get? hon, hempty, List.nil_append]
  exact filterMap_pathOf_range' fun k hk => pathOf_of_get? (h.new k hk)

/-- **A new leaf is pending**: it has no children, and a child of the node
it copies is two levels below `a`, where nothing was copied before. -/
theorem Placed.pending_new (hT : T.Shaped) (hc : Copy T rules o) (h : Placed o o₁ j on ps)
    (hon : o.get? j = some on) (hma : Mirrors T o a j) (hp : Pending T o a j)
    (hps : ∀ p ∈ ps, p ∈ T.childPaths a) (hk : k < ps.length) (hca : T.parent c = some a) :
    Pending T o₁ c (o.size + k) := by
  refine ⟨by rw [children_of_get? (h.new k hk)], fun c' hc' j'' hm => ?_⟩
  have hcc' := hT.mem_children_iff.1 hc'
  rcases h.fresh hT hon hma hps hm with hm₀ | hc'a
  · exact hc.not_mirrors_below hT hp (Below.child hca (Below.child hcc' (Below.refl c')))
      (Nat.ne_of_lt (Nat.lt_trans (hT.parent_lt hca) (hT.parent_lt hcc'))) hm₀
  · -- then `c` would be `a`, its own parent
    rw [hcc'] at hc'a
    cases hc'a
    exact Nat.lt_irrefl _ (hT.parent_lt hca)

/-- **Placing the level of a pending copy keeps a copy**: old nodes keep
their status, except the copy of `a`, now settled, and the new leaves are
pending. -/
theorem Placed.copy (hT : T.Shaped) (hc : Copy T rules o) (h : Placed o o₁ j on ps)
    (hon : o.get? j = some on) (hma : Mirrors T o a j) (hp : Pending T o a j)
    (hps : ∀ p ∈ ps, p ∈ T.childPaths a) (hreach : o₁.Reachable T.rootPath)
    (hset : Settled T rules o₁ a j) : Copy T rules o₁ where
  reach := hreach
  mirror j' m hm := by
    have hg := h.grows hon hma
    by_cases hj : j' < o.size
    · obtain ⟨m₀, hm₀⟩ := exists_get?_of_lt hj
      obtain ⟨i, hi, hpar⟩ := hc.mirror j' m₀ hm₀
      exact ⟨i, hg.mirrors hi, hg.parentsMirror hm₀ hpar⟩
    · obtain ⟨k, hk, rfl⟩ := h.new_index hm hj
      obtain ⟨c, hca, -, hmc⟩ := h.mirrors_new hT hon hma hps hk
      exact ⟨c, hmc, Or.inr ⟨a, j, hca, by rw [parent_of_get? (h.new k hk)], hg.mirrors hma⟩⟩
  status i j' hm := by
    have hg := h.grows hon hma
    by_cases hjj : j' = j
    · subst hjj
      rw [mirrors_left_unique hT hm (hg.mirrors hma)]
      exact Or.inr hset
    by_cases hj : j' < o.size
    · -- an old copy other than that of `a` keeps its status
      have hm₀ := hg.mirrors_of_lt hm hj
      have hia : i ≠ a := fun hia => hjj (mirrors_right_unique hc.reach.shaped (hia ▸ hm₀) hma)
      rcases hc.status i j' hm₀ with hpend | hsettled
      · refine Or.inl ⟨?_, fun c hci j'' hmc => ?_⟩
        · unfold DirTree.children
          rw [h.old j' hjj hj]
          exact hpend.1
        · rcases h.fresh hT hon hma hps hmc with hmc₀ | hca
          · exact hpend.2 c hci j'' hmc₀
          · exact hia (Option.some.inj ((hT.mem_children_iff.1 hci).symm.trans hca))
      · exact Or.inr (hsettled.of_grows hg hT hc.reach.shaped hm₀ hia)
    · obtain ⟨-, m, -, hm', -⟩ := id hm
      obtain ⟨k, hk, rfl⟩ := h.new_index hm' hj
      obtain ⟨c, hca, -, hmc⟩ := h.mirrors_new hT hon hma hps hk
      rw [mirrors_left_unique hT hm hmc]
      exact Or.inl (h.pending_new hT hc hon hma hp hps hk hca)

end Level

/-- **Placing the level of a pending copy of `a`** in precedence order:
every child of `a` is fresh in the copy and has a normal path, and no two
have the same path, so each gets a leaf. -/
theorem placeLevel_level {r : String} (hTr : T.Reachable r) (hc : Copy T rules o)
    (hma : Mirrors T o a j) (hp : Pending T o a j) (hn : T.get? a = some n) :
    Level T rules o (placeLevel T j o (pinFront (T.childPaths a) rules (n.depth + 1))).1 a j
      (placeLevel T j o (pinFront (T.childPaths a) rules (n.depth + 1))).2 := by
  have hT := hTr.shaped
  obtain ⟨-, on, -, hon, -⟩ := id hma
  have hperm := pinFront_perm (T.childPaths a) rules (n.depth + 1)
  have hps : ∀ p ∈ pinFront (T.childPaths a) rules (n.depth + 1), p ∈ T.childPaths a :=
    fun p hp => hperm.subset hp
  have hfind : ∀ p ∈ pinFront (T.childPaths a) rules (n.depth + 1), ∃ c, T.find p = some c :=
    fun p hp => hT.find_of_mem_childPaths (hps p hp)
  have hnorm : ∀ p ∈ pinFront (T.childPaths a) rules (n.depth + 1), Path.normalize p = p :=
    fun p hp => hTr.childPaths_normal (hps p hp)
  have hfresh : ∀ p ∈ pinFront (T.childPaths a) rules (n.depth + 1), ∀ j' m, o.get? j' = some m →
      Path.same m.identifier p = false :=
    fun p hpm j' m hm => hp.same_eq_false hT hc (hps p hpm) hm
  have hpw := (hT.childPaths_pairwise a).perm hperm.symm fun {x y} hxy =>
    Bool.eq_false_iff.2 fun hyx => Bool.eq_false_iff.1 hxy (Path.same_comm hyx)
  obtain ⟨o₁, heq, hpl, hreach⟩ := foldl_placeStep hon hfind hnorm hfresh hpw []
  rw [placeLevel_eq_foldl, heq, List.nil_append]
  have hset : Settled T rules o₁ a j := by
    intro n' hn'
    rw [hn] at hn'
    cases hn'
    exact hpl.childPaths hon hp.1
  have hcopy := hpl.copy hT hc hon hma hp hps (hreach _ hc.reach) hset
  -- the pairs recorded: each position `o.size + k` with the child `find` gives
  have hplaced : ∀ x ∈ ((pinFront (T.childPaths a) rules (n.depth + 1)).zipIdx o.size).map
      (fun x => ((T.find x.1).getD 0, x.2)),
      T.parent x.1 = some a ∧ Mirrors T o₁ x.1 x.2 ∧ Pending T o₁ x.1 x.2 := by
    intro x hx
    obtain ⟨⟨p, i⟩, hy, rfl⟩ := List.mem_map.1 hx
    obtain ⟨hle, hlt, hpi⟩ := List.mem_zipIdx hy
    obtain ⟨c, hca, hfc, hmc⟩ := hpl.mirrors_new hT hon hma hps (k := i - o.size) (by omega)
    rw [Nat.add_sub_cancel' hle] at hmc
    dsimp only
    rw [hpi, hfc, Option.getD_some]
    refine ⟨hca, hmc, ?_⟩
    have hpend := hpl.pending_new hT hc hon hma hp hps (k := i - o.size) (by omega) hca
    rw [Nat.add_sub_cancel' hle] at hpend
    exact hpend
  refine ⟨hcopy, hpl.grows hon hma, hset, fun d j' hm => hpl.fresh hT hon hma hps hm, hplaced,
    ?_, ?_⟩
  · -- the copies are different positions, and a position copies one node
    have hsnd : (((pinFront (T.childPaths a) rules (n.depth + 1)).zipIdx o.size).map
        (fun x => ((T.find x.1).getD 0, x.2))).map Prod.snd =
        List.range' o.size (pinFront (T.childPaths a) rules (n.depth + 1)).length := by
      rw [List.map_map]
      exact List.zipIdx_map_snd _ _
    have hnd := List.nodup_range' (s := o.size) (n := (pinFront (T.childPaths a) rules (n.depth + 1)).length)
    rw [← hsnd, List.Nodup, List.pairwise_map] at hnd
    refine hnd.imp_of_mem fun hx hy hne heq => hne ?_
    exact mirrors_right_unique hcopy.reach.shaped (heq ▸ (hplaced _ hx).2.1) (hplaced _ hy).2.1
  · intro c hca
    obtain ⟨nc, hnc, -⟩ := get?_of_parent hca
    have hmem := hperm.symm.subset (hT.mem_childPaths.2 ⟨c, nc, hca, hnc, rfl⟩)
    obtain ⟨k, hk, hkc⟩ := List.getElem_of_mem hmem
    refine ⟨((T.find nc.identifier).getD 0, o.size + k), List.mem_map.2 ⟨(nc.identifier, o.size + k),
      ?_, rfl⟩, ?_⟩
    · rw [List.mk_add_mem_zipIdx_iff_getElem?, List.getElem?_eq_getElem hk, hkc]
    · dsimp only
      rw [hT.find_eq_some_iff.2 ⟨nc, hnc, Path.same_refl _⟩, Option.getD_some]

/-! ## Descending into the children -/

theorem Descended.congr (h : Descended T rules o o' S₁) (hS : ∀ d, S₁ d ↔ S₂ d) :
    Descended T rules o o' S₂ where
  copy := h.copy
  grows := h.grows.mono fun d hd => (hS d).1 hd
  settled d hd := h.settled d ((hS d).2 hd)
  fresh d j hm := (h.fresh d j hm).imp_right (hS d).1

/-- **Copying two disjoint regions one after the other** copies their union:
the second copy leaves the settled nodes of the first alone. -/
theorem Descended.trans (hT : T.Shaped) (h₁ : Descended T rules o o₁ S₁)
    (h₂ : Descended T rules o₁ o₂ S₂) (hdis : ∀ d, S₁ d → ¬ S₂ d) :
    Descended T rules o o₂ fun d => S₁ d ∨ S₂ d where
  copy := h₂.copy
  grows := h₁.grows.trans h₂.grows
  settled d hd := by
    rcases hd with hd | hd
    · obtain ⟨j, hm, hs⟩ := h₁.settled d hd
      exact ⟨j, h₂.grows.mirrors hm, hs.of_grows h₂.grows hT h₁.copy.reach.shaped hm (hdis d hd)⟩
    · exact h₂.settled d hd
  fresh d j hm := by
    rcases h₂.fresh d j hm with hm₁ | hd
    · exact (h₁.fresh d j hm₁).imp_right Or.inl
    · exact Or.inr (Or.inr hd)

/-- **Descending into siblings one after the other** copies all their
subtrees, when each descent copies the subtree of a pending sibling: the
subtrees of siblings are disjoint, so a descent leaves the later siblings
pending. -/
theorem foldl_descend (hT : T.Shaped) {f : DirTree → Nat × Nat → DirTree} {L : List (Nat × Nat)}
    (hf : ∀ x ∈ L, ∀ o, Copy T rules o → Mirrors T o x.1 x.2 → Pending T o x.1 x.2 →
      Descended T rules o (f o x) (T.Below x.1 ·))
    (hL : ∀ x ∈ L, T.parent x.1 = some a ∧ Mirrors T o x.1 x.2 ∧ Pending T o x.1 x.2)
    (hd : L.Pairwise fun x y => x.1 ≠ y.1) (hc : Copy T rules o) :
    Descended T rules o (L.foldl f o) fun d => ∃ x ∈ L, T.Below x.1 d := by
  induction L generalizing o with
  | nil =>
    exact ⟨hc, Grows.refl o _, fun _ ⟨_, hx, _⟩ => absurd hx List.not_mem_nil, fun _ _ hm => Or.inl hm⟩
  | cons x L ih =>
    rw [List.foldl_cons]
    obtain ⟨hxa, hxm, hxp⟩ := hL x List.mem_cons_self
    have h₁ := hf x List.mem_cons_self o hc hxm hxp
    -- a later sibling is outside the subtree of `x`, so still pending
    have hL₁ : ∀ y ∈ L, T.parent y.1 = some a ∧ Mirrors T (f o x) y.1 y.2 ∧
        Pending T (f o x) y.1 y.2 := by
      intro y hy
      obtain ⟨hya, hym, hyp⟩ := hL y (List.mem_cons_of_mem _ hy)
      have hxy : x.1 ≠ y.1 := List.rel_of_pairwise_cons hd hy
      refine ⟨hya, h₁.grows.mirrors hym, ?_, fun c hcy j' hmc => ?_⟩
      · obtain ⟨-, m, -, hm, -⟩ := id hym
        obtain ⟨m', hm', -, -, -, -, hch⟩ := h₁.grows y.2 m hm
        rcases hch with hch | ⟨i, hi, hS⟩
        · rw [children_of_get? hm', hch, ← children_of_get? hm]
          exact hyp.1
        · rw [mirrors_left_unique hT hi hym] at hS
          exact absurd hS (hT.not_below_sibling hxa hya hxy)
      · rcases h₁.fresh c j' hmc with hm₀ | hb
        · exact hyp.2 c hcy j' hm₀
        · exact hT.below_disjoint hxa hya hxy hb
            (Below.child (hT.mem_children_iff.1 hcy) (Below.refl c))
    have h₂ := ih (fun y hy => hf y (List.mem_cons_of_mem _ hy)) hL₁ (List.Pairwise.of_cons hd)
      h₁.copy
    refine (h₁.trans hT h₂ fun d hxd ⟨y, hy, hyd⟩ => ?_).congr fun d => by
      simp only [List.mem_cons, exists_eq_or_imp]
    exact hT.below_disjoint hxa (hL y (List.mem_cons_of_mem _ hy)).1
      (List.rel_of_pairwise_cons hd hy) hxd hyd

/-- **Copying the subtree of a pending node**, with at least as much fuel as
there are levels below it, copies and settles exactly that subtree, and
changes the copy only there. -/
theorem copyOrdered_descended {r : String} (hTr : T.Reachable r) (fuel : Nat) :
    ∀ {a j o n}, Copy T rules o → Mirrors T o a j → Pending T o a j → T.get? a = some n →
      T.size ≤ n.depth + fuel →
      Descended T rules o (copyOrdered T rules fuel a o j) (T.Below a ·) := by
  have hT := hTr.shaped
  induction fuel with
  | zero =>
    -- no node is as deep as the tree has nodes
    intro a j o n _ _ _ hn hfuel
    have := hT.depth_le hn
    have := lt_size_of_get? hn
    omega
  | succ fuel ih =>
    intro a j o n hc hma hp hn hfuel
    have hl := placeLevel_level hTr hc hma hp hn
    rw [copyOrdered_succ hn]
    generalize placeLevel T j o (pinFront (T.childPaths a) rules (n.depth + 1)) = res at hl ⊢
    obtain ⟨o₁, pl⟩ := res
    -- each child is one level deeper, so one unit of fuel less is enough
    have h₂ := foldl_descend hT (f := fun o x => copyOrdered T rules fuel x.1 o x.2)
      (fun x hx o' hc' hm' hp' => by
        obtain ⟨nx, hnx, -⟩ := get?_of_parent (hl.placed x hx).1
        have := hT.depth_child (hl.placed x hx).1 hnx hn
        exact ih hc' hm' hp' hnx (by omega))
      hl.placed hl.distinct hl.copy
    refine ⟨h₂.copy, (hl.grows.trans h₂.grows).mono ?_, fun d hd => ?_, fun d j' hm => ?_⟩
    · rintro d (rfl | ⟨x, hx, hxd⟩)
      · exact Below.refl _
      · exact Below.child (hl.placed x hx).1 hxd
    · cases hd with
      | refl =>
        -- `a` is settled by its level and lies in no child's subtree
        have hma₁ := hl.grows.mirrors hma
        refine ⟨j, h₂.grows.mirrors hma₁, hl.settled.of_grows h₂.grows hT hl.copy.reach.shaped hma₁ ?_⟩
        rintro ⟨x, hx, hxa⟩
        exact Nat.lt_irrefl _ (Nat.lt_of_lt_of_le (hT.parent_lt (hl.placed x hx).1) (hT.le_of_below hxa))
      | child hca hcd =>
        obtain ⟨x, hx, rfl⟩ := hl.complete _ hca
        exact h₂.settled d ⟨x, hx, hcd⟩
    · rcases h₂.fresh d j' hm with hm₁ | ⟨x, hx, hxd⟩
      · rcases hl.fresh d j' hm₁ with hm₀ | hda
        · exact Or.inl hm₀
        · exact Or.inr (Below.child hda (Below.refl d))
      · exact Or.inr (Below.child (hl.placed x hx).1 hxd)

/-! ## The whole copy -/

section Start

variable {r root : String} {m : DirNode}

theorem eq_zero_of_get?_new (h : (new root).get? j = some m) : j = 0 := by
  rw [get?_new] at h
  split at h
  · assumption
  · cases h

/-- The root of the copy mirrors the root of the input, whose path is normal. -/
theorem mirrors_root (hTr : T.Reachable r) : Mirrors T (new T.rootPath) 0 0 := by
  obtain ⟨rt, hrt, hp, hd⟩ := hTr.shaped.root
  refine ⟨rt, _, hrt, by rw [get?_new, if_pos rfl], ?_, hd.symm⟩
  show Path.normalize T.rootPath = rt.identifier
  unfold rootPath
  rw [hrt, Option.map_some, Option.getD_some]
  exact hTr.normal hrt

/-- The root alone is pending: the root is no node's child. -/
theorem pending_root (hTr : T.Reachable r) : Pending T (new T.rootPath) 0 0 := by
  refine ⟨rfl, fun c hc j' hm => ?_⟩
  obtain ⟨-, m, -, hm', -⟩ := id hm
  obtain rfl := eq_zero_of_get?_new hm'
  rw [mirrors_left_unique hTr.shaped hm (mirrors_root hTr)] at hc
  exact hTr.shaped.ne_zero_of_parent (hTr.shaped.mem_children_iff.1 hc) rfl

/-- **The root alone is a copy of the input.** -/
theorem copy_new (hTr : T.Reachable r) : Copy T rules (new T.rootPath) := by
  have h00 := mirrors_root hTr
  refine ⟨Reachable.new, fun j m hm => ?_, fun i j hm => ?_⟩
  · obtain rfl := eq_zero_of_get?_new hm
    obtain ⟨rt, hrt, hp, -⟩ := hTr.shaped.root
    exact ⟨0, h00, Or.inl ⟨by rw [parent_of_get? hrt, hp], rfl⟩⟩
  · obtain ⟨-, m, -, hm', -⟩ := id hm
    obtain rfl := eq_zero_of_get?_new hm'
    rw [mirrors_left_unique hTr.shaped hm h00]
    exact Or.inl (pending_root hTr)

/-- **Reordering copies the whole input**: every node is copied and settled. -/
theorem reorder_descended (hTr : T.Reachable r) :
    Descended T rules (new T.rootPath) (T.reorder rules) (T.Below 0 ·) := by
  obtain ⟨rt, hrt, -, hd⟩ := hTr.shaped.root
  unfold reorder
  exact copyOrdered_descended hTr T.size (copy_new hTr) (mirrors_root hTr) (pending_root hTr) hrt
    (by omega)

/-- **Every node of a reordered tree** copies a node of the input, with its
path and depth, and lists its children in the precedence order of that
node's children. -/
theorem reorder_get? (hTr : T.Reachable r) (rules : List Rule) (h : (T.reorder rules).get? j = some m) :
    ∃ i n, T.get? i = some n ∧ m.identifier = n.identifier ∧ m.depth = n.depth ∧
      (T.reorder rules).childPaths j = pinFront (T.childPaths i) rules (n.depth + 1) := by
  have hD : Descended T rules (new T.rootPath) (T.reorder rules) (T.Below 0 ·) :=
    reorder_descended hTr
  obtain ⟨i, hmi, -⟩ := hD.copy.mirror j m h
  obtain ⟨n, m', hn, hm', hid, hd⟩ := id hmi
  rw [h] at hm'
  cases hm'
  -- the input node is settled at its one copy
  obtain ⟨j', hmj', hs⟩ := hD.settled i (hTr.shaped.below_zero hn)
  obtain rfl := mirrors_right_unique hD.copy.reach.shaped hmi hmj'
  exact ⟨i, n, hn, hid, hd, hs n hn⟩

/-- **Every node of the input is copied** into the reordered tree. -/
theorem exists_reorder_get? (hTr : T.Reachable r) (rules : List Rule) (hn : T.get? i = some n) :
    ∃ j m, (T.reorder rules).get? j = some m ∧ m.identifier = n.identifier := by
  have hD : Descended T rules (new T.rootPath) (T.reorder rules) (T.Below 0 ·) :=
    reorder_descended hTr
  obtain ⟨j, hm, -⟩ := hD.settled i (hTr.shaped.below_zero hn)
  obtain ⟨n', m, hn', hm', hid, -⟩ := hm
  rw [hn] at hn'
  cases hn'
  exact ⟨j, m, hm', hid⟩

end Start

/-! ## Rules that give the same precedence -/

/-- **Copying reads the rules only through precedence**: rules that give
every level of the input the same precedence order give the same copy. -/
theorem copyOrdered_congr {rules' : List Rule}
    (h : ∀ i n, T.get? i = some n →
      pinFront (T.childPaths i) rules (n.depth + 1) = pinFront (T.childPaths i) rules' (n.depth + 1))
    (fuel : Nat) :
    ∀ inId out outId, copyOrdered T rules fuel inId out outId = copyOrdered T rules' fuel inId out outId := by
  induction fuel with
  | zero =>
    intro _ _ _
    rfl
  | succ fuel ih =>
    intro inId out outId
    cases hn : T.get? inId with
    | none => simp only [copyOrdered, hn]
    | some n =>
      -- the same level is placed, and every child is copied the same way
      rw [copyOrdered_succ hn, copyOrdered_succ hn, h inId n hn]
      simp only [ih]

/-- **Reordering reads the rules only through precedence.** -/
theorem reorder_congr {rules' : List Rule}
    (h : ∀ i n, T.get? i = some n →
      pinFront (T.childPaths i) rules (n.depth + 1) = pinFront (T.childPaths i) rules' (n.depth + 1)) :
    T.reorder rules = T.reorder rules' := by
  unfold reorder
  exact copyOrdered_congr h _ _ _ _

/-! ## Reordering permutes siblings -/

/-- A copy has the path its input node has. -/
theorem Mirrors.pathOf (h : Mirrors T o i j) : o.pathOf j = T.pathOf i := by
  obtain ⟨n, m, hn, hm, hid, -⟩ := h
  rw [pathOf_of_get? hm, pathOf_of_get? hn, hid]

/-- **`out` is `t` with the siblings of each level put in rule order**: the
nodes of the two match one to one, with the same path, tag and depth and
parents of the same path, and a node's children in `out`, read by path, are
the precedence order of the children of its match in `t`. -/
def SiblingsPermuted (t : DirTree) (rules : List Rule) (out : DirTree) : Prop :=
  out.size = t.size ∧ out.rootPath = t.rootPath ∧
  ∃ σ : Fin t.size ≃ Fin out.size, ∀ (i : Fin t.size) n, t.get? i = some n →
    ∃ m, out.get? (σ i) = some m ∧ m.identifier = n.identifier ∧ m.tag = n.tag ∧
      m.depth = n.depth ∧ (out.parent (σ i)).bind out.pathOf = (t.parent i).bind t.pathOf ∧
      out.childPaths (σ i) = pinFront (t.childPaths i) rules (n.depth + 1)

/-- **Reordering only permutes siblings**: the reordering of a tree `insert`
built is again one `insert` builds from the same root, and it has the same
nodes at the same places, each level in rule order. Nothing is lost,
duplicated or moved to another parent. -/
theorem reorder_permutes_siblings {r : String} (hTr : T.Reachable r) (rules : List Rule) :
    (T.reorder rules).Reachable T.rootPath ∧ T.SiblingsPermuted rules (T.reorder rules) := by
  have hT := hTr.shaped
  have hD : Descended T rules (new T.rootPath) (T.reorder rules) (T.Below 0 ·) :=
    reorder_descended hTr
  have ho := hD.copy.reach.shaped
  -- every input node has a settled copy, since every node lies below the root
  have hcopied : ∀ i : Fin T.size, ∃ j : Fin (T.reorder rules).size,
      Mirrors T (T.reorder rules) i j ∧ Settled T rules (T.reorder rules) i j := by
    intro i
    obtain ⟨n, hn⟩ := exists_get?_of_lt i.2
    obtain ⟨j, hm, hs⟩ := hD.settled i (hT.below_zero hn)
    obtain ⟨-, m, -, hmj, -⟩ := id hm
    exact ⟨⟨j, lt_size_of_get? hmj⟩, hm, hs⟩
  choose σ hσm hσs using hcopied
  -- a position copies one node, and every node of the copy copies one
  have hbij : Function.Bijective σ := by
    refine ⟨fun i i' he => Fin.ext (mirrors_left_unique hT (hσm i) (by rw [he]; exact hσm i')),
      fun j => ?_⟩
    obtain ⟨m, hm⟩ := exists_get?_of_lt j.2
    obtain ⟨i, hi, -⟩ := hD.copy.mirror j m hm
    obtain ⟨n, -, hn, -⟩ := id hi
    exact ⟨⟨i, lt_size_of_get? hn⟩, Fin.ext (mirrors_right_unique ho (hσm _) hi)⟩
  have hroot : (T.reorder rules).rootPath = T.rootPath := by
    obtain ⟨rt, m', hrt, hm', hid, -⟩ := hD.grows.mirrors (mirrors_root hTr)
    unfold rootPath
    rw [hm', hrt]
    exact hid
  refine ⟨hD.copy.reach, (Fin.equiv_iff_eq.1 ⟨Equiv.ofBijective σ hbij⟩).symm, hroot,
    Equiv.ofBijective σ hbij, fun i n hn => ?_⟩
  obtain ⟨n', m, hn', hm, hid, hd⟩ := hσm i
  rw [hn] at hn'
  cases hn'
  refine ⟨m, hm, hid, by rw [ho.tag _ m hm, hT.tag _ n hn, hid], hd, ?_, hσs i n hn⟩
  -- the parent of the copy is the copy of the parent
  obtain ⟨i', hi', hpar⟩ := hD.copy.mirror (σ i) m hm
  rw [mirrors_left_unique hT hi' (hσm i)] at hpar
  rcases hpar with ⟨hTi, hoj⟩ | ⟨q, q', hq, hq', hmq⟩
  · rw [Equiv.ofBijective_apply, hTi, hoj]
    rfl
  · rw [Equiv.ofBijective_apply, hq, hq']
    exact hmq.pathOf

/-- The tree of `/robot` with `src` and then `docs` below its root,
reordered with a rule that pins `docs` before `src`, is one the theorem
covers. -/
theorem robot_reorder_permutes :
    (((new "/robot").insert 0 "/robot/src").1.insert 0 "/robot/docs").1.Reachable "/robot" ∧
    ((((new "/robot").insert 0 "/robot/src").1.insert 0 "/robot/docs").1.reorder
        [⟨"/robot/docs", .directory, 1, "docs"⟩]).Reachable
        (((new "/robot").insert 0 "/robot/src").1.insert 0 "/robot/docs").1.rootPath ∧
      (((new "/robot").insert 0 "/robot/src").1.insert 0 "/robot/docs").1.SiblingsPermuted
        [⟨"/robot/docs", .directory, 1, "docs"⟩]
        ((((new "/robot").insert 0 "/robot/src").1.insert 0 "/robot/docs").1.reorder
          [⟨"/robot/docs", .directory, 1, "docs"⟩]) :=
  have h : (((new "/robot").insert 0 "/robot/src").1.insert 0 "/robot/docs").1.Reachable "/robot" :=
    .insert 0 "/robot/docs" (.insert 0 "/robot/src" .new)
  ⟨h, reorder_permutes_siblings h _⟩

end DirTree

end ReadingOrder
