import ReadingOrder.Proofs.Tree.Shape
import Mathlib.Data.List.Basic
/-!
# Subtrees

A node lies in the subtree of `a` when it is `a` or lies in the subtree of
a child of `a` (`Below`). In a shaped tree depth grows by one at each step
down, so a node strictly below `a` is deeper than `a`. That one fact is what
keeps the subtrees of two siblings apart, and what rules out a node lying
below one of its own descendants. Every node lies below the root, because
parents come earlier in the arena.

A node's children are also read by path (`childPaths`), which is how
reordering sees a level.
-/

namespace ReadingOrder

namespace DirTree

variable {t : DirTree} {a c d i q : Nat} {n na nd : DirNode}

/-- The path of the node at a position; none for a position with no node. -/
def pathOf (t : DirTree) (i : Nat) : Option String :=
  (t.get? i).map (·.identifier)

/-- **The paths of a node's children**, in order. -/
def childPaths (t : DirTree) (i : Nat) : List String :=
  (t.children i).filterMap t.pathOf

theorem pathOf_of_get? (h : t.get? i = some n) : t.pathOf i = some n.identifier := by
  unfold pathOf
  rw [h]
  rfl

/-- An append gives the new position the normal form of the path, and keeps
the path of every other position. -/
theorem pathOf_appendLeaf {parent : Nat} {pn : DirNode} {x : String} (hp : t.get? parent = some pn)
    (i : Nat) :
    (t.appendLeaf parent pn x).pathOf i = if i = t.size then some (Path.normalize x) else t.pathOf i := by
  unfold pathOf
  rw [get?_appendLeaf hp]
  by_cases hs : i = t.size
  · rw [if_pos hs, if_pos hs]
    rfl
  · rw [if_neg hs, if_neg hs]
    by_cases hi : i = parent
    · rw [if_pos hi, hi, hp]
      rfl
    · rw [if_neg hi]

/-- **The subtree of a node**: the node itself, and the subtrees of its
children. -/
inductive Below (t : DirTree) : Nat → Nat → Prop
  | refl (a : Nat) : Below t a a
  | child {a c d : Nat} : t.parent c = some a → Below t c d → Below t a d

theorem get?_of_parent (h : t.parent c = some a) : ∃ n, t.get? c = some n ∧ n.parent = some a := by
  unfold parent at h
  cases hc : t.get? c with
  | none =>
    rw [hc] at h
    cases h
  | some n =>
    rw [hc] at h
    exact ⟨n, rfl, h⟩

theorem exists_get?_of_lt (h : i < t.size) : ∃ n, t.get? i = some n :=
  Option.ne_none_iff_exists'.1 fun hn => absurd (get?_eq_none_iff.1 hn) (Nat.not_le_of_lt h)

/-- A subtree holds the children of its nodes. -/
theorem Below.snoc (hb : t.Below a q) (hd : t.parent d = some q) : t.Below a d := by
  induction hb with
  | refl => exact Below.child hd (Below.refl d)
  | child hc _ ih => exact Below.child hc (ih hd)

/-- **The last step down a subtree**: a node below `a` is `a` itself, or
the child of a node below `a`. -/
theorem below_last (hb : t.Below a d) : a = d ∨ ∃ q, t.parent d = some q ∧ t.Below a q := by
  induction hb with
  | refl => exact Or.inl rfl
  | child hc _ ih =>
    rcases ih with rfl | ⟨q, hq, hbq⟩
    · exact Or.inr ⟨_, hc, Below.refl _⟩
    · exact Or.inr ⟨q, hq, Below.child hc hbq⟩

namespace Shaped

variable (h : t.Shaped)
include h

/-- The root is no node's child. -/
theorem ne_zero_of_parent (hc : t.parent c = some a) : c ≠ 0 := by
  rintro rfl
  obtain ⟨r, hr, hrp, -⟩ := h.root
  rw [parent_of_get? hr, hrp] at hc
  cases hc

/-- **Parents come first in the arena.** -/
theorem parent_lt (hc : t.parent c = some a) : a < c := by
  obtain ⟨nc, hnc, hp⟩ := get?_of_parent hc
  obtain ⟨q, m, hq, hlt, -, -⟩ := h.below c nc hnc (h.ne_zero_of_parent hc)
  rw [hp] at hq
  cases hq
  exact hlt

/-- A subtree holds no node before its top. -/
theorem le_of_below (hb : t.Below a d) : a ≤ d := by
  induction hb with
  | refl => exact Nat.le_refl _
  | child hc _ ih => exact Nat.le_of_lt (Nat.lt_of_lt_of_le (h.parent_lt hc) ih)

/-- A parent is a node. -/
theorem get?_parent (hc : t.parent c = some a) : ∃ na, t.get? a = some na := by
  obtain ⟨nc, hnc, -⟩ := get?_of_parent hc
  exact exists_get?_of_lt (Nat.lt_trans (h.parent_lt hc) (lt_size_of_get? hnc))

/-- **A node is a child exactly of its parent.** -/
theorem mem_children_iff : c ∈ t.children a ↔ t.parent c = some a := by
  rw [← List.count_pos_iff, h.count_children]
  split
  · exact ⟨fun _ => ‹_›, fun _ => Nat.one_pos⟩
  · exact ⟨fun h => absurd h (Nat.lt_irrefl 0), fun h' => absurd h' ‹_›⟩

/-- No node is listed twice among the children of a node. -/
theorem nodup_children (a : Nat) : (t.children a).Nodup := by
  rw [List.nodup_iff_count]
  intro c
  rw [h.count_children]
  split <;> omega

/-- **The paths of a node's children** are the paths of the nodes it is the
parent of. -/
theorem mem_childPaths {x : String} :
    x ∈ t.childPaths a ↔ ∃ c n, t.parent c = some a ∧ t.get? c = some n ∧ n.identifier = x := by
  unfold childPaths
  rw [List.mem_filterMap]
  constructor
  · rintro ⟨c, hc, hx⟩
    unfold pathOf at hx
    obtain ⟨n, hn, hid⟩ := Option.map_eq_some_iff.1 hx
    exact ⟨c, n, h.mem_children_iff.1 hc, hn, hid⟩
  · rintro ⟨c, n, hc, hn, rfl⟩
    exact ⟨c, h.mem_children_iff.2 hc, pathOf_of_get? hn⟩

/-- The path of a child finds a node. -/
theorem find_of_mem_childPaths {x : String} (hx : x ∈ t.childPaths a) : ∃ c, t.find x = some c := by
  obtain ⟨c, nc, -, hnc, hid⟩ := h.mem_childPaths.1 hx
  exact ⟨c, h.find_eq_some_iff.2 ⟨nc, hnc, by rw [hid]; exact Path.same_refl _⟩⟩

/-- No two children of a node have the same path. -/
theorem childPaths_pairwise (a : Nat) :
    (t.childPaths a).Pairwise fun x y => Path.same x y = false := by
  unfold childPaths
  rw [List.pairwise_filterMap]
  refine (h.nodup_children a).imp ?_
  intro c c' hne x hx y hy
  cases hs : Path.same x y with
  | false => rfl
  | true =>
    unfold pathOf at hx hy
    obtain ⟨nc, hnc, rfl⟩ := Option.map_eq_some_iff.1 hx
    obtain ⟨nc', hnc', rfl⟩ := Option.map_eq_some_iff.1 hy
    exact absurd (h.unique c c' nc nc' hnc hnc' hs) hne

/-- **An append lists the new path last among its parent's children**, and
changes the children of no other node. -/
theorem childPaths_appendLeaf {parent : Nat} {pn : DirNode} {x : String}
    (hp : t.get? parent = some pn) (j : Nat) :
    (t.appendLeaf parent pn x).childPaths j =
      if j = parent then t.childPaths j ++ [Path.normalize x] else t.childPaths j := by
  -- the children already listed are nodes before the new one, so keep their paths
  have hold : (t.children j).filterMap (t.appendLeaf parent pn x).pathOf = t.childPaths j := by
    refine List.filterMap_congr fun c hc => ?_
    obtain ⟨nc, hnc, -⟩ := get?_of_parent (h.mem_children_iff.1 hc)
    rw [pathOf_appendLeaf hp, if_neg (Nat.ne_of_lt (lt_size_of_get? hnc))]
  unfold childPaths at hold ⊢
  rw [children_appendLeaf hp]
  split
  · rw [List.filterMap_append, hold, List.filterMap_cons, pathOf_appendLeaf hp, if_pos rfl]
    rfl
  · exact hold

/-- A child is one level deeper than its parent. -/
theorem depth_child (hc : t.parent c = some a) (hn : t.get? c = some n) (ha : t.get? a = some na) :
    n.depth = na.depth + 1 := by
  obtain ⟨q, m, hq, -, hm, hd⟩ := h.below c n hn (h.ne_zero_of_parent hc)
  rw [parent_of_get? hn, hq] at hc
  cases hc
  rw [ha] at hm
  cases hm
  exact hd

/-- **Depth grows down a subtree**, strictly below its top. -/
theorem depth_of_below (hb : t.Below a d) (ha : t.get? a = some na) (hd : t.get? d = some nd) :
    na.depth ≤ nd.depth ∧ (na.depth = nd.depth → a = d) := by
  induction hb generalizing na with
  | refl =>
    rw [ha] at hd
    cases hd
    exact ⟨Nat.le_refl _, fun _ => rfl⟩
  | child hc _ ih =>
    rename_i a c d
    obtain ⟨nc, hnc, -⟩ := get?_of_parent hc
    have hdc := h.depth_child hc hnc ha
    obtain ⟨hle, -⟩ := ih hnc hd
    refine ⟨by omega, fun he => ?_⟩
    omega

/-- A node's depth is at most its position, since parents come first. -/
theorem depth_le (hn : t.get? i = some n) : n.depth ≤ i := by
  induction i using Nat.strongRecOn generalizing n with
  | _ i ih =>
    by_cases hi : i = 0
    · subst i
      obtain ⟨r, hr, -, hrd⟩ := h.root
      rw [hn] at hr
      cases hr
      exact Nat.le_of_eq hrd
    · obtain ⟨q, m, -, hqi, hm, hd⟩ := h.below i n hn hi
      have := ih q hqi hm
      omega

/-- **Every node lies below the root.** -/
theorem below_zero (hn : t.get? i = some n) : t.Below 0 i := by
  induction i using Nat.strongRecOn generalizing n with
  | _ i ih =>
    by_cases hi : i = 0
    · subst i
      exact Below.refl 0
    · obtain ⟨q, m, hq, hqi, hm, -⟩ := h.below i n hn hi
      -- the root reaches the parent, and the parent reaches `i`
      have hpar : t.parent i = some q := by rw [parent_of_get? hn, hq]
      exact (ih q hqi hm).snoc hpar

/-- The children of two different nodes of one level have disjoint subtrees:
a node below one sibling is never below the other. -/
theorem not_below_sibling (hc : t.parent c = some a) (hc' : t.parent d = some a) (hne : c ≠ d) :
    ¬ t.Below c d := by
  intro hb
  obtain ⟨na, hna⟩ := h.get?_parent hc
  obtain ⟨nc, hnc, -⟩ := get?_of_parent hc
  obtain ⟨nd, hnd, -⟩ := get?_of_parent hc'
  have h1 := h.depth_child hc hnc hna
  have h2 := h.depth_child hc' hnd hna
  obtain ⟨-, heq⟩ := h.depth_of_below hb hnc hnd
  exact hne (heq (by omega))

/-- **The nodes above a node lie on one line**: of two nodes that both have
`d` in their subtree, one has the other in its subtree. -/
theorem below_total (h₁ : t.Below a d) (h₂ : t.Below c d) : t.Below a c ∨ t.Below c a := by
  induction d using Nat.strongRecOn generalizing a c with
  | _ d ih =>
    rcases below_last h₁ with rfl | ⟨q, hq, hbq⟩
    · exact Or.inr h₂
    · rcases below_last h₂ with rfl | ⟨q', hq', hbq'⟩
      · exact Or.inl h₁
      · rw [hq] at hq'
        cases hq'
        -- both climb through the parent of `d`, which comes earlier
        exact ih q (h.parent_lt hq) hbq hbq'

/-- The subtrees of two different children of one node are disjoint. -/
theorem below_disjoint (hc : t.parent c = some a) (hc' : t.parent d = some a) (hne : c ≠ d)
    (h₁ : t.Below c i) (h₂ : t.Below d i) : False := by
  rcases h.below_total h₁ h₂ with hb | hb
  · exact h.not_below_sibling hc hc' hne hb
  · exact h.not_below_sibling hc' hc (Ne.symm hne) hb

end Shaped

end DirTree

end ReadingOrder
