import ReadingOrder.Proofs.Tree.Traversal
/-!
# Ancestry by parent links is ancestry by subtrees

`isAncestorOf a d` climbs the parent links from `d` until it meets `a` or
falls off the root. The positions it visits are the positions some steps
above `d` (`above`), so it holds exactly when `a` is one of them
(`isAncestorOf_eq_true_iff_above`). On a tree `insert` builds, each step
climbs to an earlier node one level up, so `t.size` steps always leave the
tree (`Shaped.above_size`): the climb ends, and the bound the walk carries
is never what stops it. A position some steps above `d` is a node whose
subtree holds `d`, and every such node is that many levels above `d`. So
ancestry is lying strictly above in the subtree order, read down the
children lists or, equally, as a later place in the node's run of the
pre-order.
-/

namespace ReadingOrder

namespace DirTree

variable {t : DirTree} {a b d : Nat} {na nd : DirNode}

/-- **The position `k` parent steps above `d`**; none once the steps have
left the tree. -/
def above (t : DirTree) (d : Nat) : Nat → Option Nat
  | 0 => some d
  | k + 1 => (t.above d k).bind t.parent

@[simp] theorem above_zero : t.above d 0 = some d := rfl

theorem above_succ (k : Nat) : t.above d (k + 1) = (t.above d k).bind t.parent := rfl

theorem above_one : t.above d 1 = t.parent d := rfl

/-- Once off the tree, the climb stays off. -/
theorem above_eq_none_of_le {j k : Nat} (hj : t.above d j = none) (hjk : j ≤ k) :
    t.above d k = none := by
  induction k, hjk using Nat.le_induction with
  | base => exact hj
  | succ k _ ih => rw [above_succ, ih, Option.bind_none]

/-- **The climb meets `a` exactly at some step within its fuel**, counting
from where it starts. -/
theorem climbsTo_above_iff (fuel : Nat) : ∀ j, t.climbsTo a fuel (t.above d j) = true ↔
    ∃ k, j ≤ k ∧ k < j + fuel ∧ t.above d k = some a := by
  induction fuel with
  | zero =>
    intro j
    constructor
    · intro hc
      cases hc
    · rintro ⟨k, hjk, hk, -⟩
      omega
  | succ fuel ih =>
    intro j
    cases hj : t.above d j with
    | none =>
      constructor
      · intro hc
        cases hc
      · rintro ⟨k, hjk, -, hk⟩
        rw [above_eq_none_of_le hj hjk] at hk
        cases hk
    | some q =>
      -- the climb looks at `q`, then goes on from the step after `j`
      have hnext : t.parent q = t.above d (j + 1) := by rw [above_succ, hj, Option.bind_some]
      rw [climbsTo, hnext, Bool.or_eq_true, ih (j + 1), beq_iff_eq]
      constructor
      · rintro (rfl | ⟨k, hjk, hk, hka⟩)
        · exact ⟨j, le_rfl, by omega, hj⟩
        · exact ⟨k, by omega, by omega, hka⟩
      · rintro ⟨k, hjk, hk, hka⟩
        rcases Nat.eq_or_lt_of_le hjk with rfl | hlt
        · rw [hj] at hka
          exact Or.inl (Option.some.inj hka)
        · exact Or.inr ⟨k, hlt, by omega, hka⟩

/-- **`isAncestorOf a d` holds exactly when `a` is some steps above `d`**,
at least one and at most as many as the tree has nodes. -/
theorem isAncestorOf_eq_true_iff_above :
    t.isAncestorOf a d = true ↔ ∃ k, 1 ≤ k ∧ k ≤ t.size ∧ t.above d k = some a := by
  unfold isAncestorOf
  rw [← above_one, climbsTo_above_iff]
  constructor
  · rintro ⟨k, h1, hk, hka⟩
    exact ⟨k, h1, by omega, hka⟩
  · rintro ⟨k, h1, hk, hka⟩
    exact ⟨k, h1, by omega, hka⟩

/-- What lies some steps above `d` has `d` in its subtree. -/
theorem below_of_above : ∀ {k a : Nat}, t.above d k = some a → t.Below a d
  | 0, _, hk => by
    cases hk
    exact Below.refl d
  | k + 1, _, hk => by
    rw [above_succ] at hk
    obtain ⟨p, hp, hpa⟩ := Option.bind_eq_some_iff.1 hk
    exact Below.child hpa (below_of_above hp)

/-- A subtree holds the subtrees of its nodes. -/
theorem Below.trans (hab : t.Below a b) (hbd : t.Below b d) : t.Below a d := by
  induction hab with
  | refl => exact hbd
  | child hc _ ih => exact Below.child hc (ih hbd)

namespace Shaped

variable (h : t.Shaped)
include h

/-- A step up goes to an earlier node. -/
theorem lt_of_above_succ {k : Nat} (hk : t.above d (k + 1) = some a) : a < d := by
  rw [above_succ] at hk
  obtain ⟨p, hp, hpa⟩ := Option.bind_eq_some_iff.1 hk
  exact Nat.lt_of_lt_of_le (h.parent_lt hpa) (h.le_of_below (below_of_above hp))

/-- **A node is as many steps above `d` as it is levels above it.** -/
theorem above_depth (hb : t.Below a d) (ha : t.get? a = some na) (hd : t.get? d = some nd) :
    t.above d (nd.depth - na.depth) = some a := by
  induction hb generalizing na with
  | refl =>
    rw [ha] at hd
    cases hd
    rw [Nat.sub_self, above_zero]
  | child hc hcd ih =>
    rename_i a c d
    obtain ⟨nc, hnc, -⟩ := get?_of_parent hc
    have hdc := h.depth_child hc hnc ha
    obtain ⟨hle, -⟩ := h.depth_of_below hcd hnc hd
    -- one more step than from `c`, whose parent is `a`
    have hsteps : nd.depth - na.depth = nd.depth - nc.depth + 1 := by omega
    rw [hsteps, above_succ, ih hnc hd, Option.bind_some, hc]

/-- **The climb leaves the tree within as many steps as there are nodes**:
past the root there is no parent. -/
theorem above_size : t.above d t.size = none := by
  cases hd : t.get? d with
  | none =>
    have h1 : t.above d 1 = none := by rw [above_one, parent_of_get?_none hd]
    exact above_eq_none_of_le h1 h.size_pos
  | some nd =>
    obtain ⟨r, hr, hrp, hrd⟩ := h.root
    -- `depth` steps reach the root, and one more leaves the tree
    have hroot := h.above_depth (h.below_zero hd) hr hd
    rw [hrd, Nat.sub_zero] at hroot
    have hoff : t.above d (nd.depth + 1) = none := by
      rw [above_succ, hroot, Option.bind_some, parent_of_get? hr, hrp]
    have hle : nd.depth + 1 ≤ t.size := by
      have := h.depth_le hd
      have := lt_size_of_get? hd
      omega
    exact above_eq_none_of_le hoff hle

/-- **The bound of the climb never decides it**: with at least as much fuel as
nodes, the climb answers as `isAncestorOf` does. -/
theorem climbsTo_of_size_le {fuel : Nat} (hf : t.size ≤ fuel) :
    t.climbsTo a fuel (t.parent d) = t.isAncestorOf a d := by
  rw [Bool.eq_iff_iff, isAncestorOf_eq_true_iff_above, ← above_one, climbsTo_above_iff]
  constructor
  · rintro ⟨k, h1, hk, hka⟩
    -- no step past `t.size` is still in the tree
    refine ⟨k, h1, Nat.not_lt.1 fun hlt => ?_, hka⟩
    rw [above_eq_none_of_le h.above_size hlt.le] at hka
    cases hka
  · rintro ⟨k, h1, hk, hka⟩
    exact ⟨k, h1, by omega, hka⟩

/-- **A node strictly above `d` in its subtree is higher up**: both are
nodes, and the one above has the smaller depth. -/
theorem depth_lt_of_below (hb : t.Below a d) (hne : a ≠ d) (hd : d < t.size) :
    ∃ na nd, t.get? a = some na ∧ t.get? d = some nd ∧ na.depth < nd.depth := by
  obtain ⟨nd, hnd⟩ := exists_get?_of_lt hd
  obtain ⟨na, hna⟩ := exists_get?_of_lt (Nat.lt_of_le_of_lt (h.le_of_below hb) hd)
  obtain ⟨hle, heq⟩ := h.depth_of_below hb hna hnd
  exact ⟨na, nd, hna, hnd, Nat.lt_of_le_of_ne hle fun he => hne (heq he)⟩

/-- **Ancestry is lying strictly above in the subtree order** of parent
links, below a node of the tree. -/
theorem isAncestorOf_iff_below : t.isAncestorOf a d = true ↔ a ≠ d ∧ d < t.size ∧ t.Below a d := by
  rw [isAncestorOf_eq_true_iff_above]
  constructor
  · rintro ⟨k, h1, -, hka⟩
    obtain ⟨k, rfl⟩ := Nat.exists_eq_add_of_le' h1
    refine ⟨(h.lt_of_above_succ hka).ne, ?_, below_of_above hka⟩
    -- a position with no node has no parent to climb to
    refine Nat.not_le.1 fun hle => ?_
    rw [above_eq_none_of_le (by rw [above_one]; exact parent_of_get?_none (get?_eq_none_iff.2 hle))
      (Nat.le_add_left 1 k)] at hka
    cases hka
  · rintro ⟨hne, hd, hb⟩
    obtain ⟨na, nd, hna, hnd, hlt⟩ := h.depth_lt_of_below hb hne hd
    refine ⟨nd.depth - na.depth, by omega, ?_, h.above_depth hb hna hnd⟩
    have := h.depth_le hnd
    omega

/-- Two nodes below each other are the same node. -/
theorem eq_of_below_below (hab : t.Below a b) (hba : t.Below b a) : a = b :=
  Nat.le_antisymm (h.le_of_below hab) (h.le_of_below hba)

/-- **Ancestry read down the children lists**: both are nodes, they differ,
and the descendant lies in the ancestor's subtree. -/
theorem isAncestorOf_iff_descends :
    t.isAncestorOf a d = true ↔ a < t.size ∧ d < t.size ∧ a ≠ d ∧ t.Descends a d := by
  rw [h.isAncestorOf_iff_below, h.descends_iff_below]
  constructor
  · rintro ⟨hne, hd, hb⟩
    exact ⟨Nat.lt_of_le_of_lt (h.le_of_below hb) hd, hd, hne, hb⟩
  · rintro ⟨-, hd, hne, hb⟩
    exact ⟨hne, hd, hb⟩

/-- **Ancestry read in the pre-order**: the descendant comes after the
ancestor inside the ancestor's run of the pre-order. -/
theorem isAncestorOf_iff_segment : t.isAncestorOf a d = true ↔
    ∃ pre sub post, t.preOrder = pre ++ a :: sub ++ post ∧ t.Preorders [a] (a :: sub) ∧ d ∈ sub := by
  rw [h.isAncestorOf_iff_descends]
  constructor
  · rintro ⟨ha, -, hne, hda⟩
    obtain ⟨pre, sub, post, hpo, hsub⟩ := h.preOrder_segment ha
    have hmem : d ∈ a :: sub := hsub.mem_iff.2 ⟨a, List.mem_singleton_self a, hda⟩
    exact ⟨pre, sub, post, hpo, hsub, (List.mem_cons.1 hmem).resolve_left (Ne.symm hne)⟩
  · rintro ⟨pre, sub, post, hpo, hsub, hd⟩
    -- the pre-order lists every node once, so `a` is not repeated in its run
    have hnd : (pre ++ a :: sub ++ post).Nodup := hpo ▸ h.preOrder_perm.nodup_iff.2 List.nodup_range
    have hsize : ∀ x ∈ pre ++ a :: sub ++ post, x < t.size := fun x hx =>
      List.mem_range.1 (h.preOrder_perm.mem_iff.1 (hpo ▸ hx))
    have ha : a ∉ sub := (List.nodup_cons.1 (List.nodup_append.1 (List.nodup_append.1 hnd).1).2.1).1
    refine ⟨hsize a (by simp), hsize d (by simp [hd]), fun he => ha (he ▸ hd), ?_⟩
    obtain ⟨s, hs, hsd⟩ := hsub.mem_iff.1 (List.mem_cons_of_mem a hd)
    rw [List.mem_singleton.1 hs] at hsd
    exact hsd

/-- No node is its own ancestor. -/
theorem isAncestorOf_self (a : Nat) : t.isAncestorOf a a = false := by
  cases hc : t.isAncestorOf a a with
  | false => rfl
  | true => exact absurd rfl ((h.isAncestorOf_iff_below).1 hc).1

/-- **Ancestry is transitive.** -/
theorem isAncestorOf_trans (hab : t.isAncestorOf a b = true) (hbd : t.isAncestorOf b d = true) :
    t.isAncestorOf a d = true := by
  obtain ⟨hne₁, -, hb₁⟩ := (h.isAncestorOf_iff_below).1 hab
  obtain ⟨-, hd, hb₂⟩ := (h.isAncestorOf_iff_below).1 hbd
  refine (h.isAncestorOf_iff_below).2 ⟨fun he => ?_, hd, hb₁.trans hb₂⟩
  -- were `a` the descendant, `a` and `b` would lie below each other
  subst he
  exact hne₁ (h.eq_of_below_below hb₁ hb₂)

/-- **An ancestor is higher up**: it is a node of smaller depth. -/
theorem depth_lt_of_isAncestorOf (had : t.isAncestorOf a d = true) :
    ∃ na nd, t.get? a = some na ∧ t.get? d = some nd ∧ na.depth < nd.depth := by
  obtain ⟨hne, hd, hb⟩ := (h.isAncestorOf_iff_below).1 had
  exact h.depth_lt_of_below hb hne hd

end Shaped

/-- **Ancestry by parent links agrees with subtrees by children lists.** On
every tree a run of inserts builds, and for all positions, valid or not: the
climb leaves the tree within as many steps as there are nodes, so it ends
and its bound never decides it; `isAncestorOf a d` holds exactly when both
are nodes, they differ, and `d` lies in the subtree of `a` down the children
lists, or equally when `d` comes after `a` inside `a`'s run of the
pre-order; and so ancestry is irreflexive, transitive, and goes to a smaller
depth. -/
theorem isAncestorOf_iff_subtree {root : String} (h : t.Reachable root) :
    (∀ d, t.above d t.size = none) ∧
    (∀ a d fuel, t.size ≤ fuel → t.climbsTo a fuel (t.parent d) = t.isAncestorOf a d) ∧
    (∀ a d, t.isAncestorOf a d = true ↔ a < t.size ∧ d < t.size ∧ a ≠ d ∧ t.Descends a d) ∧
    (∀ a d, t.isAncestorOf a d = true ↔ ∃ pre sub post, t.preOrder = pre ++ a :: sub ++ post ∧
      t.Preorders [a] (a :: sub) ∧ d ∈ sub) ∧
    (∀ a, t.isAncestorOf a a = false) ∧
    (∀ a b d, t.isAncestorOf a b = true → t.isAncestorOf b d = true → t.isAncestorOf a d = true) ∧
    ∀ a d, t.isAncestorOf a d = true →
      ∃ na nd, t.get? a = some na ∧ t.get? d = some nd ∧ na.depth < nd.depth :=
  have hs := h.shaped
  ⟨fun _ => hs.above_size, fun _ _ _ hf => hs.climbsTo_of_size_le hf,
    fun _ _ => hs.isAncestorOf_iff_descends, fun _ _ => hs.isAncestorOf_iff_segment,
    hs.isAncestorOf_self, fun _ _ _ => hs.isAncestorOf_trans, fun _ _ => hs.depth_lt_of_isAncestorOf⟩

example : lettered.isAncestorOf 0 3 = true ∧ lettered.isAncestorOf 3 1 = false := by
  decide +kernel

/-- The lettered tree is one the theorem covers. -/
theorem lettered_ancestry :
    lettered.Reachable "/r" ∧
    (∀ d, lettered.above d lettered.size = none) ∧
    (∀ a d fuel, lettered.size ≤ fuel →
      lettered.climbsTo a fuel (lettered.parent d) = lettered.isAncestorOf a d) ∧
    (∀ a d, lettered.isAncestorOf a d = true ↔
      a < lettered.size ∧ d < lettered.size ∧ a ≠ d ∧ lettered.Descends a d) ∧
    (∀ a d, lettered.isAncestorOf a d = true ↔ ∃ pre sub post,
      lettered.preOrder = pre ++ a :: sub ++ post ∧ lettered.Preorders [a] (a :: sub) ∧ d ∈ sub) ∧
    (∀ a, lettered.isAncestorOf a a = false) ∧
    (∀ a b d, lettered.isAncestorOf a b = true → lettered.isAncestorOf b d = true →
      lettered.isAncestorOf a d = true) ∧
    ∀ a d, lettered.isAncestorOf a d = true →
      ∃ na nd, lettered.get? a = some na ∧ lettered.get? d = some nd ∧ na.depth < nd.depth :=
  ⟨lettered_reachable, isAncestorOf_iff_subtree lettered_reachable⟩

end DirTree

end ReadingOrder
