import ReadingOrder.Proofs.Tree.Reorder
import Mathlib.Data.List.Forall2
/-!
# Reordering twice

A reordered tree is already in rule order: reordering it again with the same
rules gives it back node for node, every path at the same position, with the
same parent, depth and children (`reorder_reorder`).

The copy reads its input only through the order it gives each level. At a
node it places the node's children in precedence order, then copies each
child in turn, and it hands out positions in the order it meets paths. So two
inputs that give every node, matched by path, the same level order are copied
into the same tree, position for position (`copyOrdered_sameOrder`), even
though the two inputs number their nodes differently.

A reordered tree and its input are such a pair (`sameOrder_reorder`): each
level of the reordered tree is the precedence order of the matching level of
the input, and a level in precedence order is left in that order by a second
pass (`pinFront_idem`).
-/

namespace ReadingOrder

namespace DirTree

variable {T T' : DirTree} {rules : List Rule} {r : String}

theorem Mirrors.symm {o : DirTree} {i j : Nat} (h : Mirrors T o i j) : Mirrors o T j i := by
  obtain ⟨n, m, hn, hm, hid, hd⟩ := h
  exact ⟨m, n, hm, hn, hid.symm, hd.symm⟩

/-- **Two inputs that give every level the same order**: at nodes of `T` and
`T'` with the same path and depth, the children in precedence order are the
same paths, and each of them names a node in both trees, again with the same
path and depth. -/
structure SameOrder (T T' : DirTree) (rules : List Rule) : Prop where
  level : ∀ i i' n, Mirrors T T' i i' → T.get? i = some n →
    pinFront (T'.childPaths i') rules (n.depth + 1) = pinFront (T.childPaths i) rules (n.depth + 1)
  find : ∀ i i' n, Mirrors T T' i i' → T.get? i = some n →
    ∀ x ∈ pinFront (T.childPaths i) rules (n.depth + 1),
      ∃ c c', T.find x = some c ∧ T'.find x = some c' ∧ Mirrors T T' c c'

/-! ## Placing the same level from two inputs -/

/-- Two placements of a level that agree so far: the same tree, and recorded
pairs that correspond one to one, `P` relating their input nodes and the
output positions equal. -/
def PlacedAlike (P : Nat → Nat → Prop) (acc acc' : DirTree × List (Nat × Nat)) : Prop :=
  acc.1 = acc'.1 ∧ List.Forall₂ (fun a b => P a.1 b.1 ∧ a.2 = b.2) acc.2 acc'.2

/-- A path found in both inputs gets the same leaf in both placements. -/
theorem PlacedAlike.placeStep {P : Nat → Nat → Prop} {outId c c' : Nat} {x : String}
    {acc acc' : DirTree × List (Nat × Nat)} (h : PlacedAlike P acc acc') (hc : T.find x = some c)
    (hc' : T'.find x = some c') (hP : P c c') :
    PlacedAlike P (placeStep T outId acc x) (placeStep T' outId acc' x) := by
  obtain ⟨o, pl⟩ := acc
  obtain ⟨o', pl'⟩ := acc'
  obtain ⟨rfl, hpl⟩ := h
  unfold DirTree.placeStep
  rw [hc, hc']
  dsimp only
  -- the insert is the same on both sides, and so is the position it gives
  rcases o.insert outId x with ⟨o₁, _ | k⟩
  · exact ⟨rfl, hpl⟩
  · exact ⟨rfl, List.rel_append hpl (List.Forall₂.cons ⟨hP, rfl⟩ List.Forall₂.nil)⟩

theorem PlacedAlike.foldl {P : Nat → Nat → Prop} {outId : Nat} :
    ∀ (ps : List String) {acc acc' : DirTree × List (Nat × Nat)}, PlacedAlike P acc acc' →
      (∀ x ∈ ps, ∃ c c', T.find x = some c ∧ T'.find x = some c' ∧ P c c') →
      PlacedAlike P (ps.foldl (DirTree.placeStep T outId) acc)
        (ps.foldl (DirTree.placeStep T' outId) acc')
  | [], _, _, h, _ => h
  | x :: ps, _, _, h, hps => by
    obtain ⟨c, c', hc, hc', hP⟩ := hps x List.mem_cons_self
    exact PlacedAlike.foldl ps (h.placeStep hc hc' hP) fun y hy => hps y (List.mem_cons_of_mem _ hy)

/-! ## Copying from two inputs -/

/-- **The copy reads its input only through the order of its levels**: the
subtrees of two nodes with the same path and depth, in inputs that give every
level the same order, are copied into the same tree, whatever fuel each copy
has, as long as both have enough. -/
theorem copyOrdered_sameOrder (hT : T.Shaped) (hT' : T'.Shaped) (hs : SameOrder T T' rules) :
    ∀ (fuel fuel' : Nat) {i i' : Nat} {n : DirNode}, Mirrors T T' i i' → T.get? i = some n →
      T.size ≤ n.depth + fuel → T'.size ≤ n.depth + fuel' → ∀ out outId,
      copyOrdered T rules fuel i out outId = copyOrdered T' rules fuel' i' out outId := by
  intro fuel
  induction fuel with
  | zero =>
    -- no node is as deep as the tree has nodes
    intro fuel' i i' n _ hn hfuel _ _ _
    have := hT.depth_le hn
    have := lt_size_of_get? hn
    omega
  | succ fuel ih =>
    intro fuel' i i' n hm hn hfuel hfuel' out outId
    obtain ⟨n₀, n', hn₀, hn', -, hd⟩ := id hm
    rw [hn] at hn₀
    cases hn₀
    cases fuel' with
    | zero =>
      have := hT'.depth_le hn'
      have := lt_size_of_get? hn'
      omega
    | succ fuel' =>
      rw [copyOrdered_succ hn, copyOrdered_succ hn', hd, hs.level i i' n hm hn]
      -- the placed children of `i` correspond, and each is one level deeper
      have hplaced : PlacedAlike (fun c c' => Mirrors T T' c c' ∧ T.parent c = some i)
          (placeLevel T outId out (pinFront (T.childPaths i) rules (n.depth + 1)))
          (placeLevel T' outId out (pinFront (T.childPaths i) rules (n.depth + 1))) := by
        rw [placeLevel_eq_foldl, placeLevel_eq_foldl]
        have hstart : PlacedAlike (fun c c' => Mirrors T T' c c' ∧ T.parent c = some i)
            (out, []) (out, []) := ⟨rfl, List.Forall₂.nil⟩
        refine PlacedAlike.foldl _ hstart fun x hx => ?_
        obtain ⟨c, c', hc, hc', hcc'⟩ := hs.find i i' n hm hn x hx
        obtain ⟨c₀, nc, hc₀, hnc, hid⟩ :=
          hT.mem_childPaths.1 ((pinFront_perm (T.childPaths i) rules (n.depth + 1)).subset hx)
        have hfind : T.find x = some c₀ :=
          hT.find_eq_some_iff.2 ⟨nc, hnc, by rw [hid]; exact Path.same_refl _⟩
        rw [hfind] at hc
        cases hc
        exact ⟨c, c', hfind, hc', hcc', hc₀⟩
      obtain ⟨hout, hpairs⟩ := hplaced
      rw [hout]
      refine List.rel_foldl (fun o o' ho a b hab => ?_) rfl hpairs
      obtain ⟨⟨hmab, hpar⟩, hsnd⟩ := hab
      obtain ⟨na, -, hna, -⟩ := id hmab
      have hdepth := hT.depth_child hpar hna hn
      rw [ho, hsnd]
      exact ih fuel' hmab hna (by omega) (by omega) o' b.2

/-! ## A reordered tree and its input -/

/-- A reordered tree keeps the path of its input's root. -/
theorem rootPath_reorder (hTr : T.Reachable r) (rules : List Rule) :
    (T.reorder rules).rootPath = T.rootPath := by
  have hD : Descended T rules (new T.rootPath) (T.reorder rules) (T.Below 0 ·) :=
    reorder_descended hTr
  obtain ⟨rt, m, hrt, hm, hid, -⟩ := hD.grows.mirrors (mirrors_root hTr)
  unfold rootPath
  rw [hm, hrt]
  exact hid

/-- **A reordered tree gives every level the order its input gives it**: its
levels are already in precedence order, and a second pass keeps them so. -/
theorem sameOrder_reorder (hTr : T.Reachable r) (rules : List Rule) :
    SameOrder (T.reorder rules) T rules where
  level j i m hm hj := by
    obtain ⟨i₀, n₀, hn₀, hid₀, hd₀, hch⟩ := reorder_get? hTr rules hj
    obtain ⟨m', n, hm', hn, hid, -⟩ := hm
    rw [hj] at hm'
    cases hm'
    -- the input node of that path is the one `j` copies
    obtain rfl : i₀ = i := hTr.shaped.unique i₀ i n₀ n hn₀ hn (by rw [← hid₀, hid]; exact Path.same_refl _)
    rw [hch, ← hd₀, pinFront_idem]
  find j i m hm hj x hx := by
    have hD : Descended T rules (new T.rootPath) (T.reorder rules) (T.Below 0 ·) :=
      reorder_descended hTr
    have hO := hD.copy.reach.shaped
    obtain ⟨c, nc, -, hnc, hid⟩ :=
      hO.mem_childPaths.1 ((pinFront_perm ((T.reorder rules).childPaths j) rules (m.depth + 1)).subset hx)
    obtain ⟨c', n', hn', hid', hd', -⟩ := reorder_get? hTr rules hnc
    refine ⟨c, c', hO.find_eq_some_iff.2 ⟨nc, hnc, by rw [hid]; exact Path.same_refl _⟩,
      hTr.shaped.find_eq_some_iff.2 ⟨n', hn', by rw [← hid', hid]; exact Path.same_refl _⟩,
      nc, n', hnc, hn', hid'.symm, hd'.symm⟩

/-- **Reordering is idempotent**: reordering a reordered tree with the same
rules gives it back node for node, every path at the same position with the
same parent, depth and children. -/
theorem reorder_reorder (hTr : T.Reachable r) (rules : List Rule) :
    (T.reorder rules).reorder rules = T.reorder rules := by
  have hD : Descended T rules (new T.rootPath) (T.reorder rules) (T.Below 0 ·) :=
    reorder_descended hTr
  -- both copies start from the root, which the reordered tree mirrors at depth `0`
  obtain ⟨rt, m, hrt, hm, hid, hd⟩ := hD.grows.mirrors (mirrors_root hTr)
  rw [reorder.eq_1 (T.reorder rules), rootPath_reorder hTr]
  conv_rhs => rw [reorder.eq_1]
  exact copyOrdered_sameOrder hD.copy.reach.shaped hTr.shaped (sameOrder_reorder hTr rules) _ _
    ⟨m, rt, hm, hrt, hid.symm, hd.symm⟩ hm (by omega) (by omega) _ _

/-- The tree of `/robot` with `src` and then `docs`, reordered twice with a
rule that pins `docs` first, is one the theorem covers. -/
theorem robot_reorder_twice :
    (((new "/robot").insert 0 "/robot/src").1.insert 0 "/robot/docs").1.Reachable "/robot" ∧
    ((((new "/robot").insert 0 "/robot/src").1.insert 0 "/robot/docs").1.reorder
        [⟨"/robot/docs", .directory, 1, "docs"⟩]).reorder [⟨"/robot/docs", .directory, 1, "docs"⟩] =
      (((new "/robot").insert 0 "/robot/src").1.insert 0 "/robot/docs").1.reorder
        [⟨"/robot/docs", .directory, 1, "docs"⟩] :=
  have h : (((new "/robot").insert 0 "/robot/src").1.insert 0 "/robot/docs").1.Reachable "/robot" :=
    .insert 0 "/robot/docs" (.insert 0 "/robot/src" .new)
  ⟨h, reorder_reorder h _⟩

end DirTree

end ReadingOrder
