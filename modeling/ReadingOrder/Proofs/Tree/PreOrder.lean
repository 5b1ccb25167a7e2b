import ReadingOrder.Proofs.Tree.Subtree
import Mathlib.Data.Finset.Card
/-!
# Pre-order visits every node once

`preOrder` pops a node off a stack, lists it and pushes its children in its
place, with as many pops as the tree has nodes. In a tree with the shape
`insert` gives, the subtrees of the nodes on the stack never overlap: at the
start the stack is the root alone, and a node is replaced by its children,
whose subtrees are disjoint and make up the node's own subtree less the node.
So each pop lists a node not listed before and takes exactly one node off
what is left to list, and the fuel is exactly enough. Every node lies below
the root, so the walk lists every node once (`Shaped.preOrder_perm`).
-/

namespace ReadingOrder

namespace DirTree

variable {t : DirTree} {a d : Nat}

/-- The number of nodes that lie below some node of a stack: what a walk
from the stack has left to list. -/
noncomputable def belowCount (t : DirTree) (S : List Nat) : Nat :=
  open Classical in ((Finset.range t.size).filter fun d => ∃ s ∈ S, t.Below s d).card

section Count

variable {S S' : List Nat} {s : Nat}

open Classical in
theorem belowCount_le (S : List Nat) : t.belowCount S ≤ t.size := by
  unfold belowCount
  exact (Finset.card_filter_le _ _).trans_eq (Finset.card_range _)

open Classical in
theorem belowCount_pos (hs : s ∈ S) (hlt : s < t.size) : 0 < t.belowCount S := by
  unfold belowCount
  exact Finset.card_pos.2 ⟨s, Finset.mem_filter.2 ⟨Finset.mem_range.2 hlt, s, hs, Below.refl s⟩⟩

open Classical in
@[simp] theorem belowCount_nil : t.belowCount [] = 0 := by
  unfold belowCount
  simp

/-- A stack with nothing below it is empty. -/
theorem eq_nil_of_belowCount (hS : ∀ s ∈ S, s < t.size) (h0 : t.belowCount S = 0) : S = [] := by
  cases S with
  | nil => rfl
  | cons s S => exact absurd h0 (belowCount_pos List.mem_cons_self (hS s List.mem_cons_self)).ne'

open Classical in
theorem belowCount_mono (hsub : ∀ s ∈ S, s ∈ S') : t.belowCount S ≤ t.belowCount S' := by
  unfold belowCount
  exact Finset.card_le_card (Finset.monotone_filter_right _ fun x _ ⟨s, hs, hsx⟩ => ⟨s, hsub s hs, hsx⟩)

end Count

namespace Shaped

variable (h : t.Shaped)
include h

/-- **One step down a subtree**: a node below `a` is `a`, or lies below a
child of `a`. -/
theorem below_iff : t.Below a d ↔ a = d ∨ ∃ c ∈ t.children a, t.Below c d := by
  constructor
  · intro hb
    cases hb with
    | refl => exact Or.inl rfl
    | child hc hcd => exact Or.inr ⟨_, h.mem_children_iff.2 hc, hcd⟩
  · rintro (rfl | ⟨c, hc, hcd⟩)
    · exact Below.refl a
    · exact Below.child (h.mem_children_iff.1 hc) hcd

/-- Pushing the children of `a` in its place keeps the subtrees on a stack
apart. -/
theorem apart_push {rest : List Nat}
    (hS : (a :: rest).Pairwise fun x y => ∀ d, t.Below x d → ¬ t.Below y d) :
    (t.children a ++ rest).Pairwise fun x y => ∀ d, t.Below x d → ¬ t.Below y d := by
  rw [List.pairwise_append]
  refine ⟨?_, List.Pairwise.of_cons hS, fun c hc r hr d hcd hrd => ?_⟩
  · refine (h.nodup_children a).imp_of_mem fun hc hc' hne d hd hd' => ?_
    exact h.below_disjoint (h.mem_children_iff.1 hc) (h.mem_children_iff.1 hc') hne hd hd'
  · -- what lies below a child of `a` lies below `a`
    exact List.rel_of_pairwise_cons hS hr d (Below.child (h.mem_children_iff.1 hc) hcd) hrd

/-- The top of a stack lies below nothing pushed in its place. -/
theorem not_below_push {rest : List Nat}
    (hS : (a :: rest).Pairwise fun x y => ∀ d, t.Below x d → ¬ t.Below y d) :
    ¬ ∃ s ∈ t.children a ++ rest, t.Below s a := by
  rintro ⟨s, hs, hsa⟩
  rcases List.mem_append.1 hs with hc | hr
  · exact Nat.lt_irrefl _ (Nat.lt_of_lt_of_le (h.parent_lt (h.mem_children_iff.1 hc)) (h.le_of_below hsa))
  · exact List.rel_of_pairwise_cons hS hr a (Below.refl a) hsa

/-- **Below the stack after one pop** lies what lay below it before, less
the node popped. -/
theorem below_push_iff {rest : List Nat}
    (hS : (a :: rest).Pairwise fun x y => ∀ d, t.Below x d → ¬ t.Below y d) :
    (∃ s ∈ t.children a ++ rest, t.Below s d) ↔ (∃ s ∈ a :: rest, t.Below s d) ∧ d ≠ a := by
  constructor
  · rintro ⟨s, hs, hsd⟩
    refine ⟨?_, ?_⟩
    · rcases List.mem_append.1 hs with hc | hr
      · exact ⟨a, List.mem_cons_self, Below.child (h.mem_children_iff.1 hc) hsd⟩
      · exact ⟨s, List.mem_cons_of_mem _ hr, hsd⟩
    · rintro rfl
      exact h.not_below_push hS ⟨s, hs, hsd⟩
  · rintro ⟨⟨s, hs, hsd⟩, hda⟩
    rcases List.mem_cons.1 hs with rfl | hr
    · rcases (h.below_iff).1 hsd with rfl | ⟨c, hc, hcd⟩
      · exact absurd rfl hda
      · exact ⟨c, List.mem_append_left _ hc, hcd⟩
    · exact ⟨s, List.mem_append_right _ hr, hsd⟩

/-- The nodes pushed in place of `a` are nodes. -/
theorem lt_size_of_mem_push {rest : List Nat} (hS : ∀ s ∈ a :: rest, s < t.size) :
    ∀ s ∈ t.children a ++ rest, s < t.size := by
  intro s hs
  rcases List.mem_append.1 hs with hc | hr
  · obtain ⟨n, hn, -⟩ := get?_of_parent (h.mem_children_iff.1 hc)
    exact lt_size_of_get? hn
  · exact hS s (List.mem_cons_of_mem _ hr)

open Classical in
/-- **A pop takes exactly one node off what is left to list**: below the
children of `a` and the rest of the stack lies what lay below `a` and the
rest, less `a`. -/
theorem belowCount_push {rest : List Nat} (ha : a < t.size)
    (hS : (a :: rest).Pairwise fun x y => ∀ d, t.Below x d → ¬ t.Below y d) :
    t.belowCount (t.children a ++ rest) + 1 = t.belowCount (a :: rest) := by
  unfold belowCount
  have herase : ((Finset.range t.size).filter fun d => ∃ s ∈ t.children a ++ rest, t.Below s d) =
      ((Finset.range t.size).filter fun d => ∃ s ∈ a :: rest, t.Below s d).erase a := by
    ext d
    rw [Finset.mem_erase, Finset.mem_filter, Finset.mem_filter, h.below_push_iff hS]
    tauto
  have hmem : a ∈ (Finset.range t.size).filter fun d => ∃ s ∈ a :: rest, t.Below s d :=
    Finset.mem_filter.2 ⟨Finset.mem_range.2 ha, a, List.mem_cons_self, Below.refl a⟩
  rw [herase, Finset.card_erase_of_mem hmem]
  have := Finset.card_pos.2 ⟨a, hmem⟩
  omega

open Classical in
/-- Every node lies below a stack that holds the root. -/
theorem belowCount_of_mem_zero {S : List Nat} (h0 : 0 ∈ S) : t.belowCount S = t.size := by
  refine le_antisymm (belowCount_le S) ?_
  unfold belowCount
  calc t.size = (Finset.range t.size).card := (Finset.card_range _).symm
    _ ≤ _ := Finset.card_le_card fun x hx => Finset.mem_filter.2 ⟨hx, 0, h0,
      h.below_zero (exists_get?_of_lt (Finset.mem_range.1 hx)).choose_spec⟩

/-- **The walk lists each node below the stack once**, when the subtrees on
the stack are apart and the fuel covers them. -/
theorem preOrderWalk_spec (fuel : Nat) : ∀ S : List Nat, (∀ s ∈ S, s < t.size) →
    S.Pairwise (fun x y => ∀ d, t.Below x d → ¬ t.Below y d) → t.belowCount S ≤ fuel →
    (t.preOrderWalk fuel S).Nodup ∧ ∀ d, d ∈ t.preOrderWalk fuel S ↔ ∃ s ∈ S, t.Below s d := by
  induction fuel with
  | zero =>
    intro S hS _ hcard
    -- no fuel: the stack has nothing below it, so it is empty
    obtain rfl := eq_nil_of_belowCount hS (Nat.le_zero.1 hcard)
    exact ⟨List.nodup_nil, fun d => ⟨fun hd => absurd hd List.not_mem_nil,
      fun ⟨_, hs, _⟩ => absurd hs List.not_mem_nil⟩⟩
  | succ fuel ih =>
    intro S hS hapart hcard
    match S with
    | [] => exact ⟨List.nodup_nil, fun d => ⟨fun hd => absurd hd List.not_mem_nil,
        fun ⟨_, hs, _⟩ => absurd hs List.not_mem_nil⟩⟩
    | a :: rest =>
      -- the pop takes exactly the node `a` off what is left to list
      have hpush := h.belowCount_push (hS a List.mem_cons_self) hapart
      obtain ⟨hnd, hmem⟩ := ih (t.children a ++ rest) (h.lt_size_of_mem_push hS) (h.apart_push hapart)
        (by omega)
      refine ⟨List.nodup_cons.2 ⟨fun ha' => h.not_below_push hapart ((hmem a).1 ha'), hnd⟩,
        fun d => ?_⟩
      rw [preOrderWalk, List.mem_cons, hmem d, h.below_push_iff hapart]
      by_cases hda : d = a
      · subst hda
        exact ⟨fun _ => ⟨d, List.mem_cons_self, Below.refl d⟩, fun _ => Or.inl rfl⟩
      · exact ⟨fun hd => (hd.resolve_left hda).1, fun hd => Or.inr ⟨hd, hda⟩⟩

/-- **The walk finishes below the top of its stack first**: with exactly as
much fuel as there are nodes below `S`, it lists those, and it then goes on
with what lies under `S` on the stack. -/
theorem preOrderWalk_append (n : Nat) : ∀ S : List Nat, (∀ s ∈ S, s < t.size) →
    S.Pairwise (fun x y => ∀ d, t.Below x d → ¬ t.Below y d) → t.belowCount S = n →
    ∀ m R, t.preOrderWalk (n + m) (S ++ R) = t.preOrderWalk n S ++ t.preOrderWalk m R := by
  induction n with
  | zero =>
    intro S hS _ hcard m R
    obtain rfl := eq_nil_of_belowCount hS hcard
    rw [Nat.zero_add, List.nil_append, preOrderWalk, List.nil_append]
  | succ n ih =>
    intro S hS hapart hcard m R
    match S with
    | [] => simp at hcard
    | a :: rest =>
      have hpush := h.belowCount_push (hS a List.mem_cons_self) hapart
      rw [Nat.add_right_comm, List.cons_append, preOrderWalk, preOrderWalk, ← List.append_assoc,
        ih _ (h.lt_size_of_mem_push hS) (h.apart_push hapart) (by omega) m R, List.cons_append]

/-- **The nodes below a node are one run of the walk**, the walk from that
node alone, when the node lies below the stack the walk starts from. -/
theorem preOrderWalk_subtree (fuel : Nat) : ∀ S : List Nat, (∀ s ∈ S, s < t.size) →
    S.Pairwise (fun x y => ∀ d, t.Below x d → ¬ t.Below y d) → t.belowCount S = fuel →
    ∀ d, (∃ s ∈ S, t.Below s d) →
      ∃ pre post, t.preOrderWalk fuel S = pre ++ t.preOrderWalk (t.belowCount [d]) [d] ++ post := by
  induction fuel with
  | zero =>
    intro S hS _ hcard d ⟨s, hs, _⟩
    obtain rfl := eq_nil_of_belowCount hS hcard
    exact absurd hs List.not_mem_nil
  | succ fuel ih =>
    intro S hS hapart hcard d hd
    match S with
    | [] => exact absurd hd.choose_spec.1 List.not_mem_nil
    | a :: rest =>
      by_cases hda : d = a
      · -- the walk from `a` alone comes first
        subst hda
        have hle : t.belowCount [d] ≤ fuel + 1 :=
          hcard ▸ belowCount_mono fun s hs => List.mem_cons.2 (Or.inl (List.mem_singleton.1 hs))
        have happ := h.preOrderWalk_append _ [d]
          (fun s hs => List.mem_singleton.1 hs ▸ hS d List.mem_cons_self) (List.pairwise_singleton _ _)
          rfl (fuel + 1 - t.belowCount [d]) rest
        rw [Nat.add_sub_cancel' hle, List.singleton_append] at happ
        exact ⟨[], _, by rw [happ, List.nil_append]⟩
      · -- otherwise `d` lies below what is pushed in place of `a`
        have hpush := h.belowCount_push (hS a List.mem_cons_self) hapart
        obtain ⟨pre, post, hw⟩ := ih (t.children a ++ rest) (h.lt_size_of_mem_push hS)
          (h.apart_push hapart) (by omega) d ((h.below_push_iff hapart).2 ⟨hd, hda⟩)
        exact ⟨a :: pre, post, by rw [preOrderWalk, hw]; rfl⟩

/-- **Pre-order lists every node exactly once.** -/
theorem preOrder_perm : t.preOrder.Perm (List.range t.size) := by
  have hall : ∀ d, (∃ s ∈ [0], t.Below s d) ↔ d < t.size := by
    intro d
    constructor
    · rintro ⟨s, hs, hsd⟩
      rw [List.mem_singleton] at hs
      subst hs
      rcases below_last hsd with rfl | ⟨q, hq, -⟩
      · exact h.size_pos
      · obtain ⟨n, hn, -⟩ := get?_of_parent hq
        exact lt_size_of_get? hn
    · intro hd
      obtain ⟨n, hn⟩ := exists_get?_of_lt hd
      exact ⟨0, List.mem_singleton_self 0, h.below_zero hn⟩
  obtain ⟨hnd, hmem⟩ := h.preOrderWalk_spec t.size [0] (fun s hs => by
      rw [List.mem_singleton.1 hs]
      exact h.size_pos)
    (List.pairwise_singleton _ _) (belowCount_le [0])
  refine (List.perm_ext_iff_of_nodup hnd List.nodup_range).2 fun d => ?_
  rw [List.mem_range, ← hall d]
  exact hmem d

/-- **A subtree is one run of the pre-order**, headed by its top: the
pre-order is some nodes, then `d` and the nodes below it, then more nodes,
none of which lies below `d`. -/
theorem preOrder_subtree (hd : d < t.size) :
    ∃ pre rest post, t.preOrder = pre ++ d :: rest ++ post ∧ (∀ x, x ∈ d :: rest ↔ t.Below d x) ∧
      ∀ x ∈ pre ++ post, ¬ t.Below d x := by
  obtain ⟨n, hn⟩ := exists_get?_of_lt hd
  -- every node lies below the root, so the pre-order walk starts with all of them to list
  obtain ⟨pre, post, hpo⟩ := h.preOrderWalk_subtree t.size [0] (fun s hs => by
      rw [List.mem_singleton.1 hs]
      exact h.size_pos)
    (List.pairwise_singleton _ _) (h.belowCount_of_mem_zero (List.mem_singleton_self 0)) d
    ⟨0, List.mem_singleton_self 0, h.below_zero hn⟩
  obtain ⟨-, hmem⟩ := h.preOrderWalk_spec _ [d] (fun s hs => List.mem_singleton.1 hs ▸ hd)
    (List.pairwise_singleton _ _) le_rfl
  -- the walk from `d` alone starts with `d`
  obtain ⟨k, hk⟩ : ∃ k, t.belowCount [d] = k + 1 :=
    Nat.exists_eq_succ_of_ne_zero (belowCount_pos (List.mem_singleton_self d) hd).ne'
  rw [hk, preOrderWalk] at hpo hmem
  refine ⟨pre, _, post, hpo, fun x => by rw [hmem x]; simp, fun x hx hdx => ?_⟩
  have hall : (pre ++ d :: t.preOrderWalk k (t.children d ++ []) ++ post).Nodup :=
    hpo ▸ h.preOrder_perm.nodup_iff.2 List.nodup_range
  have hin : x ∈ d :: t.preOrderWalk k (t.children d ++ []) :=
    (hmem x).2 ⟨d, List.mem_singleton_self d, hdx⟩
  obtain ⟨hleft, -, hdis⟩ := List.nodup_append.1 hall
  rcases List.mem_append.1 hx with hpre | hpost
  · exact List.disjoint_of_nodup_append hleft hpre hin
  · exact hdis x (List.mem_append_right _ hin) x hpost rfl

/-- The nodes in pre-order are the nodes of the tree. -/
theorem mem_nodes {n : DirNode} : n ∈ t.preOrder.filterMap t.get? ↔ ∃ i, t.get? i = some n := by
  rw [List.mem_filterMap]
  constructor
  · rintro ⟨i, -, hi⟩
    exact ⟨i, hi⟩
  · rintro ⟨i, hi⟩
    exact ⟨i, h.preOrder_perm.mem_iff.2 (List.mem_range.2 (lt_size_of_get? hi)), hi⟩

/-- **The nodes in pre-order have distinct paths.** -/
theorem nodes_pairwise :
    (t.preOrder.filterMap t.get?).Pairwise fun a b => a.identifier ≠ b.identifier := by
  refine List.Pairwise.filterMap _ (fun i j hij a ha b hb hab => ?_)
    (h.preOrder_perm.nodup_iff.2 List.nodup_range)
  exact hij (h.unique i j a b ha hb (by rw [hab]; exact Path.same_refl _))

end Shaped

end DirTree

end ReadingOrder
