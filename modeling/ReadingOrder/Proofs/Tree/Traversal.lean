import ReadingOrder.Proofs.Tree.PreOrder
import Mathlib.Logic.Relation
/-!
# Pre-order is the recursive traversal

`preOrder` keeps a stack: it pops a node, lists it, and pushes the node's
children so that the first child is popped next. Read recursively, the
pre-order of a node is the node followed by the pre-orders of its children in
their stored order (`Preorders`, said of a list of nodes so that no nesting
is needed). The two agree on every tree `insert` builds: the stack is always
a list of nodes whose subtrees are apart, and the rest of the walk lists
exactly their subtrees one after the other, which is the recursive reading
of the stack (`Shaped.preOrderWalk_preorders`).

The recursive reading has one answer at most (`Preorders.unique`), so the
walk *is* the recursive pre-order. Each pop lists one node and the walk has
as many pops as nodes, and more pops change nothing: the stack runs empty
before the walk's bound (`Shaped.preOrderWalk_of_size_le`). A subtree, read
down the children lists (`Descends`), is one run of the pre-order headed by
its top, and a node comes after its parent.
-/

namespace ReadingOrder

namespace DirTree

variable {t : DirTree} {S A B L l r : List Nat} {a c d x : Nat}

/-- **The recursive pre-order of a list of nodes**: `t.Preorders S l` says
that `l` lists the subtrees of the nodes of `S` one after another, a subtree
as its top followed by the subtrees of the top's children in order. On one
node this is `pre n = n :: concat (map pre (children n))`. -/
inductive Preorders (t : DirTree) : List Nat → List Nat → Prop
  | nil : t.Preorders [] []
  | cons {n : Nat} {S l r : List Nat} :
      t.Preorders (t.children n) l → t.Preorders S r → t.Preorders (n :: S) (n :: (l ++ r))

/-- **The subtree of `a` read down the children lists**: `a` itself, and
what lies below the nodes listed as its children. -/
def Descends (t : DirTree) (a d : Nat) : Prop :=
  Relation.ReflTransGen (fun x y => y ∈ t.children x) a d

@[simp] theorem preOrderWalk_nil (fuel : Nat) : t.preOrderWalk fuel [] = [] := by
  cases fuel <;> rfl

namespace Preorders

/-- The pre-orders of two lists of nodes, one after the other, are the
pre-order of the two lists joined. -/
theorem append (hA : t.Preorders A l) (hB : t.Preorders B r) : t.Preorders (A ++ B) (l ++ r) := by
  induction hA with
  | nil => exact hB
  | cons hc _ _ ih =>
    rw [List.cons_append, List.cons_append, List.append_assoc]
    exact cons hc ih

/-- **The pre-order of a joined list splits** where the list does. -/
theorem of_append : ∀ {A : List Nat} {L : List Nat}, t.Preorders (A ++ B) L →
    ∃ l r, L = l ++ r ∧ t.Preorders A l ∧ t.Preorders B r
  | [], L, h => ⟨[], L, rfl, nil, h⟩
  | n :: A, _, h => by
    cases h with
    | cons hc hrest =>
      obtain ⟨l, r, rfl, hl, hr⟩ := of_append hrest
      refine ⟨n :: (_ ++ l), r, ?_, cons hc hl, hr⟩
      rw [List.cons_append, List.append_assoc]

/-- **The recursive pre-order has one answer at most.** -/
theorem unique (h : t.Preorders S l) (h' : t.Preorders S L) : l = L := by
  induction h generalizing L with
  | nil =>
    cases h'
    rfl
  | cons _ _ ihc ihs =>
    cases h' with
    | cons hc' hs' => rw [ihc hc', ihs hs']

/-- **The recursive pre-order lists the subtrees**: what it lists is what
lies below the nodes it starts from. -/
theorem mem_iff (h : t.Preorders S l) : x ∈ l ↔ ∃ s ∈ S, t.Descends s x := by
  induction h with
  | nil => simp
  | @cons n S l r _ _ ihc ihs =>
    -- below `n` is `n` itself or what lies below one of its children
    have hn : t.Descends n x ↔ n = x ∨ ∃ c ∈ t.children n, t.Descends c x :=
      Relation.ReflTransGen.cases_head_iff
    rw [List.mem_cons, List.mem_append, ihc, ihs]
    simp only [List.mem_cons, exists_eq_or_imp, hn]
    constructor
    · rintro (rfl | h | h)
      · exact Or.inl (Or.inl rfl)
      · exact Or.inl (Or.inr h)
      · exact Or.inr h
    · rintro ((rfl | h) | h)
      · exact Or.inl rfl
      · exact Or.inr (Or.inl h)
      · exact Or.inr (Or.inr h)

end Preorders

namespace Shaped

variable (h : t.Shaped)
include h

/-- **Down the children lists is down the parent links.** -/
theorem descends_iff_below : t.Descends a d ↔ t.Below a d := by
  constructor
  · intro hd
    induction hd using Relation.ReflTransGen.head_induction_on with
    | refl => exact Below.refl d
    | head hc _ ih => exact Below.child (h.mem_children_iff.1 hc) ih
  · intro hb
    induction hb with
    | refl => exact Relation.ReflTransGen.refl
    | child hc _ ih => exact Relation.ReflTransGen.head (h.mem_children_iff.2 hc) ih

/-- The stack a walk starts from holds a node. -/
theorem root_stack : ∀ s ∈ [0], s < t.size := fun _ hs => List.mem_singleton.1 hs ▸ h.size_pos

/-- **The walk lists the recursive pre-order of its stack**, when the
subtrees on the stack are apart and the fuel is what lies below them. -/
theorem preOrderWalk_preorders (n : Nat) : ∀ S : List Nat, (∀ s ∈ S, s < t.size) →
    S.Pairwise (fun x y => ∀ d, t.Below x d → ¬ t.Below y d) → t.belowCount S = n →
    t.Preorders S (t.preOrderWalk n S) := by
  induction n with
  | zero =>
    intro S hS _ hcard
    obtain rfl := eq_nil_of_belowCount hS hcard
    rw [preOrderWalk_nil]
    exact Preorders.nil
  | succ n ih =>
    intro S hS hapart hcard
    match S with
    | [] => simp at hcard
    | a :: rest =>
      -- the pop lists `a`; what is pushed in its place is its children, then the rest
      have hpush := h.belowCount_push (hS a List.mem_cons_self) hapart
      obtain ⟨l, r, hlr, hl, hr⟩ :=
        (ih _ (h.lt_size_of_mem_push hS) (h.apart_push hapart) (by omega)).of_append
      rw [preOrderWalk, hlr]
      exact Preorders.cons hl hr

/-- **Pre-order is the recursive pre-order of the root.** -/
theorem preOrder_preorders : t.Preorders [0] t.preOrder :=
  h.preOrderWalk_preorders t.size [0] h.root_stack (List.pairwise_singleton _ _)
    (h.belowCount_of_mem_zero (List.mem_singleton_self 0))

/-- **The walk ends within its bound**: more fuel lists nothing more, so the
stack has run empty by then. -/
theorem preOrderWalk_of_size_le {fuel : Nat} (hf : t.size ≤ fuel) :
    t.preOrderWalk fuel [0] = t.preOrder := by
  obtain ⟨m, rfl⟩ := Nat.exists_eq_add_of_le hf
  have happ := h.preOrderWalk_append t.size [0] h.root_stack (List.pairwise_singleton _ _)
    (h.belowCount_of_mem_zero (List.mem_singleton_self 0)) m []
  rw [List.append_nil, preOrderWalk_nil, List.append_nil] at happ
  exact happ

/-- **A subtree is one run of the pre-order**, the recursive pre-order of its
top, which heads it. -/
theorem preOrder_segment (hd : d < t.size) :
    ∃ pre sub post, t.preOrder = pre ++ d :: sub ++ post ∧ t.Preorders [d] (d :: sub) := by
  obtain ⟨n, hn⟩ := exists_get?_of_lt hd
  obtain ⟨pre, post, hpo⟩ := h.preOrderWalk_subtree t.size [0] h.root_stack
    (List.pairwise_singleton _ _) (h.belowCount_of_mem_zero (List.mem_singleton_self 0)) d
    ⟨0, List.mem_singleton_self 0, h.below_zero hn⟩
  have hsub := h.preOrderWalk_preorders _ [d] (fun s hs => List.mem_singleton.1 hs ▸ hd)
    (List.pairwise_singleton _ _) rfl
  -- the walk from `d` alone has `d` below it, so it pops `d` first
  obtain ⟨k, hk⟩ : ∃ k, t.belowCount [d] = k + 1 :=
    Nat.exists_eq_succ_of_ne_zero (belowCount_pos (List.mem_singleton_self d) hd).ne'
  rw [hk, preOrderWalk] at hpo hsub
  exact ⟨pre, _, post, hpo, hsub⟩

/-- **A node comes after its parent** in pre-order. -/
theorem preOrder_parent_before (hc : t.parent c = some a) : [a, c].Sublist t.preOrder := by
  obtain ⟨na, hna⟩ := h.get?_parent hc
  obtain ⟨pre, sub, post, hpo, hsub⟩ := h.preOrder_segment (lt_size_of_get? hna)
  have hmem : c ∈ a :: sub := hsub.mem_iff.2
    ⟨a, List.mem_singleton_self a, Relation.ReflTransGen.single (h.mem_children_iff.2 hc)⟩
  have hcs : c ∈ sub := (List.mem_cons.1 hmem).resolve_left (h.parent_lt hc).ne'
  rw [hpo]
  exact ((List.singleton_sublist.2 hcs).cons_cons a).trans
    ((List.sublist_append_right pre _).trans (List.sublist_append_left _ post))

end Shaped

/-- **The stack walk is the recursive pre-order, and it ends.** On every tree
a run of inserts builds, the walk's bound is never reached (more fuel changes
nothing); its list is the one answer of the recursive pre-order from the
root; it lists every node exactly once, each node after its parent; and the
subtree of every node, read down the children lists, is one run of it that
starts at that node and is that node's recursive pre-order. -/
theorem preOrder_eq_recursive {root : String} (h : t.Reachable root) :
    (∀ fuel, t.size ≤ fuel → t.preOrderWalk fuel [0] = t.preOrder) ∧
    (∀ l, t.Preorders [0] l ↔ l = t.preOrder) ∧
    t.preOrder.Perm (List.range t.size) ∧
    (∀ a c, t.parent c = some a → [a, c].Sublist t.preOrder) ∧
    ∀ d < t.size, ∃ pre sub post, t.preOrder = pre ++ d :: sub ++ post ∧
      t.Preorders [d] (d :: sub) ∧ ∀ x, x ∈ d :: sub ↔ t.Descends d x := by
  have hs := h.shaped
  refine ⟨fun _ hf => hs.preOrderWalk_of_size_le hf, fun l => ?_, hs.preOrder_perm,
    fun _ _ hc => hs.preOrder_parent_before hc, fun d hd => ?_⟩
  · constructor
    · intro hl
      exact hl.unique hs.preOrder_preorders
    · rintro rfl
      exact hs.preOrder_preorders
  · obtain ⟨pre, sub, post, hpo, hsub⟩ := hs.preOrder_segment hd
    refine ⟨pre, sub, post, hpo, hsub, fun x => ?_⟩
    rw [hsub.mem_iff]
    simp

/-- The tree of `/r` after `b`, then `a`, then `b/1` were inserted, so that
the arena order differs from the pre-order. -/
def lettered : DirTree :=
  ((((new "/r").insert 0 "/r/b").1.insert 0 "/r/a").1.insert 1 "/r/b/1").1

theorem lettered_reachable : lettered.Reachable "/r" :=
  .insert 1 "/r/b/1" (.insert 0 "/r/a" (.insert 0 "/r/b" .new))

example : lettered.preOrder = [0, 1, 3, 2] := by decide +kernel

/-- The lettered tree is one the theorem covers. -/
theorem lettered_preOrder_recursive :
    lettered.Reachable "/r" ∧
    (∀ fuel, lettered.size ≤ fuel → lettered.preOrderWalk fuel [0] = lettered.preOrder) ∧
    (∀ l, lettered.Preorders [0] l ↔ l = lettered.preOrder) ∧
    lettered.preOrder.Perm (List.range lettered.size) ∧
    (∀ a c, lettered.parent c = some a → [a, c].Sublist lettered.preOrder) ∧
    ∀ d < lettered.size, ∃ pre sub post, lettered.preOrder = pre ++ d :: sub ++ post ∧
      lettered.Preorders [d] (d :: sub) ∧ ∀ x, x ∈ d :: sub ↔ lettered.Descends d x :=
  ⟨lettered_reachable, preOrder_eq_recursive lettered_reachable⟩

end DirTree

end ReadingOrder
