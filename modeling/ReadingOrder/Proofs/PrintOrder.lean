import ReadingOrder.Proofs.Pinning
import Mathlib.Data.List.Forall2
/-!
# The print order follows the tree

A plan prints its directories in the pre-order of its tree: the sequence has
one entry per node, in pre-order, each with the node's path and depth
(`Sequence.InPreOrder`). Planning builds the sequence by mapping over the
nodes in pre-order, so this is read off the map, once it is known that the
pre-order lists every node once.

Two consequences are what a reader of a plan relies on. The entries are for
distinct directories, so looking a directory up from the front or from the
back finds the same entry. And the files of a subtree are printed together: a
subtree is one run of the pre-order, headed by its top
(`Shaped.preOrder_subtree`), so its entries are one run of the sequence, and
its files one run of the print order, headed by the top's own files
(`plan_prints_in_pre_order`).
-/

namespace ReadingOrder

/-- A successful map in `Except` pairs each element with its value. -/
theorem List.forall₂_of_mapM_eq_ok {ε α β : Type} {f : α → Except ε β} :
    ∀ {l : List α} {l' : List β}, l.mapM f = .ok l' → List.Forall₂ (fun a b => f a = .ok b) l l'
  | [], _, h => by
    cases h
    exact List.Forall₂.nil
  | a :: l, _, h => by
    rw [List.mapM_cons] at h
    obtain ⟨x, hx, h⟩ := Except.bind_eq_ok h
    obtain ⟨xs, hxs, h⟩ := Except.bind_eq_ok h
    cases h
    exact List.Forall₂.cons hx (List.forall₂_of_mapM_eq_ok hxs)

/-- A relation between two lists splits where the left one does. -/
theorem List.forall₂_append_left {α β : Type} {R : α → β → Prop} :
    ∀ {A B : List α} {L : List β}, List.Forall₂ R (A ++ B) L →
      ∃ L₁ L₂, L = L₁ ++ L₂ ∧ List.Forall₂ R A L₁ ∧ List.Forall₂ R B L₂
  | [], _, L, h => ⟨[], L, rfl, List.Forall₂.nil, h⟩
  | _ :: _, _, _, h => by
    obtain ⟨b, L', hab, h', rfl⟩ := List.forall₂_cons_left_iff.1 h
    obtain ⟨L₁, L₂, rfl, h₁, h₂⟩ := List.forall₂_append_left h'
    exact ⟨b :: L₁, L₂, rfl, List.Forall₂.cons hab h₁, h₂⟩

/-- Each element on the right of a relation between two lists is related to
one on the left. -/
theorem List.exists_of_forall₂_mem_right {α β : Type} {R : α → β → Prop} :
    ∀ {l : List α} {l' : List β}, List.Forall₂ R l l' → ∀ b ∈ l', ∃ a ∈ l, R a b
  | _, _, .nil, _, hb => absurd hb List.not_mem_nil
  | _, _, .cons hab h, b, hb => by
    rcases List.mem_cons.1 hb with rfl | hb
    · exact ⟨_, List.mem_cons_self, hab⟩
    · obtain ⟨a, ha, hr⟩ := List.exists_of_forall₂_mem_right h b hb
      exact ⟨a, List.mem_cons_of_mem _ ha, hr⟩

/-- Related lists are pairwise related when the relation carries one pairing
to the other. -/
theorem List.pairwise_of_forall₂ {α β : Type} {R : α → β → Prop} {P : α → α → Prop}
    {Q : β → β → Prop} (hPQ : ∀ a b a' b', R a a' → R b b' → P a b → Q a' b') :
    ∀ {l : List α} {l' : List β}, List.Forall₂ R l l' → l.Pairwise P → l'.Pairwise Q
  | _, _, .nil, _ => List.Pairwise.nil
  | _, _, .cons hab h, hp => by
    rw [List.pairwise_cons] at hp ⊢
    refine ⟨fun b' hb' => ?_, List.pairwise_of_forall₂ hPQ h hp.2⟩
    obtain ⟨b, hb, hr⟩ := List.exists_of_forall₂_mem_right h b' hb'
    exact hPQ _ _ _ _ hab hr (hp.1 b hb)

/-- Finding from the back finds what finding from the front does, when no
two elements are both found. -/
theorem List.find?_reverse_of_pairwise {α : Type} {p : α → Bool} :
    ∀ {l : List α}, l.Pairwise (fun a b => ¬ (p a = true ∧ p b = true)) → l.reverse.find? p = l.find? p
  | [], _ => rfl
  | a :: l, h => by
    rw [List.pairwise_cons] at h
    rw [List.reverse_cons, List.find?_append, List.find?_reverse_of_pairwise h.2, List.find?_singleton,
      List.find?_cons]
    cases hpa : p a with
    | true =>
      -- nothing after `a` is found
      have hnone : l.find? p = none := List.find?_eq_none.2 fun b hb hpb => h.1 b hb ⟨hpa, hpb⟩
      rw [hnone]
      rfl
    | false =>
      cases l.find? p <;> rfl

/-! ## A sequence in pre-order -/

/-- **A sequence that follows a tree in pre-order**: one entry per node, in
pre-order, each with the node's path and depth; entries for distinct
directories, so that both look-ups by directory agree; and the files of each
subtree one run of the print order, headed by the files of its top. -/
structure Sequence.InPreOrder (s : Sequence) (t : DirTree) : Prop where
  /-- The pre-order lists every node once. -/
  perm : t.preOrder.Perm (List.range t.size)
  entries : List.Forall₂ (fun i e => ∃ n, t.get? i = some n ∧ e.directory = n.identifier ∧
    e.depth = n.depth) t.preOrder s.directories
  distinct : (s.directories.map (·.directory)).Pairwise fun a b => Path.same a b = false
  lookups : ∀ x, s.filesIn x = s.lastFilesFor x
  subtree : ∀ d n, t.get? d = some n → ∃ pre e rest post,
    s.directories = pre ++ e :: rest ++ post ∧ e.directory = n.identifier ∧
    (∀ e' ∈ e :: rest, ∃ i m, t.get? i = some m ∧ t.Below d i ∧ e'.directory = m.identifier) ∧
    (∀ e' ∈ pre ++ post, ∀ i m, t.get? i = some m → e'.directory = m.identifier → ¬ t.Below d i) ∧
    s.paths = pre.flatMap (·.files) ++ (e.files ++ rest.flatMap (·.files)) ++ post.flatMap (·.files)

namespace Sequence

variable {s : Sequence} {t : DirTree}

/-- **Entries for distinct directories are found alike from both ends.** -/
theorem filesIn_eq_lastFilesFor
    (hd : (s.directories.map (·.directory)).Pairwise fun a b => Path.same a b = false) (x : String) :
    s.filesIn x = s.lastFilesFor x := by
  rw [List.pairwise_map] at hd
  -- two entries both for `x` would be for the same directory
  have hone : s.directories.Pairwise fun a b =>
      ¬ (Path.same a.directory x = true ∧ Path.same b.directory x = true) :=
    hd.imp fun {a b} hab ⟨ha, hb⟩ => by
      rw [Path.same_trans ha (Path.same_comm hb)] at hab
      cases hab
  unfold lastFilesFor filesIn
  rw [List.find?_reverse_of_pairwise hone]

/-- **The entries of a sequence in pre-order form the subtree of each node in
one run.** -/
theorem subtree_run (ht : t.Shaped)
    (hf : List.Forall₂ (fun i e => ∃ n, t.get? i = some n ∧ e.directory = n.identifier ∧
      e.depth = n.depth) t.preOrder s.directories) {d : Nat} {n : DirNode} (hd : t.get? d = some n) :
    ∃ pre e rest post, s.directories = pre ++ e :: rest ++ post ∧ e.directory = n.identifier ∧
      (∀ e' ∈ e :: rest, ∃ i m, t.get? i = some m ∧ t.Below d i ∧ e'.directory = m.identifier) ∧
      (∀ e' ∈ pre ++ post, ∀ i m, t.get? i = some m → e'.directory = m.identifier → ¬ t.Below d i) ∧
      s.paths = pre.flatMap (·.files) ++ (e.files ++ rest.flatMap (·.files)) ++
        post.flatMap (·.files) := by
  obtain ⟨pre, rest, post, hpo, hin, hout⟩ := ht.preOrder_subtree (DirTree.lt_size_of_get? hd)
  rw [hpo] at hf
  -- the entries split where the pre-order does
  obtain ⟨D, D₃, hdirs, hf₁₂, hf₃⟩ := List.forall₂_append_left hf
  obtain ⟨D₁, D₂, rfl, hf₁, hf₂⟩ := List.forall₂_append_left hf₁₂
  obtain ⟨e, drest, hde, hf₂', rfl⟩ := List.forall₂_cons_left_iff.1 hf₂
  obtain ⟨n', hn', hed, hdep⟩ := hde
  rw [hd] at hn'
  cases hn'
  -- an entry outside the run is for a node outside the subtree
  have hout' : ∀ e' ∈ D₁ ++ D₃, ∀ i m, t.get? i = some m → e'.directory = m.identifier →
      ¬ t.Below d i := by
    intro e' he' i m hm hid
    have hj : ∃ j ∈ pre ++ post, ∃ m', t.get? j = some m' ∧ e'.directory = m'.identifier := by
      rcases List.mem_append.1 he' with h₁ | h₃
      · obtain ⟨j, hj, m', hm', hid', -⟩ := List.exists_of_forall₂_mem_right hf₁ e' h₁
        exact ⟨j, List.mem_append_left _ hj, m', hm', hid'⟩
      · obtain ⟨j, hj, m', hm', hid', -⟩ := List.exists_of_forall₂_mem_right hf₃ e' h₃
        exact ⟨j, List.mem_append_right _ hj, m', hm', hid'⟩
    obtain ⟨j, hj, m', hm', hid'⟩ := hj
    obtain rfl : i = j := ht.unique i j m m' hm hm' (by rw [← hid, hid']; exact Path.same_refl _)
    exact hout i hj
  refine ⟨D₁, e, drest, D₃, hdirs, hed, fun e' he' => ?_, hout', ?_⟩
  · obtain ⟨i, hi, m, hm, hid, -⟩ := List.exists_of_forall₂_mem_right (List.Forall₂.cons ⟨n, hd, hed, hdep⟩ hf₂') e' he'
    exact ⟨i, m, hm, (hin i).1 hi, hid⟩
  · unfold paths
    rw [hdirs, List.flatMap_append, List.flatMap_append, List.flatMap_cons]

/-- **A sequence pairing the pre-order with its entries follows the tree.** -/
theorem inPreOrder_of_forall₂ (ht : t.Shaped)
    (hf : List.Forall₂ (fun i e => ∃ n, t.get? i = some n ∧ e.directory = n.identifier ∧
      e.depth = n.depth) t.preOrder s.directories) : s.InPreOrder t := by
  -- distinct nodes have paths that are not the same
  have hdistinct : (s.directories.map (·.directory)).Pairwise fun a b => Path.same a b = false := by
    rw [List.pairwise_map]
    refine List.pairwise_of_forall₂ (P := (· ≠ ·)) (fun i j e e' ⟨n, hn, he, _⟩ ⟨m, hm, he', _⟩ hij => ?_)
      hf (ht.preOrder_perm.nodup_iff.2 List.nodup_range)
    cases hs : Path.same e.directory e'.directory with
    | false => rfl
    | true =>
      rw [he, he'] at hs
      exact absurd (ht.unique i j n m hn hm hs) hij
  exact ⟨ht.preOrder_perm, hf, hdistinct, filesIn_eq_lastFilesFor hdistinct,
    fun _ _ hd => subtree_run ht hf hd⟩

end Sequence

/-! ## The sequence of a plan -/

namespace Planner

variable {pl : Planner} {v : Volume} {tree : DirTree} {rules : RuleSet} {s : Sequence}

/-- **The entries of a sequence are its tree's nodes in pre-order**, each
with the node's path and depth. -/
theorem sequence_forall₂ (ht : tree.Shaped) (h : pl.sequence v tree rules = .ok s) :
    List.Forall₂ (fun i e => ∃ n, tree.get? i = some n ∧ e.directory = n.identifier ∧
      e.depth = n.depth) tree.preOrder s.directories := by
  unfold sequence at h
  obtain ⟨dirs, hdirs, h⟩ := Except.bind_eq_ok h
  cases h
  -- every position the pre-order lists holds a node
  have hall : ∀ i ∈ tree.preOrder, ∃ n, tree.get? i = some n := fun i hi =>
    DirTree.exists_get?_of_lt (List.mem_range.1 (ht.preOrder_perm.subset hi))
  have hmap : tree.preOrder.filterMap tree.get? = tree.preOrder.map fun i => (tree.get? i).getD default := by
    rw [← List.filterMap_eq_map]
    refine List.filterMap_congr fun i hi => ?_
    obtain ⟨n, hn⟩ := hall i hi
    simp only [Function.comp_apply, hn, Option.getD_some]
  rw [hmap] at hdirs
  have hf := List.forall₂_of_mapM_eq_ok hdirs
  rw [List.forall₂_map_left_iff] at hf
  refine ((List.forall₂_and_left _ _).2 ⟨hall, hf⟩).imp fun i e ⟨⟨n, hn⟩, he⟩ => ?_
  rw [hn, Option.getD_some] at he
  obtain ⟨L, -, he⟩ := Except.bind_eq_ok he
  cases he
  exact ⟨n, hn, rfl, rfl⟩

/-- **A plan prints its tree in pre-order**: its sequence has one entry per
directory of its tree, in pre-order, with the directory's path and depth; the
entries are for distinct directories, so looking a directory up from the
front or from the back finds the same files; and the files of every subtree
are one run of the print order, headed by the files of the subtree's top. -/
theorem plan_prints_in_pre_order {path : String} {plan : Plan} (h : pl.planFromFile v path = .ok plan) :
    plan.sequence.InPreOrder plan.tree := by
  obtain ⟨T, -, hscan, htree, hseq⟩ := planFromFile_eq_ok h
  have hTr := DirTree.scan_reachable hscan
  have hD : DirTree.Descended T plan.rules.dirRules (DirTree.new T.rootPath)
      (T.reorder plan.rules.dirRules) (T.Below 0 ·) := DirTree.reorder_descended hTr
  have ht : plan.tree.Shaped := htree ▸ hD.copy.reach.shaped
  exact Sequence.inPreOrder_of_forall₂ ht (sequence_forall₂ ht hseq)

/-- The project, planned with its rules, has a plan, which the theorem
covers. -/
theorem project_prints_in_pre_order :
    ∃ plan, projectPlanner.planFromFile DirTree.projectVolume "/rules" = .ok plan ∧
      plan.sequence.InPreOrder plan.tree := by
  obtain ⟨plan, hplan⟩ := project_plans
  exact ⟨plan, hplan, plan_prints_in_pre_order hplan⟩

end Planner

end ReadingOrder
