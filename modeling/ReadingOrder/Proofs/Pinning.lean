import ReadingOrder.Proofs.Planning
import ReadingOrder.Proofs.RuleFile
/-!
# Rules pin their targets to the front and move nothing else

A plan orders each level of its tree and the files of each directory the
same way (`ruleOrder`): first the entries some rule names, each once and in
the order of the first rule naming it, then the other entries in increasing
order of their names. For directories that is the whole order
(`LevelsInRuleOrder`); files are then grouped by stem, the groups in the
order in which their stems first appear in that list (`FilesInRuleOrder`).

Two facts carry this. The scan lists the children of every directory in
name order, and a listing is in name order too, so the entries no rule
names keep that order. And a rule for one level that names an entry sits at
the depth of that entry below the root, so the depth a rule is kept for
never hides it from the level whose entry it names: precedence is
`ruleOrder` over all the targets of the rules.

Consequently a pin line that names no directory of the tree, or no file
eligible in one of them, or that repeats an earlier pin of the same kind and
target, changes neither the tree nor the sequence, wherever it stands in the
rule file (`Idle`): planning reads the rules only through the order they
give each level and each listing (`plan_congr`), and such a pin leaves all
of those as they were.
-/

namespace ReadingOrder

open Volume

/-- When mapping over a list in `Except` succeeds, each value is what some
element gives. -/
theorem List.mem_of_mapM_eq_ok {ε α β : Type} {f : α → Except ε β} :
    ∀ {l : List α} {l' : List β}, l.mapM f = .ok l' → ∀ b ∈ l', ∃ a ∈ l, f a = .ok b
  | [], l', h, b, hb => by
    cases h
    exact absurd hb List.not_mem_nil
  | a :: l, l', h, b, hb => by
    rw [List.mapM_cons] at h
    obtain ⟨x, hx, h⟩ := Except.bind_eq_ok h
    obtain ⟨xs, hxs, h⟩ := Except.bind_eq_ok h
    cases h
    rcases List.mem_cons.1 hb with rfl | hb
    · exact ⟨a, List.mem_cons_self, hx⟩
    · obtain ⟨a', ha', hfa'⟩ := List.mem_of_mapM_eq_ok hxs b hb
      exact ⟨a', List.mem_cons_of_mem _ ha', hfa'⟩

/-- Mapping in `Except` with functions that agree on the list gives the same
result. -/
theorem List.mapM_congr {ε α β : Type} {f g : α → Except ε β} :
    ∀ {l : List α}, (∀ a ∈ l, f a = g a) → l.mapM f = l.mapM g
  | [], _ => rfl
  | a :: l, h => by
    rw [List.mapM_cons, List.mapM_cons, h a List.mem_cons_self,
      List.mapM_congr fun x hx => h x (List.mem_cons_of_mem _ hx)]

/-- A listed directory is one its path leads to. -/
theorem Volume.resolve_of_listDir {v : Volume} {D : String} {q : Place} {es : List (String × Node)}
    (h : v.listDir D = .ok (q, es)) : v.resolve D true = .ok (.node q .dir) := by
  unfold listDir at h
  cases hr : v.resolve D true with
  | error e =>
    rw [hr] at h
    cases h
  | ok r =>
    rw [hr] at h
    cases r with
    | absent q' name => cases h
    | node q' k =>
      cases k with
      | dir =>
        cases h
        rfl
      | file c => cases h
      | link target => cases h

/-- The rules read from a rule file are resolved against its root. -/
theorem RuleSet.load_resolved {v : Volume} {path : String} {rules : RuleSet}
    (h : RuleSet.load v path = .ok rules) : rules.Resolved := by
  unfold RuleSet.load at h
  split at h
  · cases h
  · rw [← Except.ok.inj h]
    exact RuleSet.parse_resolved _ _

/-! ## The order rules give -/

/-- **Every level of a tree in rule order**: the children of each node are
its sub-directories that the rules name, each once and in the order of the
first rule naming it, then its other sub-directories in increasing order of
their names. -/
def LevelsInRuleOrder (tree : DirTree) (rules : List Rule) : Prop :=
  ∀ j, ∃ C : List String, C.Pairwise (fun a b => Path.tag a < Path.tag b) ∧
    tree.childPaths j = ruleOrder C (rules.map (·.target))

namespace DirTree

variable {v : Volume} {R : String} {p : Place} {T : DirTree}

/-- The children of a node of a scan are distinct: their names increase. -/
theorem NameOrdered.childPaths_nodup (hT : NameOrdered v R p T) (i : Nat) : (T.childPaths i).Nodup :=
  (hT.sorted i).imp fun hab he => ne_of_lt hab (congrArg Path.tag he)

/-- **A child of a scanned directory sits one level below it.** -/
theorem NameOrdered.depthBelow_child (hv : v.WellFormed) (hR : Path.normalize R = R)
    (hT : NameOrdered v R p T) {i : Nat} {n : DirNode} (hn : T.get? i = some n) {c : String}
    (hc : c ∈ T.childPaths i) : Path.depthBelow R c = some (n.depth + 1) := by
  obtain ⟨k, nc, hkp, hnc, rfl⟩ := hT.reach.shaped.mem_childPaths.1 hc
  rw [hT.depthBelow_identifier hv hR hnc, hT.reach.shaped.depth_child hkp hnc hn]

/-- **A reordered scan has every level in rule order**, for rules resolved
against its root: the scan lists the children of each directory in name
order, and a rule naming a child sits at the child's depth. -/
theorem NameOrdered.levelsInRuleOrder (hv : v.WellFormed) (hR : Path.normalize R = R)
    (hT : NameOrdered v R p T) {rules : List Rule}
    (hres : ∀ r ∈ rules, Path.normalize r.target = r.target ∧ Path.depthBelow R r.target = some r.depth) :
    LevelsInRuleOrder (T.reorder rules) rules := by
  intro j
  cases hm : (T.reorder rules).get? j with
  | none =>
    -- a position with no node has no children
    refine ⟨[], List.Pairwise.nil, ?_⟩
    unfold childPaths children
    rw [hm, ruleOrder_nil]
    rfl
  | some m =>
    obtain ⟨i, n, hn, -, -, hch⟩ := reorder_get? hT.reach rules hm
    refine ⟨T.childPaths i, hT.sorted i, ?_⟩
    rw [hch, pinFront_eq_ruleOrder _ (hT.childPaths_nodup i) (fun c => hT.reach.childPaths_normal)
      fun r hr => (hres r hr).1]
    refine ruleOrder_targetsAt fun r hr hrc => ?_
    -- a rule naming a child of the node sits one level below the node
    have hdc := hT.depthBelow_child hv hR hn hrc
    rw [(hres r hr).2] at hdc
    exact Option.some.inj hdc

end DirTree

namespace Planner

variable {pl : Planner} {v : Volume} {R D f : String} {q : Place} {L : List String}

/-- **The files of every directory in rule order**: they come in groups of
one stem, and the groups in the order in which their stems first appear
among the files eligible in the directory, put in rule order — the files
the rules name, each once and in the order of the first rule naming it,
then the others in increasing order of their names. -/
def FilesInRuleOrder (pl : Planner) (v : Volume) (root : String) (seq : Sequence)
    (rules : List Rule) : Prop :=
  ∀ d ∈ seq.directories, ∃ E : List String, E.Pairwise (fun a b => Path.tag a < Path.tag b) ∧
    (∀ f, f ∈ E ↔ pl.Eligible v root d.directory f) ∧
    d.files = ((ruleOrder E (rules.map (·.target))).map Pairing.stemOf).eraseDups.flatMap
      fun s => d.files.filter (Pairing.stemOf · = s)

/-- **A pin that changes no order** in a plan: a directory pin whose target
is no directory of the plan's tree, a file pin whose target is eligible in
none of them, or a pin of the same kind and target as one of the `earlier`
lines. -/
def Idle (pl : Planner) (v : Volume) (plan : Plan) (earlier : List String) (k : RuleKind)
    (rel : String) : Prop :=
  (k = .directory ∧ ∀ i n, plan.tree.get? i = some n →
    n.identifier ≠ Path.normalize (Path.join plan.rules.root rel)) ∨
  (k = .file ∧ ∀ i n, plan.tree.get? i = some n →
    ¬ pl.Eligible v plan.rules.root n.identifier (Path.normalize (Path.join plan.rules.root rel))) ∨
  ∃ ℓ' ∈ earlier, ∃ rel', Directive.ofLine ℓ' = .pin k rel' ∧
    Path.normalize (Path.join plan.rules.root rel') = Path.normalize (Path.join plan.rules.root rel)

/-! ## Reading a plan back -/

/-- **A plan is the reordered scan of its rules' root and the sequence of
that tree.** -/
theorem planFromFile_eq_ok {path : String} {plan : Plan} (h : pl.planFromFile v path = .ok plan) :
    ∃ T, RuleSet.load v path = .ok plan.rules ∧ DirTree.scan v pl.exclusions plan.rules.root = .ok T ∧
      plan.tree = T.reorder plan.rules.dirRules ∧ pl.sequence v plan.tree plan.rules = .ok plan.sequence := by
  unfold planFromFile at h
  obtain ⟨rules, hl, h⟩ := Except.bind_eq_ok h
  unfold Planner.plan at h
  obtain ⟨T, hs, h⟩ := Except.bind_eq_ok h
  dsimp only at h
  obtain ⟨s, hq, h⟩ := Except.bind_eq_ok h
  cases h
  exact ⟨T, hl, hs, rfl, hq⟩

/-- A plan is what planning with its own rules gives. -/
theorem plan_rules {path : String} {plan : Plan} (h : pl.planFromFile v path = .ok plan) :
    pl.plan v plan.rules = .ok plan := by
  obtain ⟨T, hload, -⟩ := planFromFile_eq_ok h
  unfold planFromFile at h
  rw [hload, Except.ok_bind] at h
  exact h

/-- **What a plan is made of**: rules read from the file and resolved against
their root, a normal path that leads to a directory, and the reordered scan
of that directory, which lists the children of each directory in name order. -/
theorem planFromFile_spec (hv : v.WellFormed) {path : String} {plan : Plan}
    (h : pl.planFromFile v path = .ok plan) :
    ∃ p T, RuleSet.load v path = .ok plan.rules ∧ Path.normalize plan.rules.root = plan.rules.root ∧
      plan.rules.Resolved ∧ DirTree.scan v pl.exclusions plan.rules.root = .ok T ∧
      DirTree.NameOrdered v plan.rules.root p T ∧ plan.tree = T.reorder plan.rules.dirRules ∧
      pl.sequence v plan.tree plan.rules = .ok plan.sequence := by
  obtain ⟨T, hload, hscan, htree, hseq⟩ := planFromFile_eq_ok h
  obtain ⟨p, hroot⟩ := DirTree.resolve_of_scan hscan
  exact ⟨p, T, hload, RuleSet.normalize_root_load hload, RuleSet.load_resolved hload, hscan,
    DirTree.scan_nameOrdered hv hroot hscan, htree, hseq⟩

/-- **Each directory of a sequence** is a node of the tree with its listing
ranked by the file rules for the depth below it, and paired. -/
theorem mem_sequence {tree : DirTree} {rules : RuleSet} {s : Sequence} {d : DirectoryFiles}
    (h : pl.sequence v tree rules = .ok s) (hd : d ∈ s.directories) :
    ∃ m ∈ tree.preOrder.filterMap tree.get?, ∃ L, pl.listFiles v tree.rootPath m.identifier = .ok L ∧
      d = ⟨m.identifier, m.depth, Pairing.arrange pl.classifier rules.headersFirst rules.headersOnly
        (pinFront L rules.fileRules (m.depth + 1))⟩ := by
  unfold sequence at h
  obtain ⟨dirs, hdirs, h⟩ := Except.bind_eq_ok h
  cases h
  obtain ⟨m, hm, hF⟩ := List.mem_of_mapM_eq_ok hdirs d hd
  dsimp only at hF
  obtain ⟨L, hL, hF⟩ := Except.bind_eq_ok hF
  cases hF
  exact ⟨m, hm, L, hL, rfl⟩

/-- A listed directory is one its path leads to. -/
theorem resolve_of_listFiles (h : pl.listFiles v R D = .ok L) :
    ∃ q, v.resolve D true = .ok (.node q .dir) := by
  unfold listFiles at h
  cases hl : v.listDir D with
  | error e =>
    rw [hl] at h
    cases h
  | ok r => exact ⟨r.1, resolve_of_listDir hl⟩

/-- **A listing is in name order**: its files are shown by their names, and
a directory lists its entries in increasing order of their names. -/
theorem listFiles_sorted (hv : v.WellFormed) (hD : v.resolve D true = .ok (.node q .dir))
    (h : pl.listFiles v R D = .ok L) : L.Pairwise fun a b => Path.tag a < Path.tag b := by
  refine List.Pairwise.sublist (listFiles_sublist hD h) ?_
  rw [List.pairwise_map]
  refine (hv.entries_sorted q).imp_of_mem fun {a b} ha hb hab => ?_
  rw [Path.tag_normalize_join (hv.validName (hv.lookup_of_mem_entries ha)).1,
    Path.tag_normalize_join (hv.validName (hv.lookup_of_mem_entries hb)).1]
  exact hab

/-- **A file eligible in a directory sits one level below it.** -/
theorem Eligible.depthBelow (hv : v.WellFormed) (hR : Path.normalize R = R) {ns : List String}
    (hns : ∀ x ∈ ns, Path.IsName x.toList)
    (h : pl.Eligible v R (Path.normalize (Path.joinAll R ns)) f) :
    Path.depthBelow R f = some (ns.length + 1) := by
  obtain ⟨name, hn, rfl⟩ := h.name hv
  have hns' : ∀ x ∈ ns ++ [name], Path.IsName x.toList := by
    intro x hx
    rcases List.mem_append.1 hx with hx | hx
    · exact hns x hx
    · rw [List.mem_singleton.1 hx]
      exact hn
  have hd := Path.depthBelow_joinAll hR hns'
  rw [List.length_append, List.length_singleton, Path.joinAll_concat] at hd
  rw [Path.normalize_join_normalize hn]
  exact hd

/-- An eligible file is written as a normal path. -/
theorem Eligible.normal (hv : v.WellFormed) (h : pl.Eligible v R D f) : Path.normalize f = f := by
  obtain ⟨name, -, rfl⟩ := h.name hv
  exact Path.normalize_normalize _

/-- **A listing holds the eligible files of its directory**, each once and
in name order. -/
theorem listFiles_spec (hv : v.WellFormed) (h : pl.listFiles v R D = .ok L) :
    L.Nodup ∧ (∀ f, f ∈ L ↔ pl.Eligible v R D f) ∧ L.Pairwise fun a b => Path.tag a < Path.tag b := by
  obtain ⟨q, hD⟩ := resolve_of_listFiles h
  exact ⟨listFiles_nodup hv hD h, fun f => mem_listFiles hD h, listFiles_sorted hv hD h⟩

/-- **A listed file sits one level below its directory**: a directory of a
reordered scan at depth `k` lists files at depth `k + 1` below the root. -/
theorem depthBelow_of_listFiles (hv : v.WellFormed) (hR : Path.normalize R = R) {p : Place}
    {T : DirTree} (hT : DirTree.NameOrdered v R p T) (rules : List Rule) {j : Nat} {m : DirNode}
    (hm : (T.reorder rules).get? j = some m) (hL : pl.listFiles v R m.identifier = .ok L)
    (hf : f ∈ L) : Path.depthBelow R f = some (m.depth + 1) := by
  obtain ⟨i, n, hn, hid, hdep, -⟩ := DirTree.reorder_get? hT.reach rules hm
  obtain ⟨ns, hc, hnid⟩ := hT.chain i n hn
  have hns : ∀ x ∈ ns, Path.IsName x.toList := fun x hx => (hv.validName_of_chain hc x hx).1
  have hlen : m.depth = ns.length := by
    rw [hdep]
    exact hT.depth i n ns hn hc hnid
  have hel := ((listFiles_spec hv hL).2.1 f).1 hf
  rw [hid, hnid] at hel
  rw [hlen]
  exact Eligible.depthBelow hv hR hns hel

/-- **The sequence of a reordered scan has the files of every directory in
rule order**, for file rules resolved against the root: a listing is in name
order, and a rule naming a file of a directory sits one level below it. -/
theorem filesInRuleOrder_sequence (hv : v.WellFormed) (hR : Path.normalize R = R) {p : Place}
    {T : DirTree} (hT : DirTree.NameOrdered v R p T) {dirRules : List Rule} {rules : RuleSet}
    {s : Sequence}
    (hres : ∀ r ∈ rules.fileRules,
      Path.normalize r.target = r.target ∧ Path.depthBelow R r.target = some r.depth)
    (h : pl.sequence v (T.reorder dirRules) rules = .ok s) :
    FilesInRuleOrder pl v R s rules.fileRules := by
  intro d hd
  obtain ⟨m, hm, L, hL, rfl⟩ := mem_sequence h hd
  have htree := hT.toRecorded.reorder hR dirRules
  rw [htree.reach.rootPath, hR] at hL
  obtain ⟨j, hj⟩ := htree.reach.shaped.mem_nodes.1 hm
  obtain ⟨hnd, hmem, hsorted⟩ := listFiles_spec hv hL
  have hnorm : ∀ c ∈ L, Path.normalize c = c := fun c hc => ((hmem c).1 hc).normal hv
  have hrank : pinFront L rules.fileRules (m.depth + 1) = ruleOrder L (rules.fileRules.map (·.target)) := by
    rw [pinFront_eq_ruleOrder _ hnd hnorm fun r hr => (hres r hr).1]
    refine ruleOrder_targetsAt fun r hr hrL => ?_
    -- a rule naming a file of the directory sits one level below it
    have hdf := depthBelow_of_listFiles hv hR hT dirRules hj hL hrL
    rw [(hres r hr).2] at hdf
    exact Option.some.inj hdf
  have hcl : ∀ x ∈ pinFront L rules.fileRules (m.depth + 1), (pl.classifier.classify x).isSome :=
    fun x hx => ((hmem x).1 ((pinFront_perm L _ _).mem_iff.1 hx)).classify
  refine ⟨L, hsorted, hmem, ?_⟩
  dsimp only
  rw [← hrank]
  exact Pairing.arrange_grouped hcl

/-! ## Planning reads the rules through the orders they give -/

/-- **The sequence reads the rules only through their flags and the order
they give each listing.** -/
theorem sequence_congr {tree : DirTree} {rules rules' : RuleSet}
    (hf : rules'.headersFirst = rules.headersFirst) (ho : rules'.headersOnly = rules.headersOnly)
    (hfile : ∀ m ∈ tree.preOrder.filterMap tree.get?, ∀ L,
      pl.listFiles v tree.rootPath m.identifier = .ok L →
        pinFront L rules'.fileRules (m.depth + 1) = pinFront L rules.fileRules (m.depth + 1)) :
    pl.sequence v tree rules' = pl.sequence v tree rules := by
  unfold sequence
  dsimp only
  congr 1
  refine List.mapM_congr fun m hm => ?_
  cases hL : pl.listFiles v tree.rootPath m.identifier with
  | error e => rfl
  | ok L =>
    rw [Except.ok_bind, Except.ok_bind, hfile m hm L hL, hf, ho]

/-- **Planning reads the rules only through their root, their flags and the
orders they give**: rules with the same root and flags that give the scanned
tree the same reordering and every listing the same order plan the same tree
and sequence. -/
theorem plan_congr {rules rules' : RuleSet} {T : DirTree} {plan : Plan}
    (hroot : rules'.root = rules.root) (hscan : DirTree.scan v pl.exclusions rules.root = .ok T)
    (htree : T.reorder rules'.dirRules = T.reorder rules.dirRules)
    (hseq : pl.sequence v (T.reorder rules.dirRules) rules' =
      pl.sequence v (T.reorder rules.dirRules) rules)
    (h : pl.plan v rules = .ok plan) :
    ∃ plan', pl.plan v rules' = .ok plan' ∧ plan'.tree = plan.tree ∧ plan'.sequence = plan.sequence := by
  unfold Planner.plan at h ⊢
  rw [hscan, Except.ok_bind] at h
  rw [hroot, hscan, Except.ok_bind]
  dsimp only at h ⊢
  rw [htree, hseq]
  obtain ⟨s, hs, h⟩ := Except.bind_eq_ok h
  cases h
  rw [hs, Except.ok_bind]
  exact ⟨_, rfl, rfl, rfl⟩

/-! ## Pins that change no order -/

/-- **One more rule that changes no order of a level**, among the rules of
one kind: when it names an entry of the level at its depth, a rule of the
same kind before it named that entry at that depth. -/
theorem pinFront_filter_insert {κ : RuleKind} {A X B : List Rule} {C : List String} (depth : Nat)
    (hC : C.Nodup) (hn : ∀ c ∈ C, Path.normalize c = c)
    (ht : ∀ r ∈ (A ++ X ++ B).filter (·.kind = κ), Path.normalize r.target = r.target)
    (hX : ∀ r ∈ X, r.kind = κ → r.depth = depth → r.target ∈ C →
      r.target ∈ targetsAt (A.filter (·.kind = κ)) depth) :
    pinFront C ((A ++ X ++ B).filter (·.kind = κ)) depth =
      pinFront C ((A ++ B).filter (·.kind = κ)) depth := by
  rw [List.filter_append, List.filter_append] at ht ⊢
  rw [List.filter_append]
  refine pinFront_insert depth hC hn ht fun r hr hd hrC => ?_
  rw [List.mem_filter] at hr
  exact hX r hr.1 (of_decide_eq_true hr.2) hd hrC

/-- A pin repeating an earlier pin of its kind and target names what the
earlier pin's rule names, at the same depth. -/
theorem target_mem_of_repeat {root rel rel' : String} {k : RuleKind} {A : List Rule} {r : Rule}
    (hA : ∀ r', Rule.resolve root k rel' = some r' → r' ∈ A)
    (he : Path.normalize (Path.join root rel') = Path.normalize (Path.join root rel))
    (hr : Rule.resolve root k rel = some r) :
    r.target ∈ targetsAt (A.filter (·.kind = r.kind)) r.depth := by
  obtain ⟨r', hr', ht, hk, hd⟩ := Rule.resolve_congr hr he
  rw [← ht, ← hk, ← hd]
  exact target_mem_targetsAt (List.mem_filter.2 ⟨hA r' hr', decide_eq_true rfl⟩)

section Idle

variable {plan : Plan} {pre : List String} {k : RuleKind} {rel : String} {A : List Rule} {r : Rule}

/-- **An idle directory pin adds nothing to a level**: when its rule names a
directory of the tree, an earlier pin named it at the same depth. -/
theorem Idle.named_dir (hidle : pl.Idle v plan pre k rel)
    (hpre : ∀ ℓ' ∈ pre, ∀ k' rel' r', Directive.ofLine ℓ' = .pin k' rel' →
      Rule.resolve plan.rules.root k' rel' = some r' → r' ∈ A)
    (hr : Rule.resolve plan.rules.root k rel = some r) (hk : r.kind = .directory) {j : Nat}
    {m : DirNode} (hm : plan.tree.get? j = some m) (hid : m.identifier = r.target) :
    r.target ∈ targetsAt (A.filter (·.kind = .directory)) r.depth := by
  obtain ⟨ht, hk', -⟩ := Rule.resolve_spec hr
  rcases hidle with ⟨-, hnone⟩ | ⟨hkf, -⟩ | ⟨ℓ', hℓ', rel', hpin, he⟩
  · exact absurd (hid.trans ht) (hnone j m hm)
  · rw [hk', hkf] at hk
    cases hk
  · rw [← hk]
    exact target_mem_of_repeat (hpre ℓ' hℓ' k rel' · hpin) he hr

/-- **An idle file pin adds nothing to a listing**: when its rule names a
file eligible in a directory of the tree, an earlier pin named it at the
same depth. -/
theorem Idle.named_file (hidle : pl.Idle v plan pre k rel)
    (hpre : ∀ ℓ' ∈ pre, ∀ k' rel' r', Directive.ofLine ℓ' = .pin k' rel' →
      Rule.resolve plan.rules.root k' rel' = some r' → r' ∈ A)
    (hr : Rule.resolve plan.rules.root k rel = some r) (hk : r.kind = .file) {j : Nat}
    {m : DirNode} (hm : plan.tree.get? j = some m)
    (hel : pl.Eligible v plan.rules.root m.identifier r.target) :
    r.target ∈ targetsAt (A.filter (·.kind = .file)) r.depth := by
  obtain ⟨ht, hk', -⟩ := Rule.resolve_spec hr
  rcases hidle with ⟨hkd, -⟩ | ⟨-, hnone⟩ | ⟨ℓ', hℓ', rel', hpin, he⟩
  · rw [hk', hkd] at hk
    cases hk
  · rw [ht] at hel
    exact absurd hel (hnone j m hm)
  · rw [← hk]
    exact target_mem_of_repeat (hpre ℓ' hℓ' k rel' · hpin) he hr

end Idle

/-- **A pin that changes no order can stand anywhere in the rule file**:
planning with the lines `pre`, the pin line and `post` gives the tree and
the sequence that planning with `pre` and `post` gave. -/
theorem plan_insert_idle_pin (hv : v.WellFormed) {path : String} {plan : Plan}
    {pre post : List String} {ℓ rel : String} {k : RuleKind}
    (hread : v.readFile path = .ok ("\n".intercalate (pre ++ post)))
    (h : pl.planFromFile v path = .ok plan) (hl : ∀ l ∈ pre ++ ℓ :: post, '\n' ∉ l.toList)
    (hℓ : Directive.ofLine ℓ = .pin k rel) (hidle : pl.Idle v plan pre k rel) :
    ∃ plan', pl.plan v (RuleSet.parse ("\n".intercalate (pre ++ ℓ :: post))
        ((Path.parent? path).getD "")) = .ok plan' ∧
      plan'.tree = plan.tree ∧ plan'.sequence = plan.sequence := by
  obtain ⟨p, T, hload, hR, -, hscan, hT, htree, hseq⟩ := planFromFile_spec hv h
  have hrules : plan.rules =
      RuleSet.parse ("\n".intercalate (pre ++ post)) ((Path.parent? path).getD "") :=
    Except.ok.inj (hload.symm.trans (RuleSet.load_of_readFile hread))
  obtain ⟨A, B, hpre, hdirs, hfiles, hparse⟩ :=
    RuleSet.parse_insert_pin hl hℓ ((Path.parent? path).getD "")
  rw [← hrules] at hpre hdirs hfiles hparse
  have hres := RuleSet.parse_resolved ("\n".intercalate (pre ++ ℓ :: post)) ((Path.parent? path).getD "")
  rw [hparse] at hres ⊢
  refine plan_congr ?_ hscan ?_ ?_ (plan_rules h)
  · rfl
  · -- the directory rules give every level of the scan the order they gave it
    show T.reorder ((A ++ _ ++ B).filter (·.kind = .directory)) = T.reorder plan.rules.dirRules
    rw [hdirs]
    refine DirTree.reorder_congr fun i n hn => ?_
    refine pinFront_filter_insert _ (hT.childPaths_nodup i) (fun c => hT.reach.childPaths_normal)
      (fun r hr => (hres r (List.mem_append_left _ hr)).1) fun r hr hk hd hrC => ?_
    -- a child of a scanned directory is a directory of the tree
    obtain ⟨c, nc, -, hnc, hid⟩ := hT.reach.shaped.mem_childPaths.1 hrC
    obtain ⟨j, m, hm, hmid⟩ := DirTree.exists_reorder_get? hT.reach plan.rules.dirRules hnc
    rw [← htree] at hm
    rw [← hd]
    exact hidle.named_dir hpre (Option.mem_toList.1 hr) hk hm (hmid.trans hid)
  · -- the file rules give every listing of the tree the order they gave it
    rw [← htree]
    refine sequence_congr rfl rfl fun m hm L hL => ?_
    show pinFront L ((A ++ _ ++ B).filter (·.kind = .file)) (m.depth + 1) =
      pinFront L plan.rules.fileRules (m.depth + 1)
    rw [hfiles]
    have hroot : plan.tree.rootPath = plan.rules.root := by
      rw [htree, (hT.toRecorded.reorder hR plan.rules.dirRules).reach.rootPath, hR]
    rw [hroot] at hL
    obtain ⟨hnd, hmem, -⟩ := listFiles_spec hv hL
    refine pinFront_filter_insert _ hnd (fun c hc => ((hmem c).1 hc).normal hv)
      (fun r hr => (hres r (List.mem_append_right _ hr)).1) fun r hr hk hd hrL => ?_
    -- a listed file is eligible in a directory of the tree
    obtain ⟨j, hj⟩ := (htree ▸ hT.toRecorded.reorder hR plan.rules.dirRules).reach.shaped.mem_nodes.1 hm
    rw [← hd]
    exact hidle.named_file hpre (Option.mem_toList.1 hr) hk hj ((hmem r.target).1 hrL)

/-! ## Rules pin their targets to the front -/

/-- **Rules pin their targets to the front and move nothing else.** In a
plan read from a rule file, every level of the tree and the files of every
directory come in rule order: the entries the rules name first, each once
and in the order of the first rule naming it, then the others in increasing
order of their names, the files grouped by stem in that order. So a pin line
that changes no order, naming no directory of the tree or no file eligible
in one, or repeating an earlier pin, can be put anywhere in the rule file
without changing the tree or the sequence. -/
theorem plan_pins_rule_targets_first (hv : v.WellFormed) {path text : String} {plan : Plan}
    (hread : v.readFile path = .ok text) (h : pl.planFromFile v path = .ok plan) :
    LevelsInRuleOrder plan.tree plan.rules.dirRules ∧
      FilesInRuleOrder pl v plan.rules.root plan.sequence plan.rules.fileRules ∧
      ∀ pre post ℓ k rel, (∀ l ∈ pre ++ ℓ :: post, '\n' ∉ l.toList) →
        text = "\n".intercalate (pre ++ post) → Directive.ofLine ℓ = .pin k rel →
        pl.Idle v plan pre k rel →
        ∃ plan', pl.plan v (RuleSet.parse ("\n".intercalate (pre ++ ℓ :: post))
            ((Path.parent? path).getD "")) = .ok plan' ∧
          plan'.tree = plan.tree ∧ plan'.sequence = plan.sequence := by
  obtain ⟨p, T, -, hR, hres, -, hT, htree, hseq⟩ := planFromFile_spec hv h
  refine ⟨?_, ?_, fun pre post ℓ k rel hl htext hℓ hidle => ?_⟩
  · rw [htree]
    exact hT.levelsInRuleOrder hv hR fun r hr => hres r (List.mem_append_left _ hr)
  · rw [htree] at hseq
    exact filesInRuleOrder_sequence hv hR hT (fun r hr => hres r (List.mem_append_right _ hr)) hseq
  · rw [htext] at hread
    exact plan_insert_idle_pin hv hread h hl hℓ hidle

/-- The project, planned with its rules, has a plan, which the theorem
covers. -/
theorem project_pins_rule_targets_first :
    ∃ plan, projectPlanner.planFromFile DirTree.projectVolume "/rules" = .ok plan ∧
      LevelsInRuleOrder plan.tree plan.rules.dirRules ∧
      FilesInRuleOrder projectPlanner DirTree.projectVolume plan.rules.root plan.sequence plan.rules.fileRules ∧
      ∀ pre post ℓ k rel, (∀ l ∈ pre ++ ℓ :: post, '\n' ∉ l.toList) →
        "dir src\nfile src/util.py\n" = "\n".intercalate (pre ++ post) → Directive.ofLine ℓ = .pin k rel →
        projectPlanner.Idle DirTree.projectVolume plan pre k rel →
        ∃ plan', projectPlanner.plan DirTree.projectVolume
            (RuleSet.parse ("\n".intercalate (pre ++ ℓ :: post)) ((Path.parent? "/rules").getD "")) = .ok plan' ∧
          plan'.tree = plan.tree ∧ plan'.sequence = plan.sequence := by
  obtain ⟨plan, h⟩ := project_plans
  exact ⟨plan, h, plan_pins_rule_targets_first DirTree.projectVolume_wellFormed project_readFile h⟩

end Planner

end ReadingOrder
