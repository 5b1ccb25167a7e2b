import ReadingOrder.Plan
import ReadingOrder.Proofs.Tree.Scan
import ReadingOrder.Proofs.Tree.Reorder
import ReadingOrder.Proofs.Tree.PreOrder
import ReadingOrder.Proofs.Pairing
/-!
# Planning prints each eligible file once

A plan lists, directory by directory in pre-order of its tree, the files
planning finds eligible there: the entries of the directory that are regular
files or links leading to one, whose paths relative to the root match no
file exclusion and that classify. Pairing may then leave out implementation
files, but only those with a header of the same stem beside them, and only
when headers alone are printed.

Planning succeeds when the rule file can be read, its root leads to a
directory and every directory the scan keeps below the root has a path the
file system accepts: the root's path with the names on the way joined, which
the scan reads it by, is shorter than `pathMax` bytes. Then no file is
printed twice and the files printed are exactly those above
(`plan_prints_each_eligible_file_once`). The length condition cannot be
dropped: directories nested deep enough below a root that is a directory
have paths too long to be read, and planning then fails
(`deep_volume_not_planned`).

The argument runs along the plan. The scan keeps directories named by
normal paths that read back to them (`DirTree.KeptNodes`), reordering keeps
those paths, so each directory of the plan can be listed, and a listing
holds each eligible file once. Different directories have different normal
paths, so no file is listed from two of them.
-/

namespace ReadingOrder

open Volume

/-- A computation in `Except` that succeeds ran its first step successfully. -/
theorem Except.bind_eq_ok {ε α β : Type} {x : Except ε α} {f : α → Except ε β} {b : β}
    (h : (x >>= f) = .ok b) : ∃ a, x = .ok a ∧ f a = .ok b := by
  cases x with
  | error e => cases h
  | ok a => exact ⟨a, rfl, h⟩

theorem Except.ok_bind {ε α β : Type} (a : α) (f : α → Except ε β) : (Except.ok a >>= f) = f a :=
  rfl

theorem Except.error_bind {ε α β : Type} (e : ε) (f : α → Except ε β) : (Except.error e >>= f) = .error e :=
  rfl

/-- Mapping over a list in `Except` succeeds with the values when every
element gives one. -/
theorem List.mapM_eq_ok {ε α β : Type} {f : α → Except ε β} (g : α → β) :
    ∀ {l : List α}, (∀ x ∈ l, f x = .ok (g x)) → l.mapM f = .ok (l.map g)
  | [], _ => rfl
  | a :: l, h => by
    rw [List.mapM_cons, h a List.mem_cons_self,
      List.mapM_eq_ok g fun x hx => h x (List.mem_cons_of_mem _ hx)]
    rfl

/-- A `filterMap` whose values are read off the elements keeps some of them
in order. -/
theorem List.filterMap_sublist_map {α β : Type} {F : α → Option β} {h : α → β}
    (hF : ∀ a b, F a = some b → b = h a) : ∀ l : List α, (l.filterMap F).Sublist (l.map h)
  | [] => List.Sublist.slnil
  | a :: l => by
    cases hFa : F a with
    | none =>
      rw [List.filterMap_cons_none hFa, List.map_cons]
      exact (List.filterMap_sublist_map hF l).cons _
    | some b =>
      rw [List.filterMap_cons_some hFa, List.map_cons, hF a b hFa]
      exact (List.filterMap_sublist_map hF l).cons_cons _

namespace RuleSet

theorem parse_root (text baseDir : String) :
    (parse text baseDir).root = Path.normalize (Path.join baseDir (RuleDraft.ofText text).parent) := by
  unfold parse
  dsimp only

/-- The rules read from a rule file are those its text gives. -/
theorem load_of_readFile {v : Volume} {path text : String} (h : v.readFile path = .ok text) :
    load v path = .ok (parse text ((Path.parent? path).getD "")) := by
  unfold load
  rw [h]

/-- The root of a rule file is a normal path. -/
theorem normalize_root_load {v : Volume} {path : String} {rules : RuleSet}
    (h : load v path = .ok rules) : Path.normalize rules.root = rules.root := by
  unfold load at h
  split at h
  · cases h
  · rw [← Except.ok.inj h, parse_root, Path.normalize_normalize]

end RuleSet

namespace DirTree

variable {v : Volume} {ex : Exclusions} {R : String} {p : Place} {T : DirTree}

/-- **Reordering keeps what a scan recorded**: the copy mirrors nodes of the
input, paths included. -/
theorem Recorded.reorder (h : Recorded v R p T) (hR : Path.normalize R = R) (rules : List Rule) :
    Recorded v R p (T.reorder rules) := by
  have hD : Descended T rules (DirTree.new T.rootPath) (T.reorder rules) (T.Below 0 ·) :=
    reorder_descended h.reach
  have hroot : T.rootPath = R := by rw [h.reach.rootPath, hR]
  refine ⟨hroot ▸ hD.copy.reach, fun j m hm => ?_⟩
  obtain ⟨i, ⟨n, m', hn, hm', hid, -⟩, -⟩ := hD.copy.mirror j m hm
  rw [hm] at hm'
  cases hm'
  rw [hid]
  exact h.chain i n hn

/-- **Reordering keeps what a scan kept**: each node of the copy has the path
of a node of the input. -/
theorem KeptNodes.reorder (h : KeptNodes v ex R p T) (hTr : T.Reachable R) (rules : List Rule) :
    KeptNodes v ex R p (T.reorder rules) := by
  intro j m hm
  obtain ⟨i, n, hn, hid, -⟩ := reorder_get? hTr rules hm
  rw [hid]
  exact h i n hn

end DirTree

namespace Planner

variable {pl : Planner} {v : Volume} {R D f : String} {q : Place} {rules : RuleSet}

/-- **An entry of directory `D` that planning prints**: a regular file, or a
link that leads to one, whose normal path relative to the root matches no
file exclusion, and that classifies. -/
def Listed (pl : Planner) (v : Volume) (root D : String) (e : String × Node) : Prop :=
  ((∃ c, e.2 = .file c) ∨ ∃ t, e.2 = .link t ∧ v.isFile (Path.join D e.1) = true) ∧
    pl.exclusions.excludesFile (Path.relativeTo root (Path.normalize (Path.join D e.1))) = false ∧
    (pl.classifier.classify (Path.normalize (Path.join D e.1))).isSome

/-- **A file planning may print from directory `D`**: the normal path of an
entry it lists, in the directory `D` leads to. -/
def Eligible (pl : Planner) (v : Volume) (root D f : String) : Prop :=
  ∃ q e, v.resolve D true = .ok (.node q .dir) ∧ e ∈ v.entries q ∧ pl.Listed v root D e ∧
    f = Path.normalize (Path.join D e.1)

/-- An eligible file is a name joined to its directory. -/
theorem Eligible.name (hv : v.WellFormed) (h : pl.Eligible v R D f) :
    ∃ name, Path.IsName name.toList ∧ f = Path.normalize (Path.join D name) := by
  obtain ⟨q, ⟨name, n⟩, -, he, -, rfl⟩ := h
  exact ⟨name, (hv.validName (hv.lookup_of_mem_entries he)).1, rfl⟩

theorem Eligible.classify (h : pl.Eligible v R D f) : (pl.classifier.classify f).isSome := by
  obtain ⟨q, e, -, -, ⟨-, -, hc⟩, rfl⟩ := h
  exact hc

/-- A directory a path leads to lists its entries. -/
theorem listDir_of_resolve (hD : v.resolve D true = .ok (.node q .dir)) :
    v.listDir D = .ok (q, v.entries q) := by
  unfold listDir
  rw [hD]

/-- A listing keeps some of the directory's entries, in order, each shown by
its name joined to the directory. -/
theorem listFiles_sublist {L : List String} (hD : v.resolve D true = .ok (.node q .dir))
    (h : pl.listFiles v R D = .ok L) :
    L.Sublist ((v.entries q).map fun e => Path.normalize (Path.join D e.1)) := by
  unfold listFiles at h
  rw [listDir_of_resolve hD] at h
  cases h
  refine List.filterMap_sublist_map ?_ _
  rintro ⟨name, n⟩ b hb
  dsimp only at hb
  rw [Option.ite_none_left_eq_some, Option.ite_none_left_eq_some, Option.some.injEq] at hb
  exact hb.2.2.symm

/-- A directory a path leads to can be listed. -/
theorem listFiles_exists (hD : v.resolve D true = .ok (.node q .dir)) :
    ∃ L, pl.listFiles v R D = .ok L := by
  unfold listFiles
  rw [listDir_of_resolve hD]
  exact ⟨_, rfl⟩

/-- **A listing holds no file twice**: each listed path is its entry's name
joined to the directory, and names are distinct. -/
theorem listFiles_nodup {L : List String} (hv : v.WellFormed)
    (hD : v.resolve D true = .ok (.node q .dir)) (h : pl.listFiles v R D = .ok L) : L.Nodup := by
  refine List.Nodup.sublist (listFiles_sublist hD h)
    (List.Nodup.map_on (fun e he e' he' hee' => ?_) (List.Nodup.of_map Prod.fst (hv.nodup_entries q)))
  have hn := (hv.validName (hv.lookup_of_mem_entries he)).1
  have hn' := (hv.validName (hv.lookup_of_mem_entries he')).1
  have hname := (Path.normalize_join_inj hn hn' hee').2
  exact List.inj_on_of_nodup_map (hv.nodup_entries q) he he' hname

/-- **A listing holds the eligible files of its directory.** -/
theorem mem_listFiles {L : List String} (hD : v.resolve D true = .ok (.node q .dir))
    (h : pl.listFiles v R D = .ok L) : f ∈ L ↔ pl.Eligible v R D f := by
  unfold listFiles at h
  rw [listDir_of_resolve hD] at h
  cases h
  rw [List.mem_filterMap]
  constructor
  · rintro ⟨⟨name, n⟩, he, hf⟩
    dsimp only at hf
    rw [Option.ite_none_left_eq_some, Option.ite_none_left_eq_some, Option.some.injEq] at hf
    obtain ⟨hkeep, hcl, rfl⟩ := hf
    rw [Bool.not_eq_true, Bool.or_eq_false_iff, Bool.not_eq_false'] at hkeep
    refine ⟨q, (name, n), hD, he, ⟨?_, hkeep.2, Option.isSome_iff_ne_none.2 fun hn => hcl ?_⟩, rfl⟩
    · -- what the listing keeps is a file or a link that leads to one
      cases n with
      | file c => exact Or.inl ⟨c, rfl⟩
      | link t => exact Or.inr ⟨t, rfl, hkeep.1⟩
      | dir => exact absurd hkeep.1 Bool.false_ne_true
    · rw [hn]
      rfl
  · rintro ⟨q', ⟨name, n⟩, hD', he, ⟨hkind, hex, hcl⟩, rfl⟩
    rw [hD] at hD'
    cases hD'
    refine ⟨(name, n), he, ?_⟩
    dsimp only at hkind hex ⊢
    rw [Option.ite_none_left_eq_some, Option.ite_none_left_eq_some]
    refine ⟨?_, ?_, rfl⟩
    · rcases hkind with ⟨c, rfl⟩ | ⟨t, rfl, ht⟩
      · rw [hex]
        exact Bool.false_ne_true
      · dsimp only
        rw [ht, hex]
        decide
    · rw [Option.isNone_iff_eq_none]
      exact Option.isSome_iff_ne_none.1 hcl

/-- **Listing a directory** gives its eligible files, each once. -/
theorem listFiles_ok (hv : v.WellFormed) (hD : v.resolve D true = .ok (.node q .dir)) :
    ∃ L, pl.listFiles v R D = .ok L ∧ L.Nodup ∧ ∀ f, f ∈ L ↔ pl.Eligible v R D f := by
  obtain ⟨L, hL⟩ : ∃ L, pl.listFiles v R D = .ok L := listFiles_exists hD
  exact ⟨L, hL, listFiles_nodup hv hD hL, fun f => mem_listFiles hD hL⟩

/-- **What a directory contributes to the print order**: its eligible files,
less the implementation files that pairing leaves out when only headers are
printed. -/
theorem mem_arrange_pinFront {L : List String} (hL : ∀ f, f ∈ L ↔ pl.Eligible v R D f)
    (rs : List Rule) (depth : Nat) (hf ho : Bool) :
    f ∈ Pairing.arrange pl.classifier hf ho (pinFront L rs depth) ↔
      pl.Eligible v R D f ∧ ¬ (ho = true ∧ pl.classifier.classify f = some .implementation ∧
        ∃ g, pl.Eligible v R D g ∧ pl.classifier.classify g = some .header ∧ Pairing.stemOf g = Pairing.stemOf f) := by
  have hperm := pinFront_perm L rs depth
  rw [Pairing.mem_arrange, hperm.mem_iff, hL]
  constructor
  · rintro ⟨hE, -, hkeep⟩
    refine ⟨hE, fun ⟨hho, himpl, g, hg, hgh, hgs⟩ => hkeep ⟨hho, himpl, g, ?_, hgh, hgs⟩⟩
    rw [hperm.mem_iff, hL]
    exact hg
  · rintro ⟨hE, hkeep⟩
    refine ⟨hE, hE.classify, fun ⟨hho, himpl, g, hg, hgh, hgs⟩ => hkeep ⟨hho, himpl, g, ?_, hgh, hgs⟩⟩
    rw [hperm.mem_iff, hL] at hg
    exact hg

/-- Files eligible in directories of different normal paths are different. -/
theorem Eligible.ne (hv : v.WellFormed) {D' f' : String} (hD : Path.normalize D = D)
    (hD' : Path.normalize D' = D') (hne : D ≠ D') (h : pl.Eligible v R D f)
    (h' : pl.Eligible v R D' f') : f ≠ f' := by
  obtain ⟨name, hn, rfl⟩ := h.name hv
  obtain ⟨name', hn', rfl⟩ := h'.name hv
  intro he
  apply hne
  rw [← hD, ← hD']
  exact (Path.normalize_join_inj hn hn' he).1

/-- **The print order of a tree**: when every directory of the tree can be
listed, the sequence lists each directory's files in pre-order, and no file
twice. -/
theorem sequence_ok (hv : v.WellFormed) {tree : DirTree} (ht : tree.Shaped)
    (hnorm : ∀ j n, tree.get? j = some n → Path.normalize n.identifier = n.identifier)
    (rules : RuleSet)
    (hlist : ∀ j n, tree.get? j = some n → ∃ L, pl.listFiles v tree.rootPath n.identifier = .ok L ∧
      L.Nodup ∧ ∀ f, f ∈ L ↔ pl.Eligible v tree.rootPath n.identifier f) :
    ∃ s, pl.sequence v tree rules = .ok s ∧ s.paths.Nodup ∧
      ∀ f, f ∈ s.paths ↔ ∃ i n, tree.get? i = some n ∧ pl.Eligible v tree.rootPath n.identifier f ∧
        ¬ (rules.headersOnly = true ∧ pl.classifier.classify f = some .implementation ∧
          ∃ g, pl.Eligible v tree.rootPath n.identifier g ∧
            pl.classifier.classify g = some .header ∧ Pairing.stemOf g = Pairing.stemOf f) := by
  -- the entry of a directory, read off its listing
  set entry : DirNode → DirectoryFiles := fun n =>
    ⟨n.identifier, n.depth, Pairing.arrange pl.classifier rules.headersFirst rules.headersOnly
      (pinFront ((pl.listFiles v tree.rootPath n.identifier).toOption.getD []) rules.fileRules
        (n.depth + 1))⟩ with hentry
  have hfiles : ∀ j n, tree.get? j = some n → ∃ L, pl.listFiles v tree.rootPath n.identifier = .ok L ∧
      L.Nodup ∧ (∀ f, f ∈ L ↔ pl.Eligible v tree.rootPath n.identifier f) ∧
      (entry n).files = Pairing.arrange pl.classifier rules.headersFirst rules.headersOnly
        (pinFront L rules.fileRules (n.depth + 1)) := by
    intro j n hn
    obtain ⟨L, hL, hnd, hmem⟩ := hlist j n hn
    refine ⟨L, hL, hnd, hmem, ?_⟩
    rw [hentry]
    dsimp only
    rw [hL]
    rfl
  refine ⟨⟨(tree.preOrder.filterMap tree.get?).map entry⟩, ?_, ?_, fun f => ?_⟩
  · unfold sequence
    dsimp only
    rw [List.mapM_eq_ok entry ?_]
    · rfl
    · intro n hn
      obtain ⟨i, hi⟩ := ht.mem_nodes.1 hn
      obtain ⟨L, hL, -, -, -⟩ := hfiles i n hi
      rw [hentry]
      dsimp only
      rw [hL]
      rfl
  · unfold Sequence.paths
    dsimp only
    rw [List.flatMap_map, List.nodup_flatMap]
    refine ⟨fun n hn => ?_, ?_⟩
    · obtain ⟨i, hi⟩ := ht.mem_nodes.1 hn
      obtain ⟨L, -, hnd, -, hfn⟩ := hfiles i n hi
      rw [hfn]
      exact Pairing.nodup_arrange ((pinFront_perm L _ _).nodup_iff.2 hnd)
    · -- directories of different paths list different files
      refine ht.nodes_pairwise.imp_of_mem fun {a b} ha hb hab f hfa hfb => ?_
      obtain ⟨i, hi⟩ := ht.mem_nodes.1 ha
      obtain ⟨j, hj⟩ := ht.mem_nodes.1 hb
      obtain ⟨L, -, -, hL, hfn⟩ := hfiles i a hi
      obtain ⟨L', -, -, hL', hfn'⟩ := hfiles j b hj
      dsimp only at hfa hfb
      rw [hfn, mem_arrange_pinFront hL] at hfa
      rw [hfn', mem_arrange_pinFront hL'] at hfb
      exact Eligible.ne hv (hnorm i a hi) (hnorm j b hj) hab hfa.1 hfb.1 rfl
  · unfold Sequence.paths
    dsimp only
    rw [List.flatMap_map, List.mem_flatMap]
    constructor
    · rintro ⟨n, hn, hf⟩
      obtain ⟨i, hi⟩ := ht.mem_nodes.1 hn
      obtain ⟨L, -, -, hL, hfn⟩ := hfiles i n hi
      rw [hfn, mem_arrange_pinFront hL] at hf
      exact ⟨i, n, hi, hf⟩
    · rintro ⟨i, n, hi, hf⟩
      obtain ⟨L, -, -, hL, hfn⟩ := hfiles i n hi
      refine ⟨n, ht.mem_nodes.2 ⟨i, hi⟩, ?_⟩
      rw [hfn, mem_arrange_pinFront hL]
      exact hf

/-- Planning from a readable rule file whose root scans and whose reordered
tree sequences gives the plan of those. -/
theorem planFromFile_of_ok {path : String} {T : DirTree} {s : Sequence}
    (hload : RuleSet.load v path = .ok rules) (hscan : DirTree.scan v pl.exclusions rules.root = .ok T)
    (hseq : pl.sequence v (T.reorder rules.dirRules) rules = .ok s) :
    pl.planFromFile v path = .ok ⟨rules, T.reorder rules.dirRules, s⟩ := by
  unfold planFromFile Planner.plan
  rw [hload, Except.ok_bind, hscan, Except.ok_bind]
  dsimp only
  rw [hseq, Except.ok_bind]
  rfl

/-- Planning from a readable rule file whose root fails to scan fails with
the scan's error. -/
theorem planFromFile_of_scan_error {path : String} {e : OrderError}
    (hload : RuleSet.load v path = .ok rules) (hscan : DirTree.scan v pl.exclusions rules.root = .error e) :
    pl.planFromFile v path = .error e := by
  unfold planFromFile Planner.plan
  rw [hload, Except.ok_bind, hscan]
  rfl

/-- **Every directory a scan kept can be listed** when the directories it
keeps below the root have paths shorter than `pathMax` bytes: the normal
path it is recorded by is no longer. -/
theorem listFiles_ok_of_kept {ex : Exclusions} {p : Place} {T : DirTree} {j : Nat} {n : DirNode}
    (hv : v.WellFormed) (hR : Path.normalize R = R) (hroot : v.resolve R true = .ok (.node p .dir))
    (hshort : ∀ ms, DirTree.Kept v ex p ms → (Path.joinAll R ms).utf8ByteSize < pathMax)
    (hT : DirTree.KeptNodes v ex R p T) (hn : T.get? j = some n) :
    ∃ L, pl.listFiles v R n.identifier = .ok L ∧ L.Nodup ∧ ∀ f, f ∈ L ↔ pl.Eligible v R n.identifier f := by
  obtain ⟨ms, hk, hid⟩ := hT j n hn
  have hlen : (Path.normalize (Path.joinAll R ms)).utf8ByteSize < pathMax :=
    Nat.lt_of_le_of_lt (utf8ByteSize_normalize_joinAll_le hR fun x hx => (hv.validName_of_chain hk.1 x hx).1)
      (hshort ms hk)
  rw [hid]
  exact listFiles_ok hv (hv.resolve_normalize_joinAll hR hroot hk.1 hlen)

/-- **The root of a readable rule file scans, and its reordered tree
sequences**, when the root leads to a directory at `p` and every directory
the scan keeps below it has a path shorter than `pathMax` bytes: the
sequence prints no file twice, and prints exactly the files eligible in a
directory of the tree, less the implementation files pairing leaves out. -/
theorem scan_sequence_ok {path : String} {p : Place} (hv : v.WellFormed)
    (hload : RuleSet.load v path = .ok rules) (hroot : v.resolve rules.root true = .ok (.node p .dir))
    (hshort : ∀ ms, DirTree.Kept v pl.exclusions p ms → (Path.joinAll rules.root ms).utf8ByteSize < pathMax) :
    ∃ T, DirTree.scan v pl.exclusions rules.root = .ok T ∧ ∃ s,
      pl.sequence v (T.reorder rules.dirRules) rules = .ok s ∧ s.paths.Nodup ∧
      ∀ f, f ∈ s.paths ↔ ∃ i n, (T.reorder rules.dirRules).get? i = some n ∧
        pl.Eligible v rules.root n.identifier f ∧
        ¬ (rules.headersOnly = true ∧ pl.classifier.classify f = some .implementation ∧
          ∃ g, pl.Eligible v rules.root n.identifier g ∧
            pl.classifier.classify g = some .header ∧ Pairing.stemOf g = Pairing.stemOf f) := by
  have hR := RuleSet.normalize_root_load hload
  obtain ⟨T, hscan, hT, -⟩ := DirTree.scan_ok_of_short hv hroot hshort
  -- the plan's tree has the scan's paths, under the same root
  have htree := hT.toRecorded.reorder hR rules.dirRules
  have hkept := hT.kept.reorder hT.reach rules.dirRules
  have hrootPath : (T.reorder rules.dirRules).rootPath = rules.root := by
    rw [htree.reach.rootPath, hR]
  -- each of its directories reads back to itself, so it can be listed
  obtain ⟨s, hseq, hnd, hmem⟩ := sequence_ok hv htree.reach.shaped (fun j n hn => htree.reach.normal hn)
    rules fun j n hn => hrootPath ▸ listFiles_ok_of_kept hv hR hroot hshort hkept hn
  refine ⟨T, hscan, s, hseq, hnd, fun f => ?_⟩
  rw [hmem, hrootPath]

/-- **Planning succeeds** when the rule file can be read, its root leads to
a directory at `p` and every directory the scan keeps below it has a path
shorter than `pathMax` bytes. -/
theorem planFromFile_succeeds {path : String} {p : Place} (hv : v.WellFormed)
    (hload : RuleSet.load v path = .ok rules) (hroot : v.resolve rules.root true = .ok (.node p .dir))
    (hshort : ∀ ms, DirTree.Kept v pl.exclusions p ms → (Path.joinAll rules.root ms).utf8ByteSize < pathMax) :
    ∃ plan, pl.planFromFile v path = .ok plan ∧ plan.rules = rules := by
  obtain ⟨T, hscan, s, hseq, -⟩ := scan_sequence_ok hv hload hroot hshort
  exact ⟨_, planFromFile_of_ok hload hscan hseq, rfl⟩

/-- **Planning prints each eligible file once.** When the rule file can be
read, its root leads to a directory at `p` and every directory the scan
keeps below it has a path shorter than `pathMax` bytes, planning succeeds,
prints no file twice, and prints exactly the files eligible in a directory
of the plan's tree, except an implementation file when only headers are
printed and a header of the same stem is eligible beside it. -/
theorem plan_prints_each_eligible_file_once {path : String} {p : Place} (hv : v.WellFormed)
    (hload : RuleSet.load v path = .ok rules) (hroot : v.resolve rules.root true = .ok (.node p .dir))
    (hshort : ∀ ms, DirTree.Kept v pl.exclusions p ms → (Path.joinAll rules.root ms).utf8ByteSize < pathMax) :
    ∃ plan, pl.planFromFile v path = .ok plan ∧ plan.rules = rules ∧ plan.paths.Nodup ∧
      ∀ f, f ∈ plan.paths ↔ ∃ i n, plan.tree.get? i = some n ∧
        pl.Eligible v rules.root n.identifier f ∧
        ¬ (rules.headersOnly = true ∧ pl.classifier.classify f = some .implementation ∧
          ∃ g, pl.Eligible v rules.root n.identifier g ∧
            pl.classifier.classify g = some .header ∧ Pairing.stemOf g = Pairing.stemOf f) := by
  obtain ⟨T, hscan, s, hseq, hnd, hmem⟩ := scan_sequence_ok hv hload hroot hshort
  exact ⟨⟨rules, T.reorder rules.dirRules, s⟩, planFromFile_of_ok hload hscan hseq, rfl, hnd, hmem⟩

/-- The rules of the project: `src` first at the top, and `src/util.py` first
among the files of `src`. -/
def projectRules : RuleSet := RuleSet.parse "dir src\nfile src/util.py\n" "/"

/-- The planner of the project: `build` left out, `.h` headers, `.c`
implementation files, and `.py` and `.md` files printed as others. -/
def projectPlanner : Planner := ⟨DirTree.buildExcluded, ⟨["h"], ["c"], ["py", "md"]⟩⟩

theorem projectRules_root : projectRules.root = "/" := by decide

theorem project_readFile : DirTree.projectVolume.readFile "/rules" = .ok "dir src\nfile src/util.py\n" :=
  readFile_top "rules" (by decide) (by decide) (by decide)

theorem project_load : RuleSet.load DirTree.projectVolume "/rules" = .ok projectRules := by
  rw [RuleSet.load_of_readFile project_readFile, show (Path.parent? "/rules").getD "" = "/" by decide]
  rfl

theorem project_resolve_root : DirTree.projectVolume.resolve projectRules.root true = .ok (.node [] .dir) := by
  rw [projectRules_root]
  exact resolve_top true

/-- No directory of the project has a path too long to be read below its
root: it has too few places for one. -/
theorem project_short (ms : List String) (hk : DirTree.Kept DirTree.projectVolume projectPlanner.exclusions [] ms) :
    (Path.joinAll projectRules.root ms).utf8ByteSize < pathMax :=
  DirTree.projectVolume_wellFormed.joinAll_short (by rw [projectRules_root]; decide) hk.1

/-- The project plans with its rules. -/
theorem project_plans : ∃ plan, projectPlanner.planFromFile DirTree.projectVolume "/rules" = .ok plan := by
  obtain ⟨plan, h, -⟩ := planFromFile_succeeds DirTree.projectVolume_wellFormed project_load
    project_resolve_root project_short
  exact ⟨plan, h⟩

/-- The project, planned with its rules, is one the theorem covers. -/
theorem project_plans_each_eligible_file_once :
    ∃ plan, projectPlanner.planFromFile DirTree.projectVolume "/rules" = .ok plan ∧ plan.rules = projectRules ∧
      plan.paths.Nodup ∧
      ∀ f, f ∈ plan.paths ↔ ∃ i n, plan.tree.get? i = some n ∧
        projectPlanner.Eligible DirTree.projectVolume projectRules.root n.identifier f ∧
        ¬ (projectRules.headersOnly = true ∧ projectPlanner.classifier.classify f = some .implementation ∧
          ∃ g, projectPlanner.Eligible DirTree.projectVolume projectRules.root n.identifier g ∧
            projectPlanner.classifier.classify g = some .header ∧ Pairing.stemOf g = Pairing.stemOf f) :=
  plan_prints_each_eligible_file_once DirTree.projectVolume_wellFormed project_load project_resolve_root
    project_short

/-- **A rule file whose root is a directory may still not plan**: the empty
rule file of `deepVolume` is read, its root is the top, which is a
directory, and planning from it fails. -/
theorem deep_volume_not_planned :
    DirTree.deepVolume.readFile "/r" = .ok "" ∧ (RuleSet.parse "" "/").root = "/" ∧
      DirTree.deepVolume.resolve "/" true = .ok (.node [] .dir) ∧
      ∃ e, (Planner.mk {} ⟨["h"], ["c"], ["py"]⟩).planFromFile DirTree.deepVolume "/r" = .error e := by
  have hread : DirTree.deepVolume.readFile "/r" = .ok "" := readFile_top "r" (by decide) (by decide) (by decide)
  have hload : RuleSet.load DirTree.deepVolume "/r" = .ok (RuleSet.parse "" "/") := by
    rw [RuleSet.load_of_readFile hread, show (Path.parent? "/r").getD "" = "/" by decide]
  have hroot : (RuleSet.parse "" "/").root = "/" := by decide
  -- the scan reaches the sixteenth directory, whose path is too long
  obtain ⟨ms, -, -, he⟩ := DirTree.scan_error_of_long DirTree.deepVolume_wellFormed (resolve_top true)
    DirTree.deepVolume_kept DirTree.deepVolume_long
  exact ⟨hread, hroot, resolve_top true, _, planFromFile_of_scan_error hload (hroot ▸ he)⟩

end Planner

end ReadingOrder
