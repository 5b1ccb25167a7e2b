import ReadingOrder.Proofs.Pinning
/-!
# Rules match their entries by target alone

Precedence keeps, for a level at depth `d` below the root, only the rules
of depth `d`. That filter never decides anything in a plan: a rule read
from a rule file sits at the depth of its target below the root, every
directory of a scan sits at the depth of its path, and a file listed in a
directory at depth `k` sits at depth `k + 1`. So a rule whose target is an
entry of a level is a rule for that level, and pinning with every rule,
whatever its depth (`pinFrontAll`), orders each level as precedence does.

Planning with that depth-blind precedence, for the directories
(`DirTree.reorderAll`) and for the files (`Planner.sequenceAll`), gives the
same result as planning itself, failures included
(`Planner.planFromFileAll_eq`): a rule moves a directory or a file exactly
when its target is that entry's path, at whatever level the entry lies.
-/

namespace ReadingOrder

/-! ## Precedence over every rule -/

/-- **The entries of a level with every rule's target pinned**, whatever the
rule's depth: the targets in rule order, then everything else in its given
order. -/
def pinFrontAll (entries : List String) (rules : List Rule) : List String :=
  let pinned := (rules.map (·.target)).foldl pinStep ([], entries)
  pinned.1 ++ pinned.2

/-- What remains after a rule's move remained before it. -/
theorem mem_pinStep_snd {state : List String × List String} {t x : String}
    (hx : x ∈ (pinStep state t).2) : x ∈ state.2 := by
  unfold pinStep at hx
  split at hx
  · rename_i c rest h
    exact (takeFirst_perm h).mem_iff.2 (List.mem_cons_of_mem c hx)
  · exact hx

/-- A rule whose target names nothing that remains moves nothing. -/
theorem pinStep_of_unmatched {state : List String × List String} {t : String}
    (h : ∀ x ∈ state.2, Path.same x t = false) : pinStep state t = state := by
  unfold pinStep
  rw [takeFirst_eq_none_iff.2 h]

/-- Leaving out rules that name no entry of a level changes no move. -/
theorem foldl_pinStep_filter {C : List String} (p : Rule → Bool) :
    ∀ (rules : List Rule) (state : List String × List String), (∀ x ∈ state.2, x ∈ C) →
      (∀ r ∈ rules, p r = false → ∀ c ∈ C, Path.same c r.target = false) →
      ((rules.filter p).map (·.target)).foldl pinStep state = (rules.map (·.target)).foldl pinStep state
  | [], _, _, _ => rfl
  | r :: rules, state, hs, hr => by
    have hrest : ∀ r' ∈ rules, p r' = false → ∀ c ∈ C, Path.same c r'.target = false :=
      fun r' hr' => hr r' (List.mem_cons_of_mem r hr')
    cases hp : p r with
    | true =>
      rw [List.filter_cons_of_pos hp, List.map_cons, List.foldl_cons, List.map_cons, List.foldl_cons]
      exact foldl_pinStep_filter p rules _ (fun x hx => hs x (mem_pinStep_snd hx)) hrest
    | false =>
      -- the rule left out names nothing of the level, so it moves nothing
      have hstay : pinStep state r.target = state :=
        pinStep_of_unmatched fun x hx => hr r List.mem_cons_self hp x (hs x hx)
      rw [List.filter_cons_of_neg (by rw [hp]; exact Bool.false_ne_true), List.map_cons,
        List.foldl_cons, hstay]
      exact foldl_pinStep_filter p rules state hs hrest

/-- **Precedence reads no depth when the rules naming an entry are rules for
its level.** -/
theorem pinFront_eq_pinFrontAll {C : List String} {rules : List Rule} {depth : Nat}
    (h : ∀ r ∈ rules, ∀ c ∈ C, Path.same c r.target = true → r.depth = depth) :
    pinFront C rules depth = pinFrontAll C rules := by
  unfold pinFront pinFrontAll
  rw [foldl_pinStep_filter (C := C) _ rules ([], C) (fun x hx => hx) fun r hr hp c hc => ?_]
  -- a rule of another depth names no entry of the level
  cases hs : Path.same c r.target with
  | false => rfl
  | true => exact absurd (decide_eq_true (h r hr c hc hs)) (by rw [hp]; exact Bool.false_ne_true)

/-- A rule resolved against `R` that names a normal path at depth `k` below
`R` is a rule of depth `k`. -/
theorem Rule.depth_eq_of_same {R c : String} {r : Rule} {k : Nat}
    (hr : Path.normalize r.target = r.target ∧ Path.depthBelow R r.target = some r.depth)
    (hc : Path.normalize c = c) (hk : Path.depthBelow R c = some k) (hs : Path.same c r.target = true) :
    r.depth = k := by
  rw [Path.same_iff_eq hc hr.1] at hs
  rw [hs, hr.2] at hk
  exact Option.some.inj hk

/-! ## Planning with depth-blind precedence -/

namespace DirTree

/-- `copyOrdered` with every level put in depth-blind precedence. -/
def copyOrderedAll (input : DirTree) (rules : List Rule) : Nat → Nat → DirTree → Nat → DirTree
  | 0, _, out, _ => out
  | fuel + 1, inId, out, outId =>
    -- a position with no node copies nothing
    (input.get? inId).elim out fun _ =>
      let level := placeLevel input outId out (pinFrontAll (input.childPaths inId) rules)
      level.2.foldl (fun o x => copyOrderedAll input rules fuel x.1 o x.2) level.1

/-- **The tree with every level in depth-blind precedence.** -/
def reorderAll (input : DirTree) (rules : List Rule) : DirTree :=
  copyOrderedAll input rules input.size 0 (new input.rootPath) 0

variable {T : DirTree} {rules : List Rule}

theorem copyOrderedAll_succ {fuel inId outId : Nat} {out : DirTree} {node : DirNode}
    (h : T.get? inId = some node) :
    copyOrderedAll T rules (fuel + 1) inId out outId =
      (placeLevel T outId out (pinFrontAll (T.childPaths inId) rules)).2.foldl
        (fun o x => copyOrderedAll T rules fuel x.1 o x.2)
        (placeLevel T outId out (pinFrontAll (T.childPaths inId) rules)).1 := by
  rw [copyOrderedAll, h]
  rfl

/-- **Depth-blind copying is copying** when every rule naming a child of a
node is a rule for the level below that node. -/
theorem copyOrderedAll_eq
    (h : ∀ i n, T.get? i = some n → ∀ r ∈ rules, ∀ c ∈ T.childPaths i,
      Path.same c r.target = true → r.depth = n.depth + 1) (fuel : Nat) :
    ∀ inId out outId, copyOrderedAll T rules fuel inId out outId = copyOrdered T rules fuel inId out outId := by
  induction fuel with
  | zero =>
    intro _ _ _
    rfl
  | succ fuel ih =>
    intro inId out outId
    cases hn : T.get? inId with
    | none => simp only [copyOrdered, copyOrderedAll, hn, Option.elim_none]
    | some n =>
      -- the same level is placed, and every child is copied the same way
      rw [copyOrderedAll_succ hn, copyOrdered_succ hn, pinFront_eq_pinFrontAll (h inId n hn)]
      simp only [ih]

theorem reorderAll_eq
    (h : ∀ i n, T.get? i = some n → ∀ r ∈ rules, ∀ c ∈ T.childPaths i,
      Path.same c r.target = true → r.depth = n.depth + 1) :
    T.reorderAll rules = T.reorder rules :=
  copyOrderedAll_eq h _ _ _ _

end DirTree

namespace Planner

/-- `sequence` with every listing put in depth-blind precedence. -/
def sequenceAll (pl : Planner) (v : Volume) (tree : DirTree) (rules : RuleSet) :
    Except OrderError Sequence := do
  let nodes := tree.preOrder.filterMap tree.get?
  let dirs ← nodes.mapM fun node => do
    let listed ← pl.listFiles v tree.rootPath node.identifier
    let ranked := pinFrontAll listed rules.fileRules
    let files := Pairing.arrange pl.classifier rules.headersFirst rules.headersOnly ranked
    return (⟨node.identifier, node.depth, files⟩ : DirectoryFiles)
  return ⟨dirs⟩

/-- `plan` with depth-blind precedence for directories and files. -/
def planAll (pl : Planner) (v : Volume) (rules : RuleSet) : Except OrderError Plan := do
  let scanned ← DirTree.scan v pl.exclusions rules.root
  let tree := scanned.reorderAll rules.dirRules
  let sequence ← pl.sequenceAll v tree rules
  return ⟨rules, tree, sequence⟩

/-- `planFromFile` with depth-blind precedence. -/
def planFromFileAll (pl : Planner) (v : Volume) (path : String) : Except OrderError Plan := do
  pl.planAll v (← RuleSet.load v path)

variable {pl : Planner} {v : Volume}

/-- **Depth-blind sequencing is sequencing** when every file rule naming a
listed file is a rule for the level below its directory. -/
theorem sequenceAll_eq {tree : DirTree} {rules : RuleSet}
    (h : ∀ m ∈ tree.preOrder.filterMap tree.get?, ∀ L,
      pl.listFiles v tree.rootPath m.identifier = .ok L →
        ∀ r ∈ rules.fileRules, ∀ f ∈ L, Path.same f r.target = true → r.depth = m.depth + 1) :
    pl.sequenceAll v tree rules = pl.sequence v tree rules := by
  unfold sequence sequenceAll
  dsimp only
  congr 1
  refine List.mapM_congr fun m hm => ?_
  cases hL : pl.listFiles v tree.rootPath m.identifier with
  | error e => rfl
  | ok L =>
    rw [Except.ok_bind, Except.ok_bind, pinFront_eq_pinFrontAll (h m hm L hL)]

/-! ## A rule's depth is its target's -/

section Depth

variable {R : String} {p : Place} {T : DirTree} {r : Rule}
  (hv : v.WellFormed) (hR : Path.normalize R = R) (hT : DirTree.NameOrdered v R p T)
  (hr : Path.normalize r.target = r.target ∧ Path.depthBelow R r.target = some r.depth)
include hv hR hT hr

/-- A rule naming a child of a scanned directory is a rule for the level
below that directory. -/
theorem depth_eq_of_same_child {i : Nat} {n : DirNode} (hn : T.get? i = some n) {c : String}
    (hc : c ∈ T.childPaths i) (hs : Path.same c r.target = true) : r.depth = n.depth + 1 :=
  Rule.depth_eq_of_same hr (hT.reach.childPaths_normal hc) (hT.depthBelow_child hv hR hn hc) hs

/-- A rule naming a file listed in a directory of a reordered scan is a rule
for the level below that directory. -/
theorem depth_eq_of_same_listed (rules : List Rule) {j : Nat} {m : DirNode}
    (hm : (T.reorder rules).get? j = some m) {L : List String}
    (hL : pl.listFiles v R m.identifier = .ok L) {f : String} (hf : f ∈ L)
    (hs : Path.same f r.target = true) : r.depth = m.depth + 1 :=
  Rule.depth_eq_of_same hr (((listFiles_spec hv hL).2.1 f).1 hf |>.normal hv)
    (depthBelow_of_listFiles hv hR hT rules hm hL hf) hs

end Depth

/-- **Depth-blind planning is planning** with rules resolved against a
normal root. -/
theorem planAll_eq (hv : v.WellFormed) {rules : RuleSet} (hR : Path.normalize rules.root = rules.root)
    (hres : rules.Resolved) : pl.planAll v rules = pl.plan v rules := by
  unfold planAll plan
  cases hs : DirTree.scan v pl.exclusions rules.root with
  | error e => rw [Except.error_bind, Except.error_bind]
  | ok T =>
    obtain ⟨p, hroot⟩ := DirTree.resolve_of_scan hs
    have hT := DirTree.scan_nameOrdered hv hroot hs
    have htree : T.reorderAll rules.dirRules = T.reorder rules.dirRules :=
      DirTree.reorderAll_eq fun i n hn r hr c hc hsame =>
        depth_eq_of_same_child hv hR hT (hres r (List.mem_append_left _ hr)) hn hc hsame
    have hseq : pl.sequenceAll v (T.reorder rules.dirRules) rules =
        pl.sequence v (T.reorder rules.dirRules) rules := by
      have hreach := (hT.toRecorded.reorder hR rules.dirRules).reach
      refine sequenceAll_eq fun m hm L hL r hr f hf hsame => ?_
      rw [hreach.rootPath, hR] at hL
      obtain ⟨j, hj⟩ := hreach.shaped.mem_nodes.1 hm
      exact depth_eq_of_same_listed hv hR hT (hres r (List.mem_append_right _ hr)) _ hj hL hf hsame
    rw [Except.ok_bind, Except.ok_bind]
    dsimp only
    rw [htree, hseq]

/-- **Planning reads no rule's depth**: planned with depth-blind precedence
for directories and files, a rule file gives what it gives, failures
included. -/
theorem planFromFileAll_eq (hv : v.WellFormed) (pl : Planner) (path : String) :
    pl.planFromFileAll v path = pl.planFromFile v path := by
  unfold planFromFileAll planFromFile
  cases hl : RuleSet.load v path with
  | error e => rw [Except.error_bind, Except.error_bind]
  | ok rules =>
    rw [Except.ok_bind, Except.ok_bind]
    exact planAll_eq hv (RuleSet.normalize_root_load hl) (RuleSet.load_resolved hl)

/-- **Every entry of a plan sits at its own depth**, and so every rule
naming one is a rule for its level: each directory of the scan `T` of the
rules' root lies at its depth below the root, a directory of the plan's tree
at depth `k` lists files at depth `k + 1`, and a directory rule naming a child
of a directory, or a file rule naming a listed file, has that entry's
depth. -/
structure TargetsAtDepth (pl : Planner) (v : Volume) (plan : Plan) (T : DirTree) : Prop where
  dirs : ∀ i n, T.get? i = some n → Path.depthBelow plan.rules.root n.identifier = some n.depth
  files : ∀ j m, plan.tree.get? j = some m → ∀ L, pl.listFiles v plan.rules.root m.identifier = .ok L →
    ∀ f ∈ L, Path.depthBelow plan.rules.root f = some (m.depth + 1)
  dirRules : ∀ i n, T.get? i = some n → ∀ c ∈ T.childPaths i, ∀ r ∈ plan.rules.dirRules,
    Path.same c r.target = true → r.depth = n.depth + 1
  fileRules : ∀ j m, plan.tree.get? j = some m → ∀ L, pl.listFiles v plan.rules.root m.identifier = .ok L →
    ∀ f ∈ L, ∀ r ∈ plan.rules.fileRules, Path.same f r.target = true → r.depth = m.depth + 1

/-- **Rules match their entries by target alone.** In a plan read from a rule
file, every directory of the scan sits at its own depth below the root, and
a directory at depth `k` lists files at depth `k + 1`; so a directory rule
naming a child of a directory, or a file rule naming a listed file, is a
rule for the level of that entry, and planning with precedence that ignores
the rules' depths plans the same, failures included. -/
theorem plan_matches_rules_by_target (hv : v.WellFormed) (pl : Planner) (path : String) :
    pl.planFromFileAll v path = pl.planFromFile v path ∧
      ∀ plan, pl.planFromFile v path = .ok plan →
        ∃ T, DirTree.scan v pl.exclusions plan.rules.root = .ok T ∧ pl.TargetsAtDepth v plan T := by
  refine ⟨planFromFileAll_eq hv pl path, fun plan h => ?_⟩
  obtain ⟨p, T, -, hR, hres, hscan, hT, htree, -⟩ := planFromFile_spec hv h
  refine ⟨T, hscan, ⟨fun i n hn => hT.depthBelow_identifier hv hR hn, ?_, ?_, ?_⟩⟩
  · intro j m hm L hL f hf
    rw [htree] at hm
    exact depthBelow_of_listFiles hv hR hT _ hm hL hf
  · intro i n hn c hc r hr hs
    exact depth_eq_of_same_child hv hR hT (hres r (List.mem_append_left _ hr)) hn hc hs
  · intro j m hm L hL f hf r hr hs
    rw [htree] at hm
    exact depth_eq_of_same_listed hv hR hT (hres r (List.mem_append_right _ hr)) _ hm hL hf hs

/-- The project, planned with its rules, is one the theorem covers. -/
theorem project_matches_rules_by_target :
    ∃ plan, projectPlanner.planFromFile DirTree.projectVolume "/rules" = .ok plan ∧
      projectPlanner.planFromFileAll DirTree.projectVolume "/rules" = .ok plan ∧
      ∃ T, DirTree.scan DirTree.projectVolume DirTree.buildExcluded plan.rules.root = .ok T ∧
        projectPlanner.TargetsAtDepth DirTree.projectVolume plan T := by
  obtain ⟨plan, h⟩ := project_plans
  obtain ⟨hall, hdepth⟩ :=
    plan_matches_rules_by_target DirTree.projectVolume_wellFormed projectPlanner "/rules"
  exact ⟨plan, h, hall.trans h, hdepth plan h⟩

end Planner

end ReadingOrder
