import ReadingOrder.Precedence
import ReadingOrder.Proofs.Tree.Shape
import ReadingOrder.Proofs.Path.Join
import Mathlib.Data.List.Perm.Basic
import Mathlib.Data.List.Pairwise
/-!
# What precedence does to a level

`pinFront` only moves entries: each rule takes at most one entry out of the
part no rule has taken yet and puts it at the end of the front part, and
what is left follows. Nothing is copied or dropped, so the result is a
permutation of the entries (`pinFront_perm`), and whatever holds of the
entries as a whole — being paths of distinct nodes, say — holds of the
result.
-/

namespace ReadingOrder

variable {α : Type} {p : α → Bool} {xs ys : List α} {y : α}

/-- Taking the first match out of a list keeps every element. -/
theorem takeFirst_perm (h : takeFirst p xs = some (y, ys)) : xs.Perm (y :: ys) := by
  induction xs generalizing y ys with
  | nil => cases h
  | cons x xs ih =>
    unfold takeFirst at h
    split at h
    · cases h
      exact List.Perm.refl _
    · cases ht : takeFirst p xs with
      | none =>
        rw [ht] at h
        cases h
      | some r =>
        rw [ht] at h
        cases h
        exact ((ih ht).cons x).trans (List.Perm.swap _ _ _)

/-- One rule's move keeps the entries of both parts together. -/
theorem pinStep_perm (state : List String × List String) (target : String) :
    ((pinStep state target).1 ++ (pinStep state target).2).Perm (state.1 ++ state.2) := by
  unfold pinStep
  split
  · rename_i c rest h
    have hp := takeFirst_perm h
    rw [List.append_assoc, List.singleton_append]
    exact (hp.append_left state.1).symm
  · exact List.Perm.refl _

theorem foldl_pinStep_perm (targets : List String) (state : List String × List String) :
    ((targets.foldl pinStep state).1 ++ (targets.foldl pinStep state).2).Perm
      (state.1 ++ state.2) := by
  induction targets generalizing state with
  | nil => exact List.Perm.refl _
  | cons t ts ih =>
    rw [List.foldl_cons]
    exact (ih _).trans (pinStep_perm state t)

/-- **Precedence permutes the entries of a level.** -/
theorem pinFront_perm (entries : List String) (rules : List Rule) (depth : Nat) :
    (pinFront entries rules depth).Perm entries := by
  unfold pinFront
  exact foldl_pinStep_perm _ ([], entries)

/-! ## The order precedence gives

The entries of a level are distinct paths, so a target names at most one of
them, whether or not it is written in normal form: `/r/./a` names `/r/a`
(`namedBy`). Precedence therefore has a closed form: the entries the rules
name, each once, in the order of the first rule naming it, then the other
entries in their order (`pinFront_eq_ruleOrder_namedBy`). With normal
targets, the entries named are the targets found (`pinFront_eq_ruleOrder`).

A level already in precedence order stays in it under a second pass, whether
or not its entries repeat (`pinFront_idem`, below). -/

/-- The targets of the rules for one depth, in rule order. -/
def targetsAt (rules : List Rule) (depth : Nat) : List String :=
  (rules.filter (·.depth = depth)).map (·.target)

/-- **The order rules give a level**: the targets among the entries, each
once, in the order of the first rule naming it, then the other entries in
their order. -/
def ruleOrder (entries targets : List String) : List String :=
  (targets.filter (· ∈ entries)).eraseDups ++ entries.filter (· ∉ targets)

@[simp] theorem ruleOrder_nil (targets : List String) : ruleOrder [] targets = [] := by
  simp [ruleOrder]

/-- Taking the first match out of a list whose only match is `t`. -/
theorem takeFirst_of_unique {t : α} [DecidableEq α] (hp : ∀ y ∈ xs, p y = true ↔ y = t) :
    takeFirst p xs = if t ∈ xs then some (t, xs.erase t) else none := by
  induction xs with
  | nil => rfl
  | cons x xs ih =>
    have ih' := ih fun y hy => hp y (List.mem_cons_of_mem _ hy)
    unfold takeFirst
    by_cases hx : x = t
    · subst hx
      rw [if_pos ((hp x List.mem_cons_self).2 rfl), if_pos List.mem_cons_self, List.erase_cons_head]
    · have hpx : p x = false := by
        rw [Bool.eq_false_iff]
        exact fun h => hx ((hp x List.mem_cons_self).1 h)
      rw [if_neg (by rw [hpx]; exact Bool.false_ne_true), ih']
      by_cases ht : t ∈ xs
      · rw [if_pos ht, if_pos (List.mem_cons_of_mem _ ht), List.erase_cons_tail (by
          rw [beq_iff_eq]; exact hx)]
        rfl
      · rw [if_neg ht, if_neg (fun h => (List.mem_cons.1 h).elim (fun h' => hx h'.symm) ht)]
        rfl

variable {C P : List String} {t : String}

/-- **One rule's move on a level where its target names `c`**: when the
entries that are the same path as the target are exactly `c`, the front part
gains `c` if it is still among the rest, and the rest loses it. -/
theorem pinStep_filter_of_same {c : String} (hC : C.Nodup)
    (hsame : ∀ y ∈ C, Path.same y t = true ↔ y = c) :
    pinStep ((P.filter (· ∈ C)).eraseDups, C.filter (· ∉ P)) t =
      (((P ++ [c]).filter (· ∈ C)).eraseDups, C.filter (· ∉ P ++ [c])) := by
  have hsame' : ∀ y ∈ C.filter (· ∉ P), Path.same y t = true ↔ y = c := fun y hy =>
    hsame y (List.mem_filter.1 hy).1
  unfold pinStep
  rw [takeFirst_of_unique hsame', List.filter_append, List.eraseDups_append]
  by_cases hin : c ∈ C.filter (· ∉ P)
  · -- the target names an entry still in the rest: it moves to the front
    obtain ⟨hcC, hcP⟩ := List.mem_filter.1 hin
    have hcP' : c ∉ P := by simpa using hcP
    have hrem : [c].removeAll (P.filter (· ∈ C)) = [c] := by
      simp [List.removeAll, hcP']
    rw [if_pos hin]
    dsimp only
    rw [List.filter_cons_of_pos (by simpa using hcC), List.filter_nil, hrem,
      List.Nodup.erase_eq_filter (hC.filter _), List.filter_filter]
    refine Prod.ext rfl (List.filter_congr fun y _ => ?_)
    by_cases hyc : y = c <;> simp [hyc]
  · -- nothing is found: both parts stay
    rw [if_neg hin]
    have hrest : C.filter (· ∉ P ++ [c]) = C.filter (· ∉ P) := by
      refine List.filter_congr fun y hy => ?_
      by_cases hyc : y = c
      · subst hyc
        simp only [List.mem_filter, hy, true_and, decide_eq_true_eq, not_not] at hin
        simp [hin]
      · simp [hyc]
    have hfront : ([c].filter (· ∈ C)).removeAll (P.filter (· ∈ C)) = [] := by
      by_cases hcC : c ∈ C
      · have hcP : c ∈ P := by simpa [hcC] using hin
        simp [List.removeAll, hcC, hcP]
      · simp [hcC]
    dsimp only
    rw [hrest, hfront, List.eraseDups_nil, List.append_nil]

/-- **Rules in turn, each target naming one entry**: when every target `t`
names the entry `f t` and no other, the front part gains the named entries in
order, each once, and the rest keeps the entries none of them named. -/
theorem foldl_pinStep_of_same (hC : C.Nodup) (f : String → String) :
    ∀ (ts P : List String), (∀ t ∈ ts, ∀ y ∈ C, Path.same y t = true ↔ y = f t) →
      ts.foldl pinStep ((P.filter (· ∈ C)).eraseDups, C.filter (· ∉ P)) =
        (((P ++ ts.map f).filter (· ∈ C)).eraseDups, C.filter (· ∉ P ++ ts.map f))
  | [], P, _ => by rw [List.foldl_nil, List.map_nil, List.append_nil]
  | t :: ts, P, hts => by
    rw [List.foldl_cons, pinStep_filter_of_same hC (hts t List.mem_cons_self),
      foldl_pinStep_of_same hC f ts (P ++ [f t]) fun t' h => hts t' (List.mem_cons_of_mem _ h),
      List.map_cons, List.append_assoc, List.singleton_append]

/-- The entry of `entries` that is the same path as the target `t`, or `t`
itself when there is none. -/
def namedBy (entries : List String) (t : String) : String :=
  (entries.find? (Path.same · t)).getD t

section Distinct

variable (hd : C.Pairwise fun a b => Path.same a b = false)
include hd

theorem nodup_of_pairwise_same : C.Nodup :=
  hd.imp fun {a b} h hab => by
    subst hab
    rw [Path.same_refl] at h
    cases h

theorem same_eq_false_of_pairwise {y c : String} (hy : y ∈ C) (hc : c ∈ C) (hne : y ≠ c) :
    Path.same y c = false := by
  have : Std.Symm fun a b : String => Path.same a b = false :=
    ⟨fun _ _ h => Bool.eq_false_iff.2 fun hba => Bool.eq_false_iff.1 h (Path.same_comm hba)⟩
  exact hd.forall hy hc hne

/-- **A target names one entry at most**: on a level of distinct paths, the
entries that are the same path as `t` are exactly `namedBy`. -/
theorem same_iff_eq_namedBy : ∀ y ∈ C, Path.same y t = true ↔ y = namedBy C t := by
  intro y hy
  unfold namedBy
  cases hf : C.find? (Path.same · t) with
  | some c =>
    have hct : Path.same c t = true := List.find?_some (p := (Path.same · t)) hf
    rw [Option.getD_some]
    refine ⟨fun hyt => ?_, fun h => h ▸ hct⟩
    -- two different entries cannot both be the same path as `t`
    by_contra hne
    have hyc := same_eq_false_of_pairwise hd hy (List.mem_of_find?_eq_some hf) hne
    rw [Path.same_trans hyt (Path.same_comm hct)] at hyc
    cases hyc
  | none =>
    rw [Option.getD_none]
    have hno := List.find?_eq_none.1 hf y hy
    refine ⟨fun h => absurd h hno, fun h => ?_⟩
    subst h
    exact absurd (Path.same_refl y) hno

/-- **Precedence in closed form on a level of distinct paths**: the entries
the rules for the depth name, each once and in the order of the first rule
naming it, then the other entries in their order. -/
theorem pinFront_eq_ruleOrder_namedBy (rules : List Rule) (depth : Nat) :
    pinFront C rules depth = ruleOrder C ((targetsAt rules depth).map (namedBy C)) := by
  have hfold := foldl_pinStep_of_same (nodup_of_pairwise_same hd) (namedBy C) (targetsAt rules depth)
    [] fun t _ => same_iff_eq_namedBy hd (t := t)
  rw [List.filter_nil, List.eraseDups_nil, List.nil_append] at hfold
  have hstart : C.filter (· ∉ ([] : List String)) = C :=
    List.filter_eq_self.2 fun c _ => by simp
  rw [hstart] at hfold
  unfold pinFront ruleOrder
  dsimp only
  rw [show (rules.filter (·.depth = depth)).map (·.target) = targetsAt rules depth from rfl, hfold]

end Distinct

/-- **Precedence in closed form**: on a level of distinct normal paths, with
targets in normal form, precedence puts the targets found first, each once
and in the order of the first rule naming it, and then the rest in order. -/
theorem pinFront_eq_ruleOrder {entries : List String} {rules : List Rule} (depth : Nat)
    (hC : entries.Nodup) (hn : ∀ c ∈ entries, Path.normalize c = c)
    (ht : ∀ r ∈ rules, Path.normalize r.target = r.target) :
    pinFront entries rules depth = ruleOrder entries (targetsAt rules depth) := by
  -- distinct normal paths are different paths, and a normal target names itself
  have hd : entries.Pairwise fun a b => Path.same a b = false :=
    hC.imp_of_mem fun ha hb hab => Bool.eq_false_iff.2 fun hs =>
      hab ((Path.same_iff_eq (hn _ ha) (hn _ hb)).1 hs)
  have hself : ∀ t ∈ targetsAt rules depth, namedBy entries t = t := by
    intro t htm
    obtain ⟨r, hr, rfl⟩ := List.mem_map.1 htm
    have hrt := ht r (List.mem_filter.1 hr).1
    unfold namedBy
    cases hf : entries.find? (Path.same · r.target) with
    | none => rfl
    | some c =>
      exact (Path.same_iff_eq (hn c (List.mem_of_find?_eq_some hf)) hrt).1
        (List.find?_some (p := (Path.same · r.target)) hf)
  rw [pinFront_eq_ruleOrder_namedBy hd, List.map_congr_left hself, List.map_id']

/-! ## Rules that change nothing -/

theorem target_mem_targetsAt {rules : List Rule} {r : Rule} (hr : r ∈ rules) :
    r.target ∈ targetsAt rules r.depth :=
  List.mem_map.2 ⟨r, List.mem_filter.2 ⟨hr, decide_eq_true rfl⟩, rfl⟩

theorem targetsAt_append (A B : List Rule) (depth : Nat) :
    targetsAt (A ++ B) depth = targetsAt A depth ++ targetsAt B depth := by
  unfold targetsAt
  rw [List.filter_append, List.map_append]

/-- **Targets that change nothing**: targets that name no entry, or name one
an earlier target already named, leave the rule order as it was. -/
theorem ruleOrder_insert {T₁ T₂ T₃ : List String} (h : ∀ t ∈ T₂, t ∈ C → t ∈ T₁) :
    ruleOrder C (T₁ ++ T₂ ++ T₃) = ruleOrder C (T₁ ++ T₃) := by
  -- the entries among `T₂` are already among those of `T₁`
  have hfront : (T₂.filter (· ∈ C)).removeAll (T₁.filter (· ∈ C)) = [] := by
    unfold List.removeAll
    rw [List.filter_eq_nil_iff]
    intro t ht
    obtain ⟨ht₂, htC⟩ := List.mem_filter.1 ht
    have htC' : t ∈ C := by simpa using htC
    simp [h t ht₂ htC', htC']
  have hrest : C.filter (· ∉ T₁ ++ T₂ ++ T₃) = C.filter (· ∉ T₁ ++ T₃) := by
    refine List.filter_congr fun c hc => ?_
    by_cases hc₂ : c ∈ T₂
    · simp [hc₂, h c hc₂ hc]
    · simp [hc₂]
  unfold ruleOrder
  rw [hrest, List.filter_append, List.filter_append, List.append_assoc, List.eraseDups_append,
    List.filter_append, List.eraseDups_append]
  unfold List.removeAll at hfront ⊢
  rw [List.filter_append, hfront, List.nil_append]

/-- **Rules whose targets sit at their own depth**: when every rule naming an
entry is a rule for the level's depth, the depth filter changes nothing, and
the order is that of all the rules' targets. -/
theorem ruleOrder_targetsAt {rules : List Rule} {depth : Nat}
    (h : ∀ r ∈ rules, r.target ∈ C → r.depth = depth) :
    ruleOrder C (targetsAt rules depth) = ruleOrder C (rules.map (·.target)) := by
  have hfront : (targetsAt rules depth).filter (· ∈ C) = (rules.map (·.target)).filter (· ∈ C) := by
    unfold targetsAt
    rw [List.filter_map, List.filter_map, List.filter_filter]
    congr 1
    refine List.filter_congr fun r hr => ?_
    by_cases hC : r.target ∈ C
    · simp [hC, h r hr hC]
    · simp [hC]
  have hrest : C.filter (· ∉ targetsAt rules depth) = C.filter (· ∉ rules.map (·.target)) := by
    refine List.filter_congr fun c hc => ?_
    unfold targetsAt
    -- an entry is a target exactly when it is the target of a rule for this depth
    have hiff : c ∈ (rules.filter (·.depth = depth)).map (·.target) ↔ c ∈ rules.map (·.target) := by
      simp only [List.mem_map, List.mem_filter, decide_eq_true_eq]
      constructor
      · rintro ⟨r, ⟨hr, -⟩, hrc⟩
        exact ⟨r, hr, hrc⟩
      · rintro ⟨r, hr, rfl⟩
        exact ⟨r, ⟨hr, h r hr hc⟩, rfl⟩
    simp only [hiff]
  unfold ruleOrder
  rw [hfront, hrest]

/-- **Rules that change nothing at a level**: on a level of distinct normal
paths, rules whose targets at the level's depth name no entry, or name one a
rule before them named, leave precedence as it was. -/
theorem pinFront_insert {A X B : List Rule} (depth : Nat) (hC : C.Nodup)
    (hn : ∀ c ∈ C, Path.normalize c = c) (ht : ∀ r ∈ A ++ X ++ B, Path.normalize r.target = r.target)
    (hX : ∀ r ∈ X, r.depth = depth → r.target ∈ C → r.target ∈ targetsAt A depth) :
    pinFront C (A ++ X ++ B) depth = pinFront C (A ++ B) depth := by
  have ht' : ∀ r ∈ A ++ B, Path.normalize r.target = r.target := by
    intro r hr
    rcases List.mem_append.1 hr with hr | hr
    · exact ht r (List.mem_append_left _ (List.mem_append_left _ hr))
    · exact ht r (List.mem_append_right _ hr)
  rw [pinFront_eq_ruleOrder depth hC hn ht, pinFront_eq_ruleOrder depth hC hn ht', targetsAt_append,
    targetsAt_append, targetsAt_append, ruleOrder_insert]
  intro t htX htC
  obtain ⟨r, hr, rfl⟩ := List.mem_map.1 htX
  obtain ⟨hrX, hd⟩ := List.mem_filter.1 hr
  exact hX r hrX (by simpa using hd) htC

/-! ## Precedence on any level

Two facts hold of every level, with repeated entries or not. The part the
rules took grows apart from the rest: a rule reads only what is left
(`foldl_pinStep_front`). And a second pass over what a first pass gives
takes the same entries in the same order (`foldl_pinStep_again`): a rule
that took an entry finds it again at the head of what is left, because the
entries it took before are already gone from there, and a rule that found
nothing finds nothing among the same entries reordered. -/

/-- Taking the first match finds nothing exactly when nothing matches. -/
theorem takeFirst_eq_none_iff : takeFirst p xs = none ↔ ∀ x ∈ xs, p x = false := by
  induction xs with
  | nil => simp [takeFirst]
  | cons x xs ih =>
    unfold takeFirst
    by_cases hx : p x = true
    · simp [hx]
    · simp [hx, ih]

/-- What taking the first match takes out matches. -/
theorem takeFirst_pred (h : takeFirst p xs = some (y, ys)) : p y = true := by
  induction xs generalizing ys with
  | nil => cases h
  | cons x xs ih =>
    unfold takeFirst at h
    split at h
    · cases h
      assumption
    · obtain ⟨⟨y', ys'⟩, hr, he⟩ := Option.map_eq_some_iff.1 h
      cases he
      exact ih hr

/-- One rule's move reads only the rest: the front part it is given stays in
front. -/
theorem pinStep_front (F R : List String) (t : String) :
    pinStep (F, R) t = (F ++ (pinStep ([], R) t).1, (pinStep ([], R) t).2) := by
  cases h : takeFirst (Path.same · t) R with
  | none => simp [pinStep, h]
  | some r => simp [pinStep, h]

/-- **Rules in turn read only the rest**: a fold from any front part is the
fold from the empty one, with that front part put before what it took. -/
theorem foldl_pinStep_front (targets F R : List String) :
    targets.foldl pinStep (F, R) =
      (F ++ (targets.foldl pinStep ([], R)).1, (targets.foldl pinStep ([], R)).2) := by
  induction targets generalizing F R with
  | nil => simp
  | cons t ts ih =>
    rcases hs : pinStep ([], R) t with ⟨F₁, R₁⟩
    have hstep : pinStep (F, R) t = (F ++ F₁, R₁) := by rw [pinStep_front, hs]
    rw [List.foldl_cons, List.foldl_cons, hstep, hs, ih (F ++ F₁) R₁, ih F₁ R₁, List.append_assoc]

/-- **A second pass takes what the first took**: the entries the rules took,
in order, followed by what they left, are taken apart the same way again. -/
theorem foldl_pinStep_again (targets R : List String) :
    targets.foldl pinStep ([], (targets.foldl pinStep ([], R)).1 ++ (targets.foldl pinStep ([], R)).2) =
      targets.foldl pinStep ([], R) := by
  induction targets generalizing R with
  | nil => simp
  | cons t ts ih =>
    simp only [List.foldl_cons]
    cases ht : takeFirst (Path.same · t) R with
    | some r =>
      obtain ⟨c, rest⟩ := r
      -- the rule took `c`, which heads what the first pass gives and is taken again
      have hstep : pinStep ([], R) t = ([c], rest) := by simp [pinStep, ht]
      have hc : Path.same c t = true := takeFirst_pred (p := (Path.same · t)) ht
      have hagain : ∀ L : List String, pinStep ([], [c] ++ L) t = ([c], L) := fun L => by
        simp [pinStep, takeFirst, hc]
      rw [hstep, foldl_pinStep_front ts [c] rest, List.append_assoc, hagain, foldl_pinStep_front ts [c],
        ih rest]
    | none =>
      have hstep : pinStep ([], R) t = ([], R) := by simp [pinStep, ht]
      rw [hstep]
      -- the first pass leaves the same entries, none of which matches
      have hnone : takeFirst (Path.same · t)
          ((ts.foldl pinStep ([], R)).1 ++ (ts.foldl pinStep ([], R)).2) = none := by
        rw [takeFirst_eq_none_iff] at ht ⊢
        exact fun x hx => ht x ((foldl_pinStep_perm ts ([], R)).subset hx)
      have hagain : pinStep ([], (ts.foldl pinStep ([], R)).1 ++ (ts.foldl pinStep ([], R)).2) t =
          ([], (ts.foldl pinStep ([], R)).1 ++ (ts.foldl pinStep ([], R)).2) := by
        simp [pinStep, hnone]
      rw [hagain, ih R]

/-- **Precedence is idempotent on every level**: a level put in precedence
order is already in it, whether or not its entries repeat. -/
theorem pinFront_idem (C : List String) (rules : List Rule) (depth : Nat) :
    pinFront (pinFront C rules depth) rules depth = pinFront C rules depth := by
  unfold pinFront
  dsimp only
  rw [foldl_pinStep_again]

/-! ## The entries the rules pin -/

/-- **The entries the rules for `depth` pin**, in order: for each rule, the
entry that is the same path as its target, unless an earlier rule pinned
that entry already. -/
def pinnedAt (entries : List String) (rules : List Rule) (depth : Nat) : List String :=
  ((targetsAt rules depth).filterMap fun t => entries.find? (Path.same · t)).eraseDups

/-- The entries among those the targets name are the entries found for
them. -/
theorem filter_mem_map_namedBy (C T : List String) :
    (T.map (namedBy C)).filter (· ∈ C) = T.filterMap fun t => C.find? (Path.same · t) := by
  induction T with
  | nil => rfl
  | cons t T ih =>
    rw [List.map_cons]
    cases hf : C.find? (Path.same · t) with
    | some c =>
      have hname : namedBy C t = c := by rw [namedBy, hf, Option.getD_some]
      rw [List.filterMap_cons_some (f := fun t => C.find? (Path.same · t)) hf, hname,
        List.filter_cons_of_pos (p := (· ∈ C)) (decide_eq_true (List.mem_of_find?_eq_some hf)), ih]
    | none =>
      -- a target naming no entry is no entry itself
      have ht : t ∉ C := fun htC => by
        have hno := List.find?_eq_none.1 hf t htC
        rw [Path.same_refl] at hno
        exact hno rfl
      have hname : namedBy C t = t := by rw [namedBy, hf, Option.getD_none]
      rw [List.filterMap_cons_none (f := fun t => C.find? (Path.same · t)) hf, hname, List.filter_cons_of_neg (p := (· ∈ C)) (by simpa using ht), ih]

/-- **Precedence pins, then keeps the rest in order**, on a level of
distinct paths. -/
theorem pinFront_eq_pinnedAt {C : List String} (hd : C.Pairwise fun a b => Path.same a b = false)
    (rules : List Rule) (depth : Nat) :
    pinFront C rules depth = pinnedAt C rules depth ++ C.filter (· ∉ pinnedAt C rules depth) := by
  rw [pinFront_eq_ruleOrder_namedBy hd]
  unfold ruleOrder pinnedAt
  rw [filter_mem_map_namedBy]
  congr 1
  refine List.filter_congr fun c hc => ?_
  -- an entry is named by a target exactly when it is pinned
  have hiff : c ∈ (targetsAt rules depth).map (namedBy C) ↔
      c ∈ ((targetsAt rules depth).filterMap fun t => C.find? (Path.same · t)).eraseDups := by
    rw [List.mem_eraseDups, ← filter_mem_map_namedBy, List.mem_filter]
    simp [hc]
  simp only [hiff]

/-- **Precedence is a stable pinning permutation.** It reorders a level
without losing or copying an entry, and a second pass changes nothing, also
when entries repeat. On a level of distinct paths it puts first, for each
rule of the level's depth in turn, the entry that is the same path as the
rule's target unless it was pinned already, and then the other entries in
their order: rules of other depths, rules naming no entry and repeated
rules change nothing. -/
theorem pinFront_stable_pinning (C : List String) (rules : List Rule) (depth : Nat) :
    (pinFront C rules depth).Perm C ∧
      pinFront (pinFront C rules depth) rules depth = pinFront C rules depth ∧
      (C.Pairwise (fun a b => Path.same a b = false) →
        pinFront C rules depth = pinnedAt C rules depth ++ C.filter (· ∉ pinnedAt C rules depth)) :=
  ⟨pinFront_perm C rules depth, pinFront_idem C rules depth,
    fun hd => pinFront_eq_pinnedAt hd rules depth⟩

/-- Three distinct entries, with a rule written `/r/./c`, a rule of another
depth, a rule naming nothing and a repeated rule, are a level the theorem
covers. -/
theorem pinFront_stable_pinning_three :
    ["/r/a", "/r/b", "/r/c"].Pairwise (fun a b => Path.same a b = false) ∧
      pinFront ["/r/a", "/r/b", "/r/c"]
          [⟨"/r/./c", .directory, 1, "./c"⟩, ⟨"/r/b", .directory, 2, "b"⟩,
            ⟨"/r/zzz", .directory, 1, "zzz"⟩, ⟨"/r/a", .directory, 1, "a"⟩,
            ⟨"/r/c", .directory, 1, "c"⟩] 1 =
        pinnedAt ["/r/a", "/r/b", "/r/c"]
            [⟨"/r/./c", .directory, 1, "./c"⟩, ⟨"/r/b", .directory, 2, "b"⟩,
              ⟨"/r/zzz", .directory, 1, "zzz"⟩, ⟨"/r/a", .directory, 1, "a"⟩,
              ⟨"/r/c", .directory, 1, "c"⟩] 1 ++
          ["/r/a", "/r/b", "/r/c"].filter (· ∉ pinnedAt ["/r/a", "/r/b", "/r/c"]
            [⟨"/r/./c", .directory, 1, "./c"⟩, ⟨"/r/b", .directory, 2, "b"⟩,
              ⟨"/r/zzz", .directory, 1, "zzz"⟩, ⟨"/r/a", .directory, 1, "a"⟩,
              ⟨"/r/c", .directory, 1, "c"⟩] 1) :=
  have hd : ["/r/a", "/r/b", "/r/c"].Pairwise (fun a b => Path.same a b = false) := by decide
  ⟨hd, (pinFront_stable_pinning _ _ 1).2.2 hd⟩

example : pinFront ["/r/a", "/r/a", "/r/./a", "/r/b"]
    [⟨"/r/a", .directory, 1, "a"⟩, ⟨"/r/b", .directory, 1, "b"⟩, ⟨"/r/a", .directory, 1, "a"⟩] 1 =
      ["/r/a", "/r/b", "/r/a", "/r/./a"] := by
  decide

end ReadingOrder
