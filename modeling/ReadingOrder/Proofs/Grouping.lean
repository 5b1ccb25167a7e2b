import ReadingOrder.Sequence.Group
import Mathlib.Data.List.Perm.Basic
import Mathlib.Data.List.Nodup
/-!
# Grouping by stem, declaratively

`Pairing.arrange` reads the files of a directory once, with a table from each
stem met to the position of its group, and then sorts each paired group on a
Boolean key. Said without the table and the sort, the groups are the files
of each stem, the stems taken in the order they first come (`groups`), and a
paired group is its headers and then its other members, or the other way
round, each part in its order (`settle`). The two agree
(`arrange_eq_flatMap_settle`).

The table is carried by an invariant of the loop (`Groups.Tracks`): after the
classified files `l`, the groups are `groups l`, and the table sends each
stem met to the position of that stem among the stems of `l` in order of
first appearance. Those stems are distinct, so a file added to the group at
that position joins its own stem's group and no other. The sort is stable
and its key Boolean: it keeps the members of each key in their order and
puts the `false` ones first, which is the partition by its key
(`mergeSort_keyLe`).
-/

namespace ReadingOrder

namespace Pairing

/-- **The groups of files by stem**, in order of first appearance. -/
def groups (files : List (String × FileClass)) : List (List (String × FileClass)) :=
  ((files.map (stemOf ·.1)).eraseDups).map fun s => files.filter (stemOf ·.1 == s)

/-- **One group arranged, declaratively**: in a group that pairs a header
with an implementation file, the headers before or after the rest, each part
in its order, and the implementation files dropped when only headers are
printed; any other group as it is. -/
def settle (headersFirst headersOnly : Bool) (g : List (String × FileClass)) : List String :=
  if paired g then
    let heads := g.filter (·.2 == .header)
    let rest := g.filter (·.2 != .header)
    let sorted := if headersFirst then heads ++ rest else rest ++ heads
    ((if headersOnly then sorted.filter (·.2 != .implementation) else sorted)).map (·.1)
  else g.map (·.1)

/-- The stems of classified files, in order of first appearance. -/
def stems (l : List (String × FileClass)) : List String :=
  (l.map (stemOf ·.1)).eraseDups

/-- Erasing duplicates leaves no duplicate. -/
theorem nodup_eraseDups (l : List String) : l.eraseDups.Nodup := by
  match l with
  | [] => exact List.nodup_nil
  | a :: as =>
    rw [List.eraseDups_cons, List.nodup_cons]
    refine ⟨?_, nodup_eraseDups (as.filter fun b => !b == a)⟩
    simp [List.mem_eraseDups]
termination_by l.length
decreasing_by simpa using Nat.lt_succ_of_le (List.length_filter_le _ as)

/-! ## The stems of the files read so far -/

variable {l : List (String × FileClass)} {p : String} {c : FileClass}

theorem mem_stems {s : String} : s ∈ stems l ↔ ∃ y ∈ l, stemOf y.1 = s := by
  unfold stems
  rw [List.mem_eraseDups, List.mem_map]

theorem nodup_stems : (stems l).Nodup :=
  nodup_eraseDups _

/-- A file of a stem met before adds no stem. -/
theorem stems_append_of_mem (h : stemOf p ∈ stems l) : stems (l ++ [(p, c)]) = stems l := by
  have h' : stemOf p ∈ l.map (stemOf ·.1) := List.mem_eraseDups.1 h
  unfold stems
  rw [List.map_append, List.eraseDups_append]
  simp [List.removeAll, h']

/-- A file of a new stem adds its stem last. -/
theorem stems_append_of_not_mem (h : stemOf p ∉ stems l) :
    stems (l ++ [(p, c)]) = stems l ++ [stemOf p] := by
  have h' : stemOf p ∉ l.map (stemOf ·.1) := fun hm => h (List.mem_eraseDups.2 hm)
  unfold stems
  rw [List.map_append, List.eraseDups_append]
  simp [List.removeAll, h', List.eraseDups_cons]

/-- A file added last joins the group of its own stem only. -/
theorem filter_append_stem (s : String) :
    (l ++ [(p, c)]).filter (stemOf ·.1 == s) =
      l.filter (stemOf ·.1 == s) ++ if stemOf p = s then [(p, c)] else [] := by
  rw [List.filter_append]
  by_cases hs : stemOf p = s <;> simp [hs]

/-- Changing the entry of one key in a list mapped over distinct keys. -/
theorem modify_map_of_nodup {β : Type} {S : List String} {f : String → β} {h : β → β} {s : String}
    {i : Nat} (hS : S.Nodup) (hi : S[i]? = some s) :
    (S.map f).modify i h = S.map fun s' => if s' = s then h (f s') else f s' := by
  obtain ⟨hlt, hget⟩ := List.getElem?_eq_some_iff.1 hi
  refine List.ext_getElem (by simp) fun j h₁ h₂ => ?_
  rw [List.getElem_modify, List.getElem_map, List.getElem_map]
  by_cases hij : i = j
  · subst hij
    rw [if_pos rfl, if_pos hget]
  · -- another position holds another key
    have hj : j < S.length := by simpa using h₂
    have hne : S[j] ≠ s := fun he => hij ((hS.getElem_inj_iff).1 (hget.trans he.symm))
    rw [if_neg hij, if_neg hne]

/-! ## The loop keeps its table -/

/-- **The table after reading the classified files `l`**: the groups are the
stem groups of `l`, and the table sends each stem met to the position of its
group and knows no other stem. -/
structure Groups.Tracks (g : Groups) (l : List (String × FileClass)) : Prop where
  groups_eq : g.groups = Pairing.groups l
  index_some : ∀ s i, g.index.lookup s = some i → (stems l)[i]? = some s
  index_none : ∀ s, g.index.lookup s = none → s ∉ stems l

theorem Groups.Tracks.nil : Groups.Tracks ⟨[], []⟩ [] where
  groups_eq := rfl
  index_some _ _ h := by cases h
  index_none _ _ := by simp [stems]

/-- **Adding a file keeps the table**: the file joins the group at the
position of its stem, which is its stem's group, or opens the group of a new
stem last. -/
theorem Groups.Tracks.add {g : Groups} (h : g.Tracks l) (p : String) (c : FileClass) :
    (g.add p c).Tracks (l ++ [(p, c)]) := by
  unfold Groups.add
  cases hl : g.index.lookup (stemOf p) with
  | some i =>
    -- the stem was met: its group sits at position `i`
    have hi := h.index_some _ i hl
    have hst := stems_append_of_mem (c := c) (List.mem_of_getElem? hi)
    refine ⟨?_, fun s i' h' => hst ▸ h.index_some s i' h', fun s h' => hst ▸ h.index_none s h'⟩
    show g.groups.modify i (· ++ [(p, c)]) = (stems (l ++ [(p, c)])).map _
    rw [h.groups_eq, Pairing.groups, ← stems, modify_map_of_nodup nodup_stems hi, hst]
    refine List.map_congr_left fun s _ => ?_
    rw [filter_append_stem]
    by_cases hs : s = stemOf p
    · rw [if_pos hs, if_pos hs.symm]
    · rw [if_neg hs, if_neg (Ne.symm hs), List.append_nil]
  | none =>
    -- a new stem: its group goes last, at the position the table notes
    have hnot := h.index_none _ hl
    have hst := stems_append_of_not_mem (c := c) hnot
    have hlen : g.groups.length = (stems l).length := by
      rw [h.groups_eq, Pairing.groups, List.length_map]
      rfl
    refine ⟨?_, fun s i h' => ?_, fun s h' => ?_⟩
    · show g.groups ++ [[(p, c)]] = (stems (l ++ [(p, c)])).map _
      rw [h.groups_eq, Pairing.groups, ← stems, hst, List.map_append]
      congr 1
      · refine List.map_congr_left fun s hs => ?_
        have hne : stemOf p ≠ s := fun he => hnot (he ▸ hs)
        rw [filter_append_stem, if_neg hne, List.append_nil]
      · -- no file read so far has the new stem
        have hnone : l.filter (stemOf ·.1 == stemOf p) = [] :=
          List.filter_eq_nil_iff.2 fun y hy he =>
            hnot (mem_stems.2 ⟨y, hy, beq_iff_eq.1 he⟩)
        rw [List.map_singleton, filter_append_stem, hnone, if_pos rfl, List.nil_append]
    · rw [hst]
      by_cases hs : s = stemOf p
      · subst hs
        rw [List.lookup_cons, beq_self_eq_true] at h'
        rw [← Option.some.inj h', hlen, List.getElem?_append_right (Nat.le_refl _), Nat.sub_self]
        rfl
      · have h'' : g.index.lookup s = some i := by
          rwa [List.lookup_cons, beq_false_of_ne hs] at h'
        have hi := h.index_some s i h''
        rw [List.getElem?_append_left (List.getElem?_eq_some_iff.1 hi).1, hi]
    · rw [hst]
      have hs : s ≠ stemOf p := by
        rintro rfl
        rw [List.lookup_cons, beq_self_eq_true] at h'
        cases h'
      have h'' : g.index.lookup s = none := by
        rwa [List.lookup_cons, beq_false_of_ne hs] at h'
      rw [List.mem_append, List.mem_singleton]
      exact fun hm => hm.elim (h.index_none s h'') hs

/-- **Reading the files keeps the table**: after the files, the table tracks
the classified files read before and those of the files, in order. -/
theorem Groups.Tracks.foldl (k : Classifier) :
    ∀ (files : List String) {g : Groups} {l : List (String × FileClass)}, g.Tracks l →
      (files.foldl (Groups.read k) g).Tracks (l ++ files.filterMap fun p => (k.classify p).map (p, ·))
  | [], _, _, h => by simpa using h
  | p :: ps, g, l, h => by
    rw [List.foldl_cons]
    cases hc : k.classify p with
    | none =>
      have hread : g.read k p = g := by simp [Groups.read, hc]
      rw [hread, List.filterMap_cons_none (by rw [hc]; rfl)]
      exact Groups.Tracks.foldl k ps h
    | some c =>
      have hread : g.read k p = g.add p c := by simp [Groups.read, hc]
      rw [hread, List.filterMap_cons_some (by rw [hc]; rfl), ← List.singleton_append,
        ← List.append_assoc]
      exact Groups.Tracks.foldl k ps (h.add p c)

/-- **The loop builds the stem groups** of the files that classify. -/
theorem collect_eq_groups (k : Classifier) (files : List String) :
    collect k files = groups (files.filterMap fun p => (k.classify p).map (p, ·)) := by
  have h := Groups.Tracks.nil.foldl k files
  rw [List.nil_append] at h
  exact h.groups_eq

/-! ## A stable sort on a Boolean key -/

section KeySort

variable {α : Type} (key : α → Bool)

theorem keyLe_trans (a b c : α) : keyLe key a b = true → keyLe key b c = true → keyLe key a c = true := by
  unfold keyLe
  cases key a <;> cases key b <;> cases key c <;> simp

theorem keyLe_total (a b : α) : (keyLe key a b || keyLe key b a) = true := by
  unfold keyLe
  cases key a <;> cases key b <;> simp

/-- A list sorted on a Boolean key has its `false` members first. -/
theorem eq_filter_append_of_sorted :
    ∀ {l : List α}, l.Pairwise (fun a b => keyLe key a b = true) →
      l = l.filter (fun x => !key x) ++ l.filter key
  | [], _ => rfl
  | x :: xs, h => by
    have ih := eq_filter_append_of_sorted (List.pairwise_cons.1 h).2
    cases hx : key x with
    | false =>
      rw [List.filter_cons_of_pos (by simp [hx]), List.filter_cons_of_neg (by simp [hx]),
        List.cons_append, ← ih]
    | true =>
      -- everything after a `true` member is `true` too
      have hall : ∀ y ∈ xs, key y = true := fun y hy => by
        simpa [keyLe, hx] using (List.pairwise_cons.1 h).1 y hy
      rw [List.filter_cons_of_neg (by simp [hx]), List.filter_cons_of_pos hx,
        List.filter_eq_nil_iff.2 fun y hy => by simp [hall y hy], List.filter_eq_self.2 hall,
        List.nil_append]

/-- The members of one key of a list, in their order, are those of its
stable sort. -/
theorem filter_mergeSort_keyLe (b : Bool) (l : List α) :
    (l.mergeSort (keyLe key)).filter (fun x => key x == b) = l.filter (fun x => key x == b) := by
  have hperm := List.mergeSort_perm l (keyLe key)
  -- the members of one key are in order, so the sort keeps them as a sublist
  have hsub : (l.filter fun x => key x == b).Sublist (l.mergeSort (keyLe key)) := by
    refine List.sublist_mergeSort (keyLe_trans key) (keyLe_total key) ?_ (List.filter_sublist)
    refine List.Pairwise.imp_of_mem (R := fun _ _ => True) (fun {x y} hx hy _ => ?_)
      (List.pairwise_of_forall fun _ _ => trivial)
    have hx' := beq_iff_eq.1 (List.mem_filter.1 hx).2
    have hy' := beq_iff_eq.1 (List.mem_filter.1 hy).2
    simp [keyLe, hx', hy']
  have hsub' : (l.filter fun x => key x == b).Sublist ((l.mergeSort (keyLe key)).filter fun x => key x == b) := by
    simpa [List.filter_filter] using hsub.filter (fun x => key x == b)
  exact (hsub'.eq_of_length (hperm.filter _).length_eq.symm).symm

/-- **A stable sort on a Boolean key is the partition by the key**: the
`false` members first, then the `true` ones, each in their order. -/
theorem mergeSort_keyLe (l : List α) :
    l.mergeSort (keyLe key) = l.filter (fun x => !key x) ++ l.filter key := by
  have hsorted := List.pairwise_mergeSort (keyLe_trans key) (keyLe_total key) l
  rw [eq_filter_append_of_sorted key hsorted]
  have hfalse := filter_mergeSort_keyLe key false l
  have htrue := filter_mergeSort_keyLe key true l
  simp only [beq_false, beq_true] at hfalse htrue
  rw [hfalse, htrue]

end KeySort

/-! ## The arrangement, declaratively -/

/-- **A group is arranged as `settle` says**: sorting on `sortKey` puts the
headers in front when headers come first, and behind otherwise. -/
theorem arrangeGroup_eq_settle (hf ho : Bool) (g : List (String × FileClass)) :
    arrangeGroup hf ho g = settle hf ho g := by
  unfold arrangeGroup settle
  by_cases hp : paired g = true
  · have hsort : g.mergeSort (keyLe (sortKey hf)) =
        if hf then g.filter (·.2 == .header) ++ g.filter (·.2 != .header)
        else g.filter (·.2 != .header) ++ g.filter (·.2 == .header) := by
      rw [mergeSort_keyLe]
      cases hf with
      | false => rfl
      | true =>
        -- the key is whether a member is no header, so its negation is whether it is one
        congr 1
        exact List.filter_congr fun x _ => by simp [sortKey]
    simp only [hp, if_true, hsort]
  · simp only [hp, Bool.false_eq_true, if_false]

/-- **The arrangement of a directory's files, declaratively**: the stem
groups of the files that classify, each arranged by `settle`. -/
theorem arrange_eq_flatMap_settle (k : Classifier) (hf ho : Bool) (files : List String) :
    arrange k hf ho files = (groups (files.filterMap fun p => (k.classify p).map (p, ·))).flatMap
      (settle hf ho) := by
  unfold arrange
  rw [collect_eq_groups]
  exact List.flatMap_congr fun g _ => arrangeGroup_eq_settle hf ho g

/-- **The stem groups hold every classified file, as often as it comes.** -/
theorem flatten_groups_perm (l : List (String × FileClass)) : (groups l).flatten.Perm l := by
  rw [List.perm_iff_count]
  intro x
  unfold groups
  rw [List.count_flatten, List.map_map]
  -- only the group of `x`'s own stem holds `x`
  have hterm : ∀ s, (l.filter (stemOf ·.1 == s)).count x = if s = stemOf x.1 then l.count x else 0 := by
    intro s
    by_cases hs : s = stemOf x.1
    · rw [if_pos hs, List.count_filter (by simp [hs])]
    · rw [if_neg hs, List.count_eq_zero]
      intro hx
      exact hs (beq_iff_eq.1 (List.mem_filter.1 hx).2).symm
  have hsum : ∀ S : List String, S.Nodup →
      (S.map fun s => if s = stemOf x.1 then l.count x else 0).sum =
        if stemOf x.1 ∈ S then l.count x else 0 := by
    intro S hS
    induction S with
    | nil => simp
    | cons s S ih =>
      obtain ⟨hsS, hS'⟩ := List.nodup_cons.1 hS
      rw [List.map_cons, List.sum_cons, ih hS']
      by_cases hs : s = stemOf x.1
      · subst hs
        simp [hsS]
      · simp [hs, Ne.symm hs]
  simp only [Function.comp_def, hterm]
  rw [hsum _ (nodup_eraseDups _)]
  by_cases hx : x ∈ l
  · rw [if_pos (List.mem_eraseDups.2 (List.mem_map_of_mem hx))]
  · rw [List.count_eq_zero.2 hx]
    split <;> rfl

end Pairing

end ReadingOrder
