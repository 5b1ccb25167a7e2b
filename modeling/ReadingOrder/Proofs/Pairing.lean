import ReadingOrder.Proofs.Grouping
import Mathlib.Data.List.Nodup
/-!
# What pairing keeps

`Pairing.arrange` regroups the files of a directory by stem and may leave
implementation files out, but it never invents a file or repeats one. A file
is kept exactly when it classifies and it is not the case that only headers
are printed, the file is an implementation file, and a header of the same
stem is among the files (`mem_arrange`); files that were distinct stay
distinct (`nodup_arrange`).

Both rest on two facts. The groups split the classified files by stem, one
group per stem. And a group's arrangement is a reordering of the group with,
at most, its implementation files left out: `settle` only moves headers in
front of or behind the rest, and drops implementation files from a group that
pairs a header with one.

Read whole, the arrangement is the stem groups of the classified files, each
settled (`arrange_eq_stem_groups`): when every file classifies, each stem's
files stay together, and unless only headers are printed the arrangement is
a reordering of the files (`arrange_perm`).
-/

namespace ReadingOrder

namespace Pairing

variable {hf ho : Bool} {g cl : List (String × FileClass)} {files : List String} {x : String}
  {k : Classifier}

theorem mem_map_fst : x ∈ g.map Prod.fst ↔ ∃ c, (x, c) ∈ g := by
  rw [List.mem_map]
  constructor
  · rintro ⟨⟨y, c⟩, hy, rfl⟩
    exact ⟨c, hy⟩
  · rintro ⟨c, hc⟩
    exact ⟨(x, c), hc, rfl⟩

/-- A group pairs when it holds a header and an implementation file. -/
theorem paired_iff : paired g = true ↔
    (∃ y ∈ g, y.2 = .header) ∧ ∃ y ∈ g, y.2 = .implementation := by
  unfold paired
  simp only [Bool.and_eq_true, List.any_eq_true, beq_iff_eq]

/-- Headers in front of the rest, or behind it, is a reordering of the group. -/
theorem sorted_perm (hf : Bool) (g : List (String × FileClass)) :
    (if hf then g.filter (·.2 == .header) ++ g.filter (·.2 != .header)
      else g.filter (·.2 != .header) ++ g.filter (·.2 == .header)).Perm g := by
  cases hf with
  | true => exact List.filter_append_perm _ g
  | false => exact List.perm_append_comm.trans (List.filter_append_perm _ g)

/-- **What a group keeps**: every member, except its implementation files
when only headers are printed and the group pairs a header with one. -/
theorem mem_settle : x ∈ settle hf ho g ↔
    ∃ c, (x, c) ∈ g ∧ ¬ (ho = true ∧ paired g = true ∧ c = .implementation) := by
  unfold settle
  split
  · rename_i hp
    dsimp only
    rw [mem_map_fst]
    have hs := sorted_perm hf g
    cases ho with
    | true =>
      simp only [if_true, List.mem_filter, hs.mem_iff, bne_iff_ne, ne_eq, hp, true_and]
    | false =>
      simp only [Bool.false_eq_true, if_false, hs.mem_iff, false_and, not_false_eq_true, and_true]
  · rename_i hp
    rw [mem_map_fst]
    simp only [hp, Bool.false_eq_true, false_and, and_false, not_false_eq_true, and_true]

/-- A group's arrangement repeats no file the group did not repeat. -/
theorem nodup_settle (h : (g.map Prod.fst).Nodup) : (settle hf ho g).Nodup := by
  unfold settle
  split
  · dsimp only
    have hs := ((sorted_perm hf g).map Prod.fst).nodup_iff.2 h
    cases ho with
    | true => exact hs.sublist (List.filter_sublist.map Prod.fst)
    | false => exact hs
  · exact h

/-- The groups are the classified files of each stem, one group per stem. -/
theorem mem_groups {g' : List (String × FileClass)} : g' ∈ groups cl ↔
    ∃ y ∈ cl, g' = cl.filter (stemOf ·.1 == stemOf y.1) := by
  unfold groups
  simp only [List.mem_map, List.mem_eraseDups]
  constructor
  · rintro ⟨s, ⟨y, hy, rfl⟩, rfl⟩
    exact ⟨y, hy, rfl⟩
  · rintro ⟨y, hy, rfl⟩
    exact ⟨stemOf y.1, ⟨y, hy, rfl⟩, rfl⟩

/-- A file classifies as `c` exactly when it is listed with `c`. -/
theorem mem_classified {c : FileClass} :
    (x, c) ∈ files.filterMap (fun p => (k.classify p).map (p, ·)) ↔
      x ∈ files ∧ k.classify x = some c := by
  rw [List.mem_filterMap]
  constructor
  · rintro ⟨p, hp, hpc⟩
    obtain ⟨c', hc', hpair⟩ := Option.map_eq_some_iff.1 hpc
    cases hpair
    exact ⟨hp, hc'⟩
  · rintro ⟨hx, hc⟩
    exact ⟨x, hx, by rw [hc]; rfl⟩

theorem classified_fst_sublist (k : Classifier) (files : List String) :
    ((files.filterMap fun p => (k.classify p).map (p, ·)).map Prod.fst).Sublist files := by
  induction files with
  | nil => exact List.Sublist.slnil
  | cons p ps ih =>
    cases hc : k.classify p with
    | none =>
      rw [List.filterMap_cons_none (by rw [hc]; rfl)]
      exact ih.cons p
    | some c =>
      rw [List.filterMap_cons_some (by rw [hc]; rfl), List.map_cons]
      exact ih.cons_cons p

/-- **A file is printed** exactly when it classifies, unless only headers
are printed, it is an implementation file and a header of the same stem is
among the files. -/
theorem mem_arrange : x ∈ arrange k hf ho files ↔
    x ∈ files ∧ (k.classify x).isSome ∧
      ¬ (ho = true ∧ k.classify x = some .implementation ∧
        ∃ y ∈ files, k.classify y = some .header ∧ stemOf y = stemOf x) := by
  rw [arrange_eq_flatMap_settle, List.mem_flatMap]
  constructor
  · rintro ⟨g, hg, hx⟩
    obtain ⟨y, -, rfl⟩ := mem_groups.1 hg
    obtain ⟨c, hxc, hkeep⟩ := mem_settle.1 hx
    obtain ⟨hxcl, hstem⟩ := List.mem_filter.1 hxc
    obtain ⟨hxf, hxk⟩ := mem_classified.1 hxcl
    refine ⟨hxf, by rw [hxk]; rfl, ?_⟩
    rintro ⟨hho, hximpl, z, hz, hzk, hzs⟩
    rw [hxk] at hximpl
    cases hximpl
    -- the group of `x` holds `x` and the header `z`, so it pairs
    refine hkeep ⟨hho, paired_iff.2 ⟨⟨(z, .header), ?_, rfl⟩, ⟨(x, .implementation), hxc, rfl⟩⟩, rfl⟩
    refine List.mem_filter.2 ⟨mem_classified.2 ⟨hz, hzk⟩, ?_⟩
    rw [beq_iff_eq] at hstem ⊢
    rw [hzs, hstem]
  · rintro ⟨hxf, hxk, hkeep⟩
    obtain ⟨c, hc⟩ := Option.isSome_iff_exists.1 hxk
    have hxcl := mem_classified.2 ⟨hxf, hc⟩
    refine ⟨_, mem_groups.2 ⟨(x, c), hxcl, rfl⟩, mem_settle.2 ⟨c, ?_, ?_⟩⟩
    · exact List.mem_filter.2 ⟨hxcl, beq_self_eq_true _⟩
    · rintro ⟨hho, hpaired, rfl⟩
      obtain ⟨⟨⟨z, zc⟩, hz, hzh⟩, -⟩ := paired_iff.1 hpaired
      obtain ⟨hzcl, hzs⟩ := List.mem_filter.1 hz
      dsimp only at hzh
      subst hzh
      obtain ⟨hzf, hzk⟩ := mem_classified.1 hzcl
      exact hkeep ⟨hho, hc, z, hzf, hzk, beq_iff_eq.1 hzs⟩

/-- **Pairing repeats no file**: distinct files stay distinct. -/
theorem nodup_arrange (h : files.Nodup) : (arrange k hf ho files).Nodup := by
  rw [arrange_eq_flatMap_settle]
  unfold groups
  rw [List.flatMap_map, List.nodup_flatMap]
  have hcl := h.sublist (classified_fst_sublist k files)
  refine ⟨fun s _ => nodup_settle (hcl.sublist (List.filter_sublist.map Prod.fst)), ?_⟩
  -- groups of different stems hold different files
  refine (nodup_eraseDups _).imp fun {s s'} hne x hx hx' => hne ?_
  obtain ⟨c, hxc, -⟩ := mem_settle.1 hx
  obtain ⟨c', hxc', -⟩ := mem_settle.1 hx'
  rw [← beq_iff_eq.1 (List.mem_filter.1 hxc).2, ← beq_iff_eq.1 (List.mem_filter.1 hxc').2]

/-! ## Groups stay together -/

/-- Of distinct keys, only `s` contributes to a selection by `s`. -/
theorem flatMap_ite_self {S G : List String} {s : String} (hS : S.Nodup) (hs : s ∈ S) :
    S.flatMap (fun s' => if s' = s then G else []) = G := by
  obtain ⟨l₁, l₂, rfl⟩ := List.append_of_mem hs
  have hout : s ∉ l₁ ++ l₂ := (List.nodup_cons.1 (List.nodup_middle.1 hS)).1
  have hnil : ∀ l : List String, (∀ s' ∈ l, s' ≠ s) → l.flatMap (fun s' => if s' = s then G else []) = [] :=
    fun l hl => List.flatMap_eq_nil_iff.2 fun s' hs' => if_neg (hl s' hs')
  rw [List.flatMap_append, List.flatMap_cons, if_pos rfl,
    hnil l₁ fun s' hs' he => hout (List.mem_append_left _ (he ▸ hs')),
    hnil l₂ fun s' hs' he => hout (List.mem_append_right _ (he ▸ hs')), List.nil_append, List.append_nil]

/-- Files that all classify keep their order when classified. -/
theorem classified_fst (hcl : ∀ x ∈ files, (k.classify x).isSome) :
    (files.filterMap fun p => (k.classify p).map (p, ·)).map Prod.fst = files := by
  induction files with
  | nil => rfl
  | cons p ps ih =>
    obtain ⟨c, hc⟩ := Option.isSome_iff_exists.1 (hcl p List.mem_cons_self)
    rw [List.filterMap_cons_some (by rw [hc]; rfl), List.map_cons,
      ih fun x hx => hcl x (List.mem_cons_of_mem _ hx)]

/-- A group's arrangement holds files of the group's stem only. -/
theorem stemOf_of_mem_settle {s : String} (h : x ∈ settle hf ho (cl.filter (stemOf ·.1 == s))) :
    stemOf x = s := by
  obtain ⟨c, hxc, -⟩ := mem_settle.1 h
  exact beq_iff_eq.1 (List.mem_filter.1 hxc).2

/-- **Picking one stem out of the arrangement** gives that stem's group,
arranged. -/
theorem filter_arrange {s : String}
    (hs : s ∈ ((files.filterMap fun p => (k.classify p).map (p, ·)).map (stemOf ·.1)).eraseDups) :
    (arrange k hf ho files).filter (stemOf · = s) =
      settle hf ho ((files.filterMap fun p => (k.classify p).map (p, ·)).filter (stemOf ·.1 == s)) := by
  rw [arrange_eq_flatMap_settle]
  unfold groups
  rw [List.flatMap_map, List.filter_flatMap]
  -- of the distinct stems, only `s` contributes, and all of its group
  have hkeep : ∀ s' ∈ ((files.filterMap fun p => (k.classify p).map (p, ·)).map (stemOf ·.1)).eraseDups,
      (settle hf ho ((files.filterMap fun p => (k.classify p).map (p, ·)).filter
        (stemOf ·.1 == s'))).filter (stemOf · = s) =
        if s' = s then settle hf ho ((files.filterMap fun p => (k.classify p).map (p, ·)).filter
          (stemOf ·.1 == s)) else [] := by
    intro s' _
    by_cases hss : s' = s
    · subst hss
      rw [if_pos rfl]
      exact List.filter_eq_self.2 fun x hx => decide_eq_true (stemOf_of_mem_settle hx)
    · rw [if_neg hss]
      exact List.filter_eq_nil_iff.2 fun x hx => by
        rw [stemOf_of_mem_settle hx]
        exact fun h => hss (of_decide_eq_true h)
  rw [List.flatMap_congr hkeep]
  exact flatMap_ite_self (nodup_eraseDups _) hs

/-- **An arrangement keeps each stem's files together**, the stems in order of
first appearance among the files, when every file classifies. -/
theorem arrange_grouped (hcl : ∀ x ∈ files, (k.classify x).isSome) :
    arrange k hf ho files =
      ((files.map stemOf).eraseDups).flatMap fun s => (arrange k hf ho files).filter (stemOf · = s) := by
  have hstems : (files.filterMap fun p => (k.classify p).map (p, ·)).map (stemOf ·.1) =
      files.map stemOf := by
    rw [← classified_fst hcl, List.map_map, classified_fst hcl]
    rfl
  rw [List.flatMap_congr fun s hs => filter_arrange (by rw [hstems]; exact hs), ← hstems]
  rw [arrange_eq_flatMap_settle]
  unfold groups
  rw [List.flatMap_map]

/-! ## The arrangement by stem, whole -/

/-- A group's arrangement, when not only headers are printed, is a
reordering of the group. -/
theorem settle_perm (hf : Bool) (g : List (String × FileClass)) :
    (settle hf false g).Perm (g.map (·.1)) := by
  unfold settle
  split
  · exact (sorted_perm hf g).map _
  · exact List.Perm.refl _

/-- **Without headers only, an arrangement reorders the files**, when every
file classifies: each group is reordered, and the groups together hold each
classified file as often as it comes. -/
theorem arrange_perm (hcl : ∀ x ∈ files, (k.classify x).isSome) :
    (arrange k hf false files).Perm files := by
  rw [arrange_eq_flatMap_settle]
  refine (List.Perm.flatMap_left _ fun g _ => settle_perm hf g).trans ?_
  rw [List.flatMap_def, ← List.map_flatten]
  have hall := (flatten_groups_perm (files.filterMap fun p => (k.classify p).map (p, ·))).map Prod.fst
  rwa [classified_fst hcl] at hall

/-- **Pairing groups the files by stem, as said declaratively.** The files
that classify come in the groups of their stems, the stems in the order they
first come, each group holding its files in their order and arranged by
`settle`: headers in front of or behind the other members in a group that
pairs a header with an implementation file, and implementation files left
out there when only headers are printed. So, when every file classifies,
each stem's files stay together, a file is left out only as an
implementation file of a group with a header when only headers are printed,
and otherwise the arrangement reorders the files. -/
theorem arrange_eq_stem_groups (k : Classifier) (hf ho : Bool) (files : List String) :
    arrange k hf ho files =
        (((files.filterMap fun p => (k.classify p).map (p, ·)).map (stemOf ·.1)).eraseDups).flatMap
          (fun s => settle hf ho ((files.filterMap fun p => (k.classify p).map (p, ·)).filter
            (stemOf ·.1 == s))) ∧
      ((∀ x ∈ files, (k.classify x).isSome) →
        (ho = false → (arrange k hf ho files).Perm files) ∧
          arrange k hf ho files =
            ((files.map stemOf).eraseDups).flatMap (fun s => (arrange k hf ho files).filter (stemOf · = s)) ∧
          ∀ x ∈ files, x ∉ arrange k hf ho files →
            ho = true ∧ k.classify x = some .implementation ∧
              ∃ y ∈ files, k.classify y = some .header ∧ stemOf y = stemOf x) := by
  refine ⟨?_, fun hcl => ⟨?_, arrange_grouped hcl, fun x hx hout => ?_⟩⟩
  · rw [arrange_eq_flatMap_settle, groups, List.flatMap_map]
  · rintro rfl
    exact arrange_perm hcl
  · -- a classified file is left out only as an implementation file with a header of its stem
    by_contra hno
    exact hout (mem_arrange.2 ⟨hx, hcl x hx, hno⟩)

example : arrange ⟨["hpp"], ["cpp"], ["py", "md", "sh"]⟩ true false
    ["/r/a.py", "/r/a.q.md", "/r/a.sh"] = ["/r/a.py", "/r/a.sh", "/r/a.q.md"] := by
  decide

/-- Stems that interleave in name order, `a.py`, `a.q.md`, `a.sh`, and a
header paired with its implementation are files the theorem covers. -/
theorem interleaved_stems_arranged :
    (∀ x ∈ ["/r/a.py", "/r/a.q.md", "/r/a.sh", "/r/b.cpp", "/r/b.hpp"],
        (Classifier.classify ⟨["hpp"], ["cpp"], ["py", "md", "sh"]⟩ x).isSome) ∧
      ((true = false → (arrange ⟨["hpp"], ["cpp"], ["py", "md", "sh"]⟩ true true
          ["/r/a.py", "/r/a.q.md", "/r/a.sh", "/r/b.cpp", "/r/b.hpp"]).Perm
            ["/r/a.py", "/r/a.q.md", "/r/a.sh", "/r/b.cpp", "/r/b.hpp"]) ∧
        arrange ⟨["hpp"], ["cpp"], ["py", "md", "sh"]⟩ true true
            ["/r/a.py", "/r/a.q.md", "/r/a.sh", "/r/b.cpp", "/r/b.hpp"] =
          ((["/r/a.py", "/r/a.q.md", "/r/a.sh", "/r/b.cpp", "/r/b.hpp"].map stemOf).eraseDups).flatMap
            (fun s => (arrange ⟨["hpp"], ["cpp"], ["py", "md", "sh"]⟩ true true
              ["/r/a.py", "/r/a.q.md", "/r/a.sh", "/r/b.cpp", "/r/b.hpp"]).filter (stemOf · = s)) ∧
        ∀ x ∈ ["/r/a.py", "/r/a.q.md", "/r/a.sh", "/r/b.cpp", "/r/b.hpp"],
          x ∉ arrange ⟨["hpp"], ["cpp"], ["py", "md", "sh"]⟩ true true
            ["/r/a.py", "/r/a.q.md", "/r/a.sh", "/r/b.cpp", "/r/b.hpp"] →
          true = true ∧ Classifier.classify ⟨["hpp"], ["cpp"], ["py", "md", "sh"]⟩ x = some .implementation ∧
            ∃ y ∈ ["/r/a.py", "/r/a.q.md", "/r/a.sh", "/r/b.cpp", "/r/b.hpp"],
              Classifier.classify ⟨["hpp"], ["cpp"], ["py", "md", "sh"]⟩ y = some .header ∧
                stemOf y = stemOf x) :=
  have hcl : ∀ x ∈ ["/r/a.py", "/r/a.q.md", "/r/a.sh", "/r/b.cpp", "/r/b.hpp"],
      (Classifier.classify ⟨["hpp"], ["cpp"], ["py", "md", "sh"]⟩ x).isSome := by
    decide
  ⟨hcl, (arrange_eq_stem_groups _ true true _).2 hcl⟩

end Pairing

end ReadingOrder
