import ReadingOrder.Proofs.RuleFile
/-!
# Rules lie strictly below the root

A pin is resolved against the root: its target is the normal form of its
path joined to the root, and it is kept when that target lies one or more
names below the root (`depthBelow`). This module says what that means on
components. A kept target is written as the root's components followed by
as many names as its depth — by the names alone when the root is `.`, below
which relative paths count whole (`NamesBelow`). A pin is dropped exactly
when its target is the root itself or is not of that form: it climbs out
through `..`, it is absolute and elsewhere, or it is absolute below a
relative root.

Both directions go through the normal form. A normal path is written by its
clean components, which hold no `.` and whose names are names, so counting
the names after the root's components succeeds only when nothing but names
follows them; and a normal root other than `.` is written by its own clean
components, so the components that follow are exactly the target's names.
-/

namespace ReadingOrder

namespace Path

/-- **`target` lies the names `ns` below `root`**: its components are the
root's followed by the names, or the names alone when the root is `.`. -/
def NamesBelow (root target : String) (ns : List String) : Prop :=
  (∀ x ∈ ns, IsName x.toList) ∧
    components target = (if root = "." then [] else components root) ++ ns.map .name

/-- Dropping a prefix succeeds exactly on lists that start with it. -/
theorem dropPrefix?_eq_some_iff :
    ∀ {xs ys rest : List Component}, dropPrefix? xs ys = some rest ↔ ys = xs ++ rest
  | [], ys, rest => by simp [dropPrefix?]
  | _ :: _, [], rest => by simp [dropPrefix?]
  | x :: xs, y :: ys, rest => by
    by_cases hxy : x = y
    · subst hxy
      simp [dropPrefix?, dropPrefix?_eq_some_iff]
    · simp [dropPrefix?, hxy, Ne.symm hxy]

/-- Counting the names of a list without `.` succeeds only on names. -/
theorem eq_map_name_of_countNames :
    ∀ {cs : List Component} {n : Nat}, countNames cs = some n → .current ∉ cs →
      ∃ ns : List String, cs = ns.map .name ∧ ns.length = n
  | [], n, h, _ => ⟨[], rfl, Option.some.inj h⟩
  | .name x :: rest, n, h, hc => by
    obtain ⟨m, hm, rfl⟩ := Option.map_eq_some_iff.1 h
    obtain ⟨ns, rfl, rfl⟩ := eq_map_name_of_countNames hm fun h' => hc (List.mem_cons_of_mem _ h')
    exact ⟨x :: ns, rfl, rfl⟩
  | .current :: _, _, _, hc => absurd List.mem_cons_self hc
  | .root :: _, _, h, _ => by cases h
  | .up :: _, _, h, _ => by cases h

theorem Clean.current_not_mem {cs : List Component} (h : Clean cs) : .current ∉ cs := by
  rcases h with ⟨ns, rfl, hns⟩ | ⟨k, ns, rfl, hns⟩
  · rintro (_ | ⟨_, hc⟩)
    exact hns _ hc
  · intro hc
    rcases List.mem_append.1 hc with hc | hc
    · cases (List.eq_of_mem_replicate hc)
    · exact hns _ hc

theorem Clean.isName_of_mem {cs : List Component} (h : Clean cs) {x : String} (hx : .name x ∈ cs) :
    IsName x.toList := by
  rcases h with ⟨ns, rfl, hns⟩ | ⟨k, ns, rfl, hns⟩
  · rcases List.mem_cons.1 hx with hx | hx
    · cases hx
    · exact hns _ hx
  · rcases List.mem_append.1 hx with hx | hx
    · cases (List.eq_of_mem_replicate hx)
    · exact hns _ hx

/-- The components of the path `.`. -/
theorem components_dot : components "." = [.current] := by
  decide

/-- The components of a normal path: `.` alone, or its clean components. -/
theorem components_normalize_cases (s : String) :
    (normalize s = "." ∧ components (normalize s) = [.current]) ∨
      (clean (components s) ≠ [] ∧ components (normalize s) = clean (components s)) := by
  by_cases h : clean (components s) = []
  · rw [normalize_of_clean_nil h, components_dot]
    exact Or.inl ⟨rfl, rfl⟩
  · exact Or.inr ⟨h, components_normalize h⟩

variable {R s : String}

/-- A normal root other than `.` is written by its clean components, and `.`
has none. -/
theorem clean_components_root (hR : normalize R = R) :
    clean (components R) = if R = "." then [] else components R := by
  by_cases hdot : R = "."
  · rw [if_pos hdot, hdot, components_dot]
    rfl
  · rw [if_neg hdot]
    have hne : clean (components R) ≠ [] := fun h => hdot (by rw [← hR, normalize_of_clean_nil h])
    have hc := components_normalize hne
    rw [hR] at hc
    exact hc.symm

/-- **What the depth below a normal root counts**: the components that
follow the root's, or the whole path below `.`. -/
theorem components_of_depthBelow (hR : normalize R = R) {t : String} {m : Nat}
    (h : depthBelow R t = some m) :
    ∃ rest, components t = (if R = "." then [] else components R) ++ rest ∧ countNames rest = some m := by
  unfold depthBelow at h
  dsimp only at h
  obtain ⟨rest, hrest, hcount⟩ := Option.bind_eq_some_iff.1 h
  refine ⟨rest, ?_, hcount⟩
  split at hrest
  · -- below `.`, a relative path counts whole
    rename_i hcur
    have hdot : R = "." := by
      by_cases hne : R = "."
      · exact hne
      · have hc := clean_components_root hR
        rw [if_neg hne, hcur.1] at hc
        exact absurd hc (by decide)
    rw [if_pos hdot, List.nil_append, Option.some.inj hrest]
  · -- any other root is dropped from the front
    rename_i hcur
    have hpc := dropPrefix?_eq_some_iff.1 hrest
    have hdot : R ≠ "." := by
      intro hdot
      rw [hdot, components_dot] at hpc
      exact hcur ⟨by rw [hdot, components_dot], by rw [hpc]; simp⟩
    rw [if_neg hdot]
    exact hpc

/-- **The depth below a normal root is a count of names**: a normal path
lies one or more names below the root exactly when its components are the
root's followed by that many names. -/
theorem depthBelow_normalize_eq_succ_iff (hR : normalize R = R) {n : Nat} :
    depthBelow R (normalize s) = some (n + 1) ↔
      ∃ ns, ns.length = n + 1 ∧ NamesBelow R (normalize s) ns := by
  constructor
  · intro h
    obtain ⟨rest, hpc, hcount⟩ := components_of_depthBelow hR h
    -- the path is not `.`, which has no name, so it is written by its clean components
    have hclean : Clean (components (normalize s)) := by
      rcases components_normalize_cases s with ⟨-, hdot⟩ | ⟨-, hc⟩
      · exfalso
        rw [hdot] at hpc
        rcases List.append_eq_singleton_iff.1 hpc.symm with ⟨-, rfl⟩ | ⟨-, rfl⟩ <;>
          simp [countNames] at hcount
      · rw [hc]
        exact clean_components s
    have hrest : ∀ c ∈ rest, c ∈ components (normalize s) := fun c hc => by
      rw [hpc]
      exact List.mem_append_right _ hc
    obtain ⟨ns, rfl, hlen⟩ :=
      eq_map_name_of_countNames hcount fun hm => hclean.current_not_mem (hrest _ hm)
    exact ⟨ns, hlen, fun x hx => hclean.isName_of_mem (hrest _ (List.mem_map_of_mem hx)), hpc⟩
  · rintro ⟨ns, hlen, -, hcomp⟩
    have hname : ∃ x, .name x ∈ components (normalize s) := by
      obtain ⟨x, hx⟩ := List.exists_mem_of_length_pos (by omega : 0 < ns.length)
      exact ⟨x, by rw [hcomp]; exact List.mem_append_right _ (List.mem_map_of_mem hx)⟩
    -- a path with a name is not `.`, so its clean components write it
    have hne : clean (components s) ≠ [] := fun hnil => by
      obtain ⟨x, hx⟩ := hname
      rw [normalize_of_clean_nil hnil, components_dot, List.mem_singleton] at hx
      cases hx
    have hcs : clean (components s) = clean (components R) ++ ns.map .name := by
      rw [← components_normalize hne, hcomp, clean_components_root hR]
    rw [← hlen]
    exact depthBelow_normalize hR hcs

/-- **Names below a normal root, and not the root itself**: a normal path
lies one or more names below the root exactly when it is not the root and
its components are the root's followed by names. -/
theorem exists_namesBelow_ne_nil_iff (hR : normalize R = R) :
    (∃ ns, ns ≠ [] ∧ NamesBelow R (normalize s) ns) ↔
      normalize s ≠ R ∧ ∃ ns, NamesBelow R (normalize s) ns := by
  constructor
  · rintro ⟨ns, hne, hns, hcomp⟩
    refine ⟨fun heq => ?_, ns, hns, hcomp⟩
    -- the root has no names after its own components
    obtain ⟨x, hx⟩ := List.exists_mem_of_ne_nil ns hne
    rw [heq] at hcomp
    by_cases hdot : R = "."
    · rw [if_pos hdot, List.nil_append, hdot, components_dot] at hcomp
      have hmem : Component.name x ∈ [Component.current] := by
        rw [hcomp]
        exact List.mem_map_of_mem hx
      cases List.mem_singleton.1 hmem
    · rw [if_neg hdot] at hcomp
      have hlen := congrArg List.length hcomp
      rw [List.length_append, List.length_map] at hlen
      have hpos := List.length_pos_of_mem hx
      omega
  · rintro ⟨hneq, ns, hns, hcomp⟩
    refine ⟨ns, ?_, hns, hcomp⟩
    rintro rfl
    rw [List.map_nil, List.append_nil] at hcomp
    by_cases hdot : R = "."
    · -- below `.` the path would have no component at all
      rw [if_pos hdot] at hcomp
      rcases components_normalize_cases s with ⟨-, hc⟩ | ⟨hne, hc⟩
      · rw [hcomp] at hc
        cases hc
      · rw [hcomp] at hc
        exact hne hc.symm
    · -- a normal path with the root's components is the root
      rw [if_neg hdot] at hcomp
      refine hneq ((same_iff_eq (normalize_normalize s) hR).1 ?_)
      unfold same
      rw [hcomp]
      exact beq_self_eq_true _

end Path

/-! ## Resolving pins against the root -/

namespace Rule

variable {root rel : String} {k : RuleKind} {r : Rule}

/-- A resolved pin keeps the path it was written with. -/
theorem resolve_relative (h : resolve root k rel = some r) : r.relative = rel := by
  unfold resolve at h
  dsimp only at h
  split at h
  · cases h
    rfl
  · cases h

/-- A pin is kept exactly when its target lies one or more names below the
root. -/
theorem resolve_isSome_iff_depth :
    (resolve root k rel).isSome ↔
      ∃ n, Path.depthBelow root (Path.normalize (Path.join root rel)) = some (n + 1) := by
  unfold resolve
  dsimp only
  split
  · rename_i d hd
    exact ⟨fun _ => ⟨d, hd⟩, fun _ => rfl⟩
  · rename_i hd
    simp only [Option.isSome_none, Bool.false_eq_true, false_iff, not_exists]
    exact hd

/-- **A kept pin lies below the root**: its target is the normal form of its
path joined to the root, at depth one or more, and written as the root's
components followed by that many names. -/
theorem resolve_below (hR : Path.normalize root = root) (h : resolve root k rel = some r) :
    r.target = Path.normalize (Path.join root r.relative) ∧ 1 ≤ r.depth ∧
      Path.depthBelow root r.target = some r.depth ∧
      ∃ ns, ns.length = r.depth ∧ Path.NamesBelow root r.target ns := by
  obtain ⟨htarget, -, hdepth⟩ := resolve_spec h
  have hpos : 1 ≤ r.depth := by
    unfold resolve at h
    dsimp only at h
    split at h
    · cases h
      exact Nat.succ_pos _
    · cases h
  obtain ⟨d, hd⟩ : ∃ d, r.depth = d + 1 := ⟨r.depth - 1, by omega⟩
  rw [htarget, hd] at hdepth
  obtain ⟨ns, hlen, hns⟩ := (Path.depthBelow_normalize_eq_succ_iff hR).1 hdepth
  refine ⟨by rw [resolve_relative h, htarget], hpos, by rw [htarget, hd]; exact hdepth, ns, ?_, ?_⟩
  · rw [hlen, hd]
  · rw [htarget]
    exact hns

/-- **A pin is dropped exactly when its target is the root or does not lie
names below it.** -/
theorem resolve_eq_none_iff (hR : Path.normalize root = root) :
    resolve root k rel = none ↔
      Path.normalize (Path.join root rel) = root ∨
        ¬ ∃ ns, Path.NamesBelow root (Path.normalize (Path.join root rel)) ns := by
  have hkept : (resolve root k rel).isSome ↔
      Path.normalize (Path.join root rel) ≠ root ∧
        ∃ ns, Path.NamesBelow root (Path.normalize (Path.join root rel)) ns := by
    rw [resolve_isSome_iff_depth, ← Path.exists_namesBelow_ne_nil_iff hR]
    constructor
    · rintro ⟨n, hn⟩
      obtain ⟨ns, hlen, hns⟩ := (Path.depthBelow_normalize_eq_succ_iff hR).1 hn
      exact ⟨ns, (fun hnil => by rw [hnil] at hlen; cases hlen), hns⟩
    · rintro ⟨ns, hne, hns⟩
      obtain ⟨n, hn⟩ : ∃ n, ns.length = n + 1 := ⟨ns.length - 1, by
        have := List.length_pos_iff.2 hne
        omega⟩
      exact ⟨n, (Path.depthBelow_normalize_eq_succ_iff hR).2 ⟨ns, hn, hns⟩⟩
  rw [← Option.not_isSome_iff_eq_none, hkept, Classical.not_and_iff_not_or_not, Classical.not_not]

end Rule

/-! ## The rules of a parsed rule set -/

namespace RuleSet

/-- The root of a parsed rule set is normal. -/
theorem normalize_root_parse (text baseDir : String) :
    Path.normalize (parse text baseDir).root = (parse text baseDir).root := by
  unfold parse
  dsimp only
  exact Path.normalize_normalize _

/-- **The rules of a kind are the pins of that kind that resolve**: a rule of
a parsed rule set comes from a pin of its kind whose path resolves to it. -/
theorem mem_rules_parse (text baseDir : String) (k : RuleKind) (r : Rule) :
    r ∈ (parse text baseDir).rules k ↔
      ∃ rel, (k, rel) ∈ (RuleDraft.ofText text).pins ∧
        Rule.resolve (parse text baseDir).root k rel = some r := by
  have hrules : (parse text baseDir).rules k =
      ((RuleDraft.ofText text).pins.filterMap fun kp =>
        Rule.resolve (parse text baseDir).root kp.1 kp.2).filter (·.kind = k) := by
    cases k <;> dsimp only [RuleSet.rules, parse]
  rw [hrules, List.mem_filter, List.mem_filterMap]
  constructor
  · rintro ⟨⟨⟨k', rel⟩, hpin, hres⟩, hk⟩
    have hkind : k' = k := (Rule.resolve_spec hres).2.1.symm.trans (of_decide_eq_true hk)
    subst hkind
    exact ⟨rel, hpin, hres⟩
  · rintro ⟨rel, hpin, hres⟩
    exact ⟨⟨(k, rel), hpin, hres⟩, decide_eq_true (Rule.resolve_spec hres).2.1⟩

/-- **Every kept rule lies strictly below the root, and only those are
kept.** The root of a parsed rule set is normal, and each of its rules
targets the normal form of its path joined to the root, one or more names
below the root: the target is written as the root's components followed by
as many names as the rule's depth, or by those names alone below the root
`.`. A `dir` or `file` line is dropped exactly when the normal form of its
path joined to the root is the root itself or is not of that form. -/
theorem parse_keeps_rules_below_root (text baseDir : String) :
    Path.normalize (parse text baseDir).root = (parse text baseDir).root ∧
      (∀ r ∈ (parse text baseDir).dirRules ++ (parse text baseDir).fileRules,
        r.target = Path.normalize (Path.join (parse text baseDir).root r.relative) ∧ 1 ≤ r.depth ∧
          Path.depthBelow (parse text baseDir).root r.target = some r.depth ∧
          ∃ ns, ns.length = r.depth ∧ Path.NamesBelow (parse text baseDir).root r.target ns) ∧
      ∀ line ∈ linesOf text, ∀ k rel, Directive.ofLine line = .pin k rel →
        ((¬ ∃ r ∈ (parse text baseDir).rules k, r.relative = rel) ↔
          Path.normalize (Path.join (parse text baseDir).root rel) = (parse text baseDir).root ∨
            ¬ ∃ ns, Path.NamesBelow (parse text baseDir).root
              (Path.normalize (Path.join (parse text baseDir).root rel)) ns) := by
  have hR := normalize_root_parse text baseDir
  refine ⟨hR, fun r hr => ?_, fun line hline k rel hpin => ?_⟩
  · -- every rule is a pin of its kind that resolved
    obtain ⟨k, hk⟩ : ∃ k, r ∈ (parse text baseDir).rules k :=
      (List.mem_append.1 hr).elim (fun h => ⟨.directory, h⟩) fun h => ⟨.file, h⟩
    obtain ⟨rel, -, hres⟩ := (mem_rules_parse text baseDir k r).1 hk
    exact Rule.resolve_below hR hres
  · -- a pin line adds a rule with its path exactly when the path resolves
    have hpins : (k, rel) ∈ (RuleDraft.ofText text).pins := RuleDraft.mem_pins_readLines hline hpin {}
    rw [← Rule.resolve_eq_none_iff hR]
    constructor
    · intro hno
      cases hres : Rule.resolve (parse text baseDir).root k rel with
      | none => rfl
      | some r =>
        exact absurd ⟨r, (mem_rules_parse text baseDir k r).2 ⟨rel, hpins, hres⟩,
          Rule.resolve_relative hres⟩ hno
    · rintro hnone ⟨r, hr, hrel⟩
      obtain ⟨rel', -, hres⟩ := (mem_rules_parse text baseDir k r).1 hr
      rw [← hrel, Rule.resolve_relative hres, hres] at hnone
      cases hnone

/-- A rule file of the robot project whose `dir ../x` line climbs out of the
root is a text the theorem covers. -/
theorem escaping_pin_dropped :
    "dir ../x" ∈ linesOf "parent = code\ndir src\ndir ../x" ∧
      Directive.ofLine "dir ../x" = .pin .directory "../x" ∧
      ((¬ ∃ r ∈ (parse "parent = code\ndir src\ndir ../x" "/w").rules .directory, r.relative = "../x") ↔
        Path.normalize (Path.join (parse "parent = code\ndir src\ndir ../x" "/w").root "../x") =
            (parse "parent = code\ndir src\ndir ../x" "/w").root ∨
          ¬ ∃ ns, Path.NamesBelow (parse "parent = code\ndir src\ndir ../x" "/w").root
            (Path.normalize (Path.join (parse "parent = code\ndir src\ndir ../x" "/w").root "../x")) ns) :=
  have hline : "dir ../x" ∈ linesOf "parent = code\ndir src\ndir ../x" := by decide
  have hpin : Directive.ofLine "dir ../x" = .pin .directory "../x" := by decide
  ⟨hline, hpin, (parse_keeps_rules_below_root _ "/w").2.2 _ hline _ _ hpin⟩

example : ((parse "parent = /\ndir ../a\ndir b\ndir .\nfile /etc/x" "/w").dirRules ++
    (parse "parent = /\ndir ../a\ndir b\ndir .\nfile /etc/x" "/w").fileRules).map (·.target) =
      ["/a", "/b", "/etc/x"] := by
  decide

end RuleSet

end ReadingOrder
