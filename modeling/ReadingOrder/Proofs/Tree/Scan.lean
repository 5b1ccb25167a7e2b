import ReadingOrder.Tree.Scan
import ReadingOrder.Proofs.Tree.Subtree
import ReadingOrder.Proofs.Volume.JoinedPath
/-!
# What a scan records

`scan` starts from the tree of the root alone and inserts directories as it
meets them, so the tree it gives is one a run of inserts builds. It visits a
directory by its place in the volume and names it by the root's path with
the names on the way joined, and it only goes down into real directories,
never through a link. So every node it records is a directory at the end of
a chain of real directories below the root's place, named by the normal form
of the root's path with the chain's names joined (`Recorded`).

The scan visits the entries of a directory in name order, depth first, and
adds a directory just before it visits it. While the entries of a directory
are visited, every node below it is reached through a name already visited
(`Visiting`), so a directory is added after all its earlier siblings and
before anything below it. Hence a scan lists the children of every node in
increasing order of their names (`NameOrdered`, `scan_nameOrdered`).

The scan keeps the real directories below the root that no directory
exclusion matches, on the way down (`Kept`), and reads each of them again by
the path it writes for it. The fuel outlasts every chain, which is no longer
than the volume has places (`DirChain.length_le`), so the scan either records
every kept directory, or fails at one whose path is too long to be read
(`scan_ends`). Which of the two it does depends on the lengths of those paths
alone, and a root that does not lead to a directory fails at once
(`scan_records_kept_directories`). Kept directories nested deep enough make
a scan fail below a root that is a directory (`deep_volume_scan_fails`).
-/

namespace ReadingOrder

/-- **What a computation that may fail ends with**: `Q` of its value, or
`E` of its failure. -/
def Ends {ε β : Type} (Q : β → Prop) (E : ε → Prop) : Except ε β → Prop
  | .ok b => Q b
  | .error e => E e

theorem Ends.of_ok {ε β : Type} {Q : β → Prop} {E : ε → Prop} {r : Except ε β} {b : β} (h : Ends Q E r)
    (hr : r = .ok b) : Q b := by
  rw [hr] at h
  exact h

theorem Ends.of_error {ε β : Type} {Q : β → Prop} {E : ε → Prop} {r : Except ε β} {e : ε} (h : Ends Q E r)
    (hr : r = .error e) : E e := by
  rw [hr] at h
  exact h

theorem Ends.imp {ε β : Type} {Q Q' : β → Prop} {E E' : ε → Prop} {r : Except ε β} (h : Ends Q E r)
    (hQ : ∀ b, Q b → Q' b) (hE : ∀ e, E e → E' e) : Ends Q' E' r := by
  cases r with
  | ok b => exact hQ b h
  | error e => exact hE e h

/-- **An invariant of a fold that may fail, over what is still to come**: it
holds of the whole list at the start, each step passes it from a list to its
tail or fails with a failure of the kind `E`, and at the end it gives what is
wanted. -/
theorem List.foldlM_ends {ε α β : Type} {f : β → α → Except ε β} (I : List α → β → Prop)
    {Q : β → Prop} {E : ε → Prop} (step : ∀ a l b, I (a :: l) b → Ends (I l) E (f b a))
    (fin : ∀ b, I [] b → Q b) : ∀ l b, I l b → Ends Q E (l.foldlM f b)
  | [], b, h => fin b h
  | a :: l, b, h => by
    rw [List.foldlM_cons]
    have hs := step a l b h
    cases hf : f b a with
    | error e =>
      rw [hf] at hs
      exact hs
    | ok b' =>
      rw [hf] at hs
      exact List.foldlM_ends I step fin l b' hs

namespace DirTree

open Volume ReadingOrder.Path

variable {v : Volume} {ex : Exclusions} {R : String} {p : Place} {t : DirTree} {ns : List String}

/-- **What a scan records**: a tree a run of inserts builds from the root,
each node of which is the directory at the end of a chain of real
directories below the root's place `p`, named by the normal form of the
root's path with the chain's names joined. -/
structure Recorded (v : Volume) (R : String) (p : Place) (t : DirTree) : Prop where
  reach : t.Reachable R
  chain : ∀ j n, t.get? j = some n → ∃ ns, DirChain v p ns ∧ n.identifier = Path.normalize (joinAll R ns)

theorem Recorded.new : Recorded v R p (new R) where
  reach := .new
  chain j n hn := by
    rw [get?_new] at hn
    split at hn
    · cases hn
      exact ⟨[], .nil p, rfl⟩
    · cases hn

/-- Inserting a directory at the end of a chain keeps what is recorded. -/
theorem Recorded.insert (h : Recorded v R p t) (hc : DirChain v p ns) (parent : Nat) :
    Recorded v R p (t.insert parent (joinAll R ns)).1 where
  reach := .insert parent _ h.reach
  chain j m hm := by
    rcases identifier_insert hm with hid | ⟨j', n, hn, hid⟩
    · exact ⟨ns, hc, hid⟩
    · rw [hid]
      exact h.chain j' n hn

/-! ## Children in name order -/

/-- `x` is the path of a directory strictly below the end of the chain `ns`,
reached from it through the name `y`. -/
def BelowThrough (v : Volume) (R : String) (p : Place) (ns : List String) (y x : String) : Prop :=
  ∃ ys, DirChain v p (ns ++ y :: ys) ∧ x = Path.normalize (joinAll R (ns ++ y :: ys))

/-- **A tree recorded in name order**: what a scan records, each child one
name below its parent, each node as deep as its chain is long, and the
children of every node in increasing order of the names they are shown by. -/
structure NameOrdered (v : Volume) (R : String) (p : Place) (t : DirTree) : Prop
    extends Recorded v R p t where
  parent_chain : ∀ c q nc nq, t.get? c = some nc → nc.parent = some q → t.get? q = some nq →
    ∃ ns name, DirChain v p (ns ++ [name]) ∧ nq.identifier = Path.normalize (joinAll R ns) ∧
      nc.identifier = Path.normalize (joinAll R (ns ++ [name]))
  depth : ∀ j n ns, t.get? j = some n → DirChain v p ns →
    n.identifier = Path.normalize (joinAll R ns) → n.depth = ns.length
  sorted : ∀ j, (t.childPaths j).Pairwise fun a b => Path.tag a < Path.tag b

/-- No node of `t` lies strictly below the end of the chain `ns`. -/
def Unvisited (v : Volume) (R : String) (p : Place) (ns : List String) (t : DirTree) : Prop :=
  ∀ j n y, t.get? j = some n → ¬ BelowThrough v R p ns y n.identifier

/-- Every node of `t` strictly below the end of the chain `ns` is reached
through a name before all the names of `es`. -/
def Before (v : Volume) (R : String) (p : Place) (ns : List String) (es : List (String × Node))
    (t : DirTree) : Prop :=
  ∀ j n y, t.get? j = some n → BelowThrough v R p ns y n.identifier → ∀ e ∈ es, y < e.1

/-- `t'` keeps the paths of the nodes of `t`, and its other nodes lie at or
below the end of the chain `ns`. -/
def Extends (v : Volume) (R : String) (p : Place) (ns : List String) (t t' : DirTree) : Prop :=
  ∀ j n', t'.get? j = some n' → (∃ n, t.get? j = some n ∧ n'.identifier = n.identifier) ∨
    ∃ ms, DirChain v p (ns ++ ms) ∧ n'.identifier = Path.normalize (joinAll R (ns ++ ms))

variable {t t₁ t₂ : DirTree} {es : List (String × Node)} {name y : String}

/-- Different chains end at different normal paths. -/
theorem chain_inj (hv : v.WellFormed) {a b : List String} (ha : DirChain v p a) (hb : DirChain v p b)
    (h : Path.normalize (joinAll R a) = Path.normalize (joinAll R b)) : a = b :=
  normalize_joinAll_inj (fun x hx => (hv.validName_of_chain ha x hx).1)
    (fun x hx => (hv.validName_of_chain hb x hx).1) h

/-- A path strictly below a chain's end is reached through one name only. -/
theorem BelowThrough.unique (hv : v.WellFormed) {ys : List String} (h : BelowThrough v R p ns y x)
    (hc : DirChain v p (ns ++ name :: ys)) (hx : x = Path.normalize (joinAll R (ns ++ name :: ys))) :
    y = name := by
  obtain ⟨ys', hc', rfl⟩ := h
  have he := chain_inj hv hc' hc hx
  exact (List.cons.inj (List.append_cancel_left he)).1

theorem Unvisited.before (h : Unvisited v R p ns t) (es : List (String × Node)) :
    Before v R p ns es t :=
  fun j n y hn hb => absurd hb (h j n y hn)

theorem Before.tail {e : String × Node} (h : Before v R p ns (e :: es) t) : Before v R p ns es t :=
  fun j n y hn hb e' he' => h j n y hn hb e' (List.mem_cons_of_mem _ he')

/-- Nothing lies below an entry that comes after every name visited. -/
theorem Before.unvisited {k : Node} (h : Before v R p ns ((name, k) :: es) t) :
    Unvisited v R p (ns ++ [name]) t := by
  rintro j n y hn ⟨ys, hc, hx⟩
  rw [List.append_assoc, List.singleton_append] at hc hx
  exact lt_irrefl name (h j n name hn ⟨y :: ys, hc, hx⟩ _ List.mem_cons_self)

theorem Extends.refl (t : DirTree) : Extends v R p ns t t :=
  fun _ n' hn' => Or.inl ⟨n', hn', rfl⟩

theorem Extends.trans (h₁ : Extends v R p ns t t₁) (h₂ : Extends v R p ns t₁ t₂) :
    Extends v R p ns t t₂ := by
  intro j n₂ hn₂
  rcases h₂ j n₂ hn₂ with ⟨n₁, hn₁, hid⟩ | hnew
  · rcases h₁ j n₁ hn₁ with ⟨n, hn, hid'⟩ | ⟨ms, hc, hid'⟩
    · exact Or.inl ⟨n, hn, hid.trans hid'⟩
    · exact Or.inr ⟨ms, hc, hid.trans hid'⟩
  · exact Or.inr hnew

/-- What lies below one name further down lies below the chain's end. -/
theorem Extends.up (h : Extends v R p (ns ++ [name]) t t') : Extends v R p ns t t' := by
  intro j n' hn'
  rcases h j n' hn' with hold | ⟨ms, hc, hid⟩
  · exact Or.inl hold
  · rw [List.append_assoc] at hc hid
    exact Or.inr ⟨[name] ++ ms, hc, hid⟩

/-- **Visiting an entry keeps the later entries ahead**: after the directories
below the entry `name` are added, every node strictly below the chain's end
is still reached through a name before the entries still to come. -/
theorem Before.extend (hv : v.WellFormed) {k : Node} (h : Before v R p ns ((name, k) :: es) t)
    (hs : ∀ e ∈ es, name < e.1) (hx : Extends v R p (ns ++ [name]) t t') : Before v R p ns es t' := by
  intro j n' y hn' hb
  rcases hx j n' hn' with ⟨n, hn, hid⟩ | ⟨ms, hc, hid⟩
  · rw [hid] at hb
    exact h.tail j n y hn hb
  · rw [List.append_assoc, List.singleton_append] at hc hid
    rw [hb.unique hv hc hid]
    exact hs

/-- The root alone is recorded in name order. -/
theorem NameOrdered.new (hv : v.WellFormed) : NameOrdered v R p (DirTree.new R) where
  toRecorded := Recorded.new
  parent_chain c q nc nq hc hq _ := by
    rw [get?_new] at hc
    split at hc
    · cases hc
      cases hq
    · cases hc
  depth j n ns hn hc hid := by
    rw [get?_new] at hn
    split at hn
    · cases hn
      have he : ([] : List String) = ns := chain_inj hv (.nil p) hc hid
      rw [← he]
      rfl
    · cases hn
  sorted j := by
    have hnil : (DirTree.new R).children j = [] := by
      unfold DirTree.children
      rw [get?_new]
      split <;> rfl
    unfold childPaths
    rw [hnil]
    exact List.Pairwise.nil

/-- Nothing lies below the root of a new tree. -/
theorem unvisited_new (hv : v.WellFormed) : Unvisited v R p [] (DirTree.new R) := by
  rintro j n y hn ⟨ys, hc, hid⟩
  rw [get?_new] at hn
  split at hn
  · cases hn
    exact List.cons_ne_nil y ys (chain_inj hv (.nil p) hc hid).symm
  · cases hn

/-! ### A directory one name below the end of a chain

The lemmas below are about the tree with a fresh leaf for the directory one
name below the end of the chain `ns`, hung under the node `P` of that end. -/

section Leaf

variable {P : Nat} {pn : DirNode}

/-- The new leaf hangs one name below the end of `ns`; older nodes keep
their parents. -/
theorem NameOrdered.parent_chain_appendLeaf (ht : NameOrdered v R p t)
    (hc : DirChain v p (ns ++ [name])) (hp : t.get? P = some pn)
    (hpn : pn.identifier = Path.normalize (joinAll R ns)) {c q : Nat} {nc nq : DirNode}
    (hnc : (t.appendLeaf P pn (joinAll R (ns ++ [name]))).get? c = some nc) (hq : nc.parent = some q)
    (hnq : (t.appendLeaf P pn (joinAll R (ns ++ [name]))).get? q = some nq) :
    ∃ ms y, DirChain v p (ms ++ [y]) ∧ nq.identifier = Path.normalize (joinAll R ms) ∧
      nc.identifier = Path.normalize (joinAll R (ms ++ [y])) := by
  rcases get?_appendLeaf_eq_some hp hnc with ⟨rfl, rfl⟩ | ⟨nc₀, hnc₀, hid, hpar, -⟩
  · obtain rfl : P = q := Option.some.inj hq
    rcases get?_appendLeaf_eq_some hp hnq with ⟨hqs, -⟩ | ⟨nq₀, hnq₀, hidq, -, -⟩
    · exact absurd hqs (Nat.ne_of_lt (lt_size_of_get? hp))
    · rw [hp] at hnq₀
      cases hnq₀
      exact ⟨ns, name, hc, hidq.trans hpn, rfl⟩
  · rcases get?_appendLeaf_eq_some hp hnq with ⟨hqs, -⟩ | ⟨nq₀, hnq₀, hidq, -, -⟩
    · -- an old node's parent is an old node
      obtain ⟨na, hna⟩ := ht.reach.shaped.get?_parent (c := c) (a := q)
        (by rw [parent_of_get? hnc₀, ← hpar]; exact hq)
      exact absurd hqs (Nat.ne_of_lt (lt_size_of_get? hna))
    · obtain ⟨ms, y, hcy, h1, h2⟩ := ht.parent_chain c q nc₀ nq₀ hnc₀ (hpar ▸ hq) hnq₀
      exact ⟨ms, y, hcy, hidq.trans h1, hid.trans h2⟩

/-- The new leaf is one level below its parent, as its chain is one name
longer. -/
theorem NameOrdered.depth_appendLeaf (hv : v.WellFormed) (ht : NameOrdered v R p t)
    (hc : DirChain v p (ns ++ [name])) (hp : t.get? P = some pn)
    (hpn : pn.identifier = Path.normalize (joinAll R ns)) {j : Nat} {n : DirNode} {ms : List String}
    (hnj : (t.appendLeaf P pn (joinAll R (ns ++ [name]))).get? j = some n) (hcm : DirChain v p ms)
    (hid : n.identifier = Path.normalize (joinAll R ms)) : n.depth = ms.length := by
  rcases get?_appendLeaf_eq_some hp hnj with ⟨rfl, rfl⟩ | ⟨n₀, hn₀, hid₀, -, hd₀⟩
  · have hms : ns ++ [name] = ms := chain_inj hv hc hcm hid
    rw [← hms]
    show pn.depth + 1 = _
    rw [ht.depth P pn ns hp hc.of_append hpn, List.length_append, List.length_singleton]
  · rw [hd₀]
    exact ht.depth j n₀ ms hn₀ hcm (hid₀ ▸ hid)

/-- The new leaf comes last among its siblings, which were reached through
earlier names. -/
theorem NameOrdered.sorted_appendLeaf (hv : v.WellFormed) (ht : NameOrdered v R p t)
    (hc : DirChain v p (ns ++ [name])) (hp : t.get? P = some pn)
    (hpn : pn.identifier = Path.normalize (joinAll R ns)) {k : Node}
    (hb : Before v R p ns ((name, k) :: es) t) (j : Nat) :
    ((t.appendLeaf P pn (joinAll R (ns ++ [name]))).childPaths j).Pairwise
      fun a b => Path.tag a < Path.tag b := by
  rw [ht.reach.shaped.childPaths_appendLeaf hp]
  split
  · rename_i hj
    rw [hj]
    refine List.pairwise_append.2 ⟨ht.sorted P, List.pairwise_singleton _ _, fun a ha b hb' => ?_⟩
    rw [List.mem_singleton] at hb'
    have hn : Path.IsName name.toList :=
      (hv.validName_of_chain hc name (List.mem_append_right _ (List.mem_singleton_self _))).1
    rw [hb', joinAll_concat, Path.tag_normalize_join hn]
    -- a sibling is one name `y` below the end of `ns`, and `y` came before `name`
    obtain ⟨c, nc, hcP, hnc, rfl⟩ := ht.reach.shaped.mem_childPaths.1 ha
    obtain ⟨nc', hnc', hpar⟩ := get?_of_parent hcP
    rw [hnc] at hnc'
    cases hnc'
    obtain ⟨ms, y, hcy, h1, h2⟩ := ht.parent_chain c P nc pn hnc hpar hp
    obtain rfl : ms = ns := chain_inj hv hcy.of_append hc.of_append (h1.symm.trans hpn)
    have hy : Path.IsName y.toList :=
      (hv.validName_of_chain hcy y (List.mem_append_right _ (List.mem_singleton_self _))).1
    rw [h2, joinAll_concat, Path.tag_normalize_join hy]
    exact hb c nc y hnc ⟨[], hcy, h2⟩ (name, k) List.mem_cons_self
  · exact ht.sorted j

/-- Nothing lies below the new leaf yet. -/
theorem Unvisited.appendLeaf (hv : v.WellFormed) (h : Unvisited v R p (ns ++ [name]) t)
    (hc : DirChain v p (ns ++ [name])) (hp : t.get? P = some pn) :
    Unvisited v R p (ns ++ [name]) (t.appendLeaf P pn (joinAll R (ns ++ [name]))) := by
  intro j n y hnj hbt
  rcases get?_appendLeaf_eq_some hp hnj with ⟨rfl, rfl⟩ | ⟨n₀, hn₀, hid₀, -, -⟩
  · obtain ⟨ys, hcy, hid⟩ := hbt
    have hl := congrArg List.length (chain_inj hv hc hcy hid)
    simp only [List.length_append, List.length_cons, List.length_nil] at hl
    omega
  · rw [hid₀] at hbt
    exact h j n₀ y hn₀ hbt

/-- The new leaf is the end of the chain; every other node keeps its path. -/
theorem Extends.appendLeaf (hc : DirChain v p (ns ++ [name])) (hp : t.get? P = some pn) :
    Extends v R p (ns ++ [name]) t (t.appendLeaf P pn (joinAll R (ns ++ [name]))) := by
  intro j n' hnj
  rcases get?_appendLeaf_eq_some hp hnj with ⟨rfl, rfl⟩ | ⟨n₀, hn₀, hid₀, -, -⟩
  · exact Or.inr ⟨[], by rw [List.append_nil]; exact hc, by rw [List.append_nil]; rfl⟩
  · exact Or.inl ⟨n₀, hn₀, hid₀⟩

end Leaf

/-- **Adding a directory in name order**: when every node below the chain's
end comes through a name before `name`, the directory one name further down
is added last among its siblings, nothing lies below it yet, and every other
node keeps its path. -/
theorem NameOrdered.insert (hv : v.WellFormed) (ht : NameOrdered v R p t)
    (hc : DirChain v p (ns ++ [name])) {k : Node} (hb : Before v R p ns ((name, k) :: es) t) {P : Nat}
    (hP : t.find (Path.normalize ((Path.parent? (joinAll R (ns ++ [name]))).getD R)) = some P) :
    NameOrdered v R p (t.insert P (joinAll R (ns ++ [name]))).1 ∧
      Unvisited v R p (ns ++ [name]) (t.insert P (joinAll R (ns ++ [name]))).1 ∧
      Extends v R p (ns ++ [name]) t (t.insert P (joinAll R (ns ++ [name]))).1 := by
  have hrec := ht.toRecorded.insert hc P
  rcases insert_cases t P (joinAll R (ns ++ [name])) with ⟨j, -, he⟩ | ⟨-, -, he⟩ | ⟨pn, -, hp, he⟩
  · rw [he]
    exact ⟨ht, hb.unvisited, Extends.refl t⟩
  · rw [he]
    exact ⟨ht, hb.unvisited, Extends.refl t⟩
  rw [he] at hrec ⊢
  -- the parent found is the end of the chain `ns`
  have hpn : pn.identifier = Path.normalize (joinAll R ns) := by
    have hn : Path.IsName name.toList :=
      (hv.validName_of_chain hc name (List.mem_append_right _ (List.mem_singleton_self _))).1
    obtain ⟨n, hn', hs⟩ := find_spec hP
    rw [hp] at hn'
    cases hn'
    obtain ⟨ms, -, hid⟩ := ht.chain P pn hp
    rw [Path.same_iff_eq (by rw [hid, Path.normalize_normalize]) (Path.normalize_normalize _),
      joinAll_concat, Path.normalize_parent_join hn] at hs
    exact hs
  refine ⟨⟨hrec, fun c q nc nq hnc hq hnq => ht.parent_chain_appendLeaf hc hp hpn hnc hq hnq,
    fun j n ms hnj hcm hid => ht.depth_appendLeaf hv hc hp hpn hnj hcm hid,
    ht.sorted_appendLeaf hv hc hp hpn hb⟩, hb.unvisited.appendLeaf hv hc hp, Extends.appendLeaf hc hp⟩

/-- **Visiting the entries of a directory**, with the entries `es` still to
come: they are entries of the directory at the end of `ns`, in name order,
after every name through which a node below the chain's end is reached; the
tree is in name order, and extends the one the visit started from. -/
structure Visiting (v : Volume) (R : String) (p : Place) (ns : List String) (t₀ : DirTree)
    (es : List (String × Node)) (t : DirTree) : Prop where
  entries : ∀ e ∈ es, e ∈ v.entries (p ++ ns)
  sorted : es.Pairwise fun a b => a.1 < b.1
  ordered : NameOrdered v R p t
  before : Before v R p ns es t
  grows : Extends v R p ns t₀ t

theorem Visiting.start (hv : v.WellFormed) (ht : NameOrdered v R p t) (hu : Unvisited v R p ns t) :
    Visiting v R p ns t (v.entries (p ++ ns)) t where
  entries _ he := he
  sorted := hv.entries_sorted _
  ordered := ht
  before := hu.before _
  grows := Extends.refl t

/-- Passing an entry by keeps the visit going. -/
theorem Visiting.skip {t₀ : DirTree} {e : String × Node} (h : Visiting v R p ns t₀ (e :: es) t) :
    Visiting v R p ns t₀ es t where
  entries e' he' := h.entries e' (List.mem_cons_of_mem _ he')
  sorted := (List.pairwise_cons.1 h.sorted).2
  ordered := h.ordered
  before := h.before.tail
  grows := h.grows

/-- Adding directories at or below an entry, in name order, keeps the visit
going. -/
theorem Visiting.descend (hv : v.WellFormed) {t₀ : DirTree} {k : Node}
    (h : Visiting v R p ns t₀ ((name, k) :: es) t) (ho : NameOrdered v R p t₁)
    (hx : Extends v R p (ns ++ [name]) t t₁) : Visiting v R p ns t₀ es t₁ where
  entries e' he' := h.entries e' (List.mem_cons_of_mem _ he')
  sorted := (List.pairwise_cons.1 h.sorted).2
  ordered := ho
  before := h.before.extend hv (List.pairwise_cons.1 h.sorted).1 hx
  grows := h.grows.trans hx.up

/-! ## What a scan keeps

The scan reads each directory it goes down into by the path it writes, the
root's path with the names on the way joined, and a path too long to be read
stops it with an error. It goes down into every real directory below the root
no exclusion matches, so it either records all of them, or fails at one of
them whose path is too long. -/

/-- **A directory a scan keeps**: the end of a chain of real directories below
the root's place `p`, no step of which a directory exclusion matches, each
step shown to the exclusions as the chain's names up to it joined by
slashes. -/
def Kept (v : Volume) (ex : Exclusions) (p : Place) (ns : List String) : Prop :=
  DirChain v p ns ∧ ∀ j, 0 < j → j ≤ ns.length → ex.excludesDir ("/".intercalate (ns.take j)) = false

theorem Kept.nil : Kept v ex p [] :=
  ⟨.nil p, fun _ hj hle => absurd hle (Nat.not_le_of_lt hj)⟩

theorem Kept.snoc (h : Kept v ex p ns) (hl : v.lookup (p ++ ns ++ [name]) = some .dir)
    (hx : ex.excludesDir ("/".intercalate (ns ++ [name])) = false) : Kept v ex p (ns ++ [name]) := by
  refine ⟨h.1.snoc hl, fun j hj hle => ?_⟩
  rw [List.length_append, List.length_singleton] at hle
  rcases Nat.lt_or_ge j (ns.length + 1) with hlt | hge
  · rw [List.take_append_of_le_length (by omega)]
    exact h.2 j hj (by omega)
  · rw [List.take_of_length_le (by rw [List.length_append, List.length_singleton]; omega)]
    exact hx

theorem Kept.of_append {ms : List String} (h : Kept v ex p (ns ++ ms)) : Kept v ex p ns := by
  refine ⟨h.1.of_append, fun j hj hle => ?_⟩
  have hx := h.2 j hj (by rw [List.length_append]; omega)
  rwa [List.take_append_of_le_length hle] at hx

theorem Kept.of_append_cons {ys : List String} (h : Kept v ex p (ns ++ y :: ys)) : Kept v ex p (ns ++ [y]) := by
  rw [← List.singleton_append, ← List.append_assoc] at h
  exact h.of_append

/-- No exclusion matches a kept directory. -/
theorem Kept.not_excluded (h : Kept v ex p ns) (hne : ns ≠ []) :
    ex.excludesDir ("/".intercalate ns) = false := by
  have hx := h.2 ns.length (List.length_pos_of_ne_nil hne) (Nat.le_refl _)
  rwa [List.take_length] at hx

/-- `t` has a node with the path `x`. -/
def Records (t : DirTree) (x : String) : Prop :=
  ∃ j n, t.get? j = some n ∧ n.identifier = x

/-- Every node of `t` stays in `t'`, at its position and with its path. -/
def Keeps (t t' : DirTree) : Prop :=
  ∀ j n, t.get? j = some n → ∃ n', t'.get? j = some n' ∧ n'.identifier = n.identifier

theorem Keeps.refl (t : DirTree) : Keeps t t :=
  fun _ n hn => ⟨n, hn, rfl⟩

theorem Keeps.trans (h₁ : Keeps t t₁) (h₂ : Keeps t₁ t₂) : Keeps t t₂ := by
  intro j n hn
  obtain ⟨n₁, hn₁, hid₁⟩ := h₁ j n hn
  obtain ⟨n₂, hn₂, hid₂⟩ := h₂ j n₁ hn₁
  exact ⟨n₂, hn₂, hid₂.trans hid₁⟩

theorem Keeps.records (h : Keeps t t') {x : String} (hx : Records t x) : Records t' x := by
  obtain ⟨j, n, hn, rfl⟩ := hx
  obtain ⟨n', hn', hid⟩ := h j n hn
  exact ⟨j, n', hn', hid⟩

/-- An insert keeps every node. -/
theorem keeps_insert (P : Nat) (c : String) : Keeps t (t.insert P c).1 := by
  rcases insert_cases t P c with ⟨j, -, he⟩ | ⟨-, -, he⟩ | ⟨pn, -, hp, he⟩
  · rw [he]
    exact Keeps.refl t
  · rw [he]
    exact Keeps.refl t
  · rw [he]
    intro j n hn
    obtain ⟨n', hn', hid, -⟩ := get?_appendLeaf_of_lt hp hn
    exact ⟨n', hn', hid⟩

/-- **An insert under a node of the tree records its path**, in normal form,
when the tree records paths in normal form only. -/
theorem Recorded.records_insert (ht : Recorded v R p t) {x : String} {P : Nat} (hP : t.find x = some P)
    (c : String) : Records (t.insert P c).1 (Path.normalize c) := by
  obtain ⟨pn, hpn, -⟩ := find_spec hP
  rcases insert_cases t P c with ⟨j, hf, he⟩ | ⟨-, hP', -⟩ | ⟨pn', -, hp, he⟩
  · rw [he]
    obtain ⟨n, hn, hs⟩ := find_spec hf
    obtain ⟨ms, -, hid⟩ := ht.chain j n hn
    refine ⟨j, n, hn, (Path.same_iff_eq ?_ (Path.normalize_normalize c)).1 hs⟩
    rw [hid, Path.normalize_normalize]
  · rw [hpn] at hP'
    cases hP'
  · rw [he]
    exact ⟨t.size, _, get?_appendLeaf_size hp, rfl⟩

/-- Every node of `t` is a directory the scan keeps, named by the normal form
of the root's path with its chain's names joined. -/
def KeptNodes (v : Volume) (ex : Exclusions) (R : String) (p : Place) (t : DirTree) : Prop :=
  ∀ j n, t.get? j = some n → ∃ ms, Kept v ex p ms ∧ n.identifier = Path.normalize (joinAll R ms)

theorem KeptNodes.new : KeptNodes v ex R p (DirTree.new R) := by
  intro j n hn
  rw [get?_new] at hn
  split at hn
  · cases hn
    exact ⟨[], Kept.nil, rfl⟩
  · cases hn

theorem KeptNodes.insert (h : KeptNodes v ex R p t) {ms : List String} (hk : Kept v ex p ms) (P : Nat) :
    KeptNodes v ex R p (t.insert P (joinAll R ms)).1 := by
  intro j m hm
  rcases identifier_insert hm with hid | ⟨j', n, hn, hid⟩
  · exact ⟨ms, hk, hid⟩
  · rw [hid]
    exact h j' n hn

/-- **A tree a scan may be part way through**: recorded in name order, each
node a directory the scan keeps. -/
structure KeptInOrder (v : Volume) (ex : Exclusions) (R : String) (p : Place) (t : DirTree) : Prop
    extends NameOrdered v R p t where
  kept : KeptNodes v ex R p t

/-- The kept directory at the end of `ms` was read and recorded: `t` has a
node with its normal path, and its path is short enough to be read. -/
def Scanned (R : String) (t : DirTree) (ms : List String) : Prop :=
  Records t (Path.normalize (joinAll R ms)) ∧ (joinAll R ms).utf8ByteSize < pathMax

theorem Scanned.keeps {ms : List String} (h : Scanned R t ms) (hk : Keeps t t') : Scanned R t' ms :=
  ⟨hk.records h.1, h.2⟩

/-- **A failure at a directory the scan keeps**: its path is too long to be
read, and the failure names that path. -/
def FailsAt (v : Volume) (ex : Exclusions) (R : String) (p : Place) (e : OrderError) : Prop :=
  ∃ ms, Kept v ex p ms ∧ pathMax ≤ (joinAll R ms).utf8ByteSize ∧
    e = .fileSystem (joinAll R ms) (.walk (joinAll R ms) .nameTooLong)

/-- **Walking the entries of a kept directory**, with the entries `es` still
to come: a visit in name order in which every node is kept and every node
the walk started from stays, and in which each kept directory reached
through an entry already passed was read and recorded. -/
structure Walking (v : Volume) (ex : Exclusions) (R : String) (p : Place) (ns : List String)
    (t₀ : DirTree) (es : List (String × Node)) (t : DirTree) : Prop
    extends Visiting v R p ns t₀ es t where
  kept : KeptNodes v ex R p t
  keeps : Keeps t₀ t
  done : ∀ y ys, Kept v ex p (ns ++ y :: ys) → y ∉ es.map Prod.fst → Scanned R t (ns ++ y :: ys)

/-- At the start nothing is passed: every kept directory below the chain's
end is reached through one of its entries. -/
theorem Walking.start (hv : v.WellFormed) (ht : KeptInOrder v ex R p t) (hu : Unvisited v R p ns t) :
    Walking v ex R p ns t (v.entries (p ++ ns)) t where
  toVisiting := Visiting.start hv ht.toNameOrdered hu
  kept := ht.kept
  keeps := Keeps.refl t
  done y ys hk hy := by
    have hl := hk.of_append_cons.1.lookup_last
    exact absurd (List.mem_map.2 ⟨(y, .dir), mem_entries.2 ((hv.lookup_eq_some_iff (by simp)).1 hl), rfl⟩) hy

/-- Passing by an entry below which nothing is kept keeps the walk going. -/
theorem Walking.skip {t₀ : DirTree} {e : String × Node} (h : Walking v ex R p ns t₀ (e :: es) t)
    (hy : ∀ ys, ¬ Kept v ex p (ns ++ e.1 :: ys)) : Walking v ex R p ns t₀ es t where
  toVisiting := h.toVisiting.skip
  kept := h.kept
  keeps := h.keeps
  done y ys hk hny := by
    refine h.done y ys hk fun hm => ?_
    rcases List.mem_cons.1 (List.map_cons (f := Prod.fst) ▸ hm) with rfl | hm'
    · exact hy ys hk
    · exact hny hm'

/-- Nothing is kept below an entry that is no directory, so passing it by
keeps the walk going. -/
theorem Walking.skip_of_ne_dir (hv : v.WellFormed) {t₀ : DirTree} {k : Node}
    (h : Walking v ex R p ns t₀ ((name, k) :: es) t) (hk : k ≠ .dir) : Walking v ex R p ns t₀ es t := by
  refine h.skip fun ys hkept => hk ?_
  have hl := hv.lookup_of_mem_entries (h.entries _ List.mem_cons_self)
  rw [hkept.of_append_cons.1.lookup_last] at hl
  exact (Option.some.inj hl).symm

/-- Reading and recording the kept directories at and below an entry, in name
order, keeps the walk going. -/
theorem Walking.descend (hv : v.WellFormed) {t₀ : DirTree} {k : Node}
    (h : Walking v ex R p ns t₀ ((name, k) :: es) t) (ho : KeptInOrder v ex R p t₁)
    (hx : Extends v R p (ns ++ [name]) t t₁) (hk : Keeps t t₁)
    (hd : ∀ ys, Kept v ex p (ns ++ name :: ys) → Scanned R t₁ (ns ++ name :: ys)) :
    Walking v ex R p ns t₀ es t₁ where
  toVisiting := h.toVisiting.descend hv ho.toNameOrdered hx
  kept := ho.kept
  keeps := h.keeps.trans hk
  done y ys hky hny := by
    by_cases hyn : y = name
    · subst hyn
      exact hd ys hky
    · refine (h.done y ys hky fun hm => ?_).keeps hk
      rcases List.mem_cons.1 (List.map_cons (f := Prod.fst) ▸ hm) with rfl | hm'
      · exact hyn rfl
      · exact hny hm'

/-- The end of the chain stays recorded through the walk, and is found as
the parent of a directory one name further down. -/
theorem Walking.find_parent {t₀ : DirTree} (h : Walking v ex R p ns t₀ es t)
    (hin : Records t₀ (Path.normalize (joinAll R ns))) (hn : Path.IsName name.toList) :
    ∃ P, t.find (Path.normalize ((Path.parent? (joinAll R (ns ++ [name]))).getD R)) = some P := by
  obtain ⟨j, n, hj, hid⟩ := h.keeps.records hin
  refine ⟨j, h.ordered.reach.shaped.find_eq_some_iff.2 ⟨n, hj, ?_⟩⟩
  rw [joinAll_concat, normalize_parent_join hn, hid]
  exact Path.same_refl _

/-- **Visiting a kept directory**: started with its path recorded and nothing
below it yet, the scan below it either keeps the tree in name order with
every node kept, every old node staying and the new ones at or below it, and
reads and records every kept directory below it; or it fails at a kept
directory whose path is too long. The fuel is more than any chain below it
is long. -/
theorem scanBelow_ends (hv : v.WellFormed) (hroot : v.resolve R true = .ok (.node p .dir)) (fuel : Nat) :
    ∀ ns t, Kept v ex p ns → (∀ ms, Kept v ex p (ns ++ ms) → ms.length < fuel) →
      KeptInOrder v ex R p t → Unvisited v R p ns t → Records t (Path.normalize (joinAll R ns)) →
      Ends (fun t' => KeptInOrder v ex R p t' ∧ Extends v R p ns t t' ∧ Keeps t t' ∧
          ∀ y ys, Kept v ex p (ns ++ y :: ys) → Scanned R t' (ns ++ y :: ys))
        (FailsAt v ex R p) (scanBelow v ex R fuel (p ++ ns) (joinAll R ns) t) := by
  induction fuel with
  | zero =>
    intro ns t hc hfuel _ _ _
    exact absurd (hfuel [] (by rwa [List.append_nil])) (Nat.not_lt_zero _)
  | succ fuel ih =>
    intro ns t hc hfuel ht hu hin
    rw [scanBelow]
    refine List.foldlM_ends (Walking v ex R p ns t) (fun e es t' h => ?_)
      (fun t' h => ⟨⟨h.ordered, h.kept⟩, h.grows, h.keeps, fun y ys hk => h.done y ys hk List.not_mem_nil⟩)
      _ t (Walking.start hv ht hu)
    obtain ⟨name, k⟩ := e
    cases k with
    | file c => exact h.skip_of_ne_dir hv nofun
    | link target => exact h.skip_of_ne_dir hv nofun
    | dir =>
      have hl : v.lookup (p ++ ns ++ [name]) = some .dir :=
        hv.lookup_of_mem_entries (h.entries _ List.mem_cons_self)
      have hc' : DirChain v p (ns ++ [name]) := hc.1.snoc hl
      have hnames : ∀ m ∈ ns ++ [name], Path.IsName m.toList := fun m hm => (hv.validName_of_chain hc' m hm).1
      have hn : Path.IsName name.toList := hnames name (List.mem_append_right _ (List.mem_singleton_self _))
      dsimp only
      rw [← joinAll_concat, relativeTo_joinAll hnames]
      split
      · -- an excluded directory is passed by, and nothing below it is kept
        rename_i hx
        refine h.skip fun ys hk => ?_
        rw [hk.of_append_cons.not_excluded (List.append_ne_nil_of_right_ne_nil _ (List.cons_ne_nil _ _))] at hx
        cases hx
      rename_i hx
      have hkept : Kept v ex p (ns ++ [name]) := hc.snoc hl (Bool.eq_false_iff.2 hx)
      obtain ⟨P, hP⟩ := h.find_parent hin hn
      obtain ⟨ho₁, hu₁, hx₁⟩ := h.ordered.insert hv hc' h.before hP
      have hrec₁ := h.ordered.toRecorded.records_insert hP (joinAll R (ns ++ [name]))
      rw [hP]
      dsimp only
      rw [hv.listDir_joinAll hroot hc']
      by_cases hshort : (joinAll R (ns ++ [name])).utf8ByteSize < pathMax
      · rw [if_pos hshort, List.append_assoc]
        have hfuel' : ∀ ms, Kept v ex p (ns ++ [name] ++ ms) → ms.length < fuel := by
          intro ms hk
          have hlt := hfuel ([name] ++ ms) (by rwa [← List.append_assoc])
          rw [List.length_append, List.length_singleton] at hlt
          omega
        refine (ih (ns ++ [name]) _ hkept hfuel' ⟨ho₁, h.kept.insert hkept P⟩ hu₁ hrec₁).imp
          (fun t₂ ⟨ho₂, hx₂, hk₂, hd₂⟩ => h.descend hv ho₂ (hx₁.trans hx₂) ((keeps_insert P _).trans hk₂)
            fun ys hk => ?_) fun _ he => he
        -- the new directory itself, and those below it
        cases ys with
        | nil => exact ⟨hk₂.records hrec₁, hshort⟩
        | cons y ys =>
          have hd := hd₂ y ys (by rwa [List.append_assoc, List.singleton_append])
          rwa [List.append_assoc, List.singleton_append] at hd
      · rw [if_neg hshort]
        exact ⟨ns ++ [name], hkept, Nat.le_of_not_lt hshort, rfl⟩

/-- **What a scan ends with**: from a root that leads to a directory, the
scan either gives a tree in name order whose nodes are the directories it
keeps, every one of them read and recorded; or it fails at a kept directory
whose path is too long to be read. -/
theorem scan_ends (hv : v.WellFormed) (hroot : v.resolve R true = .ok (.node p .dir)) :
    Ends (fun t => KeptInOrder v ex R p t ∧ ∀ ms, Kept v ex p ms → Scanned R t ms)
      (FailsAt v ex R p) (scan v ex R) := by
  have hmeta : v.metadata R = .ok .dir := by
    unfold metadata
    rw [hroot]
  have hlist : v.listDir R = .ok (p, v.entries p) := by
    unfold listDir
    rw [hroot]
  have hRrec : Records (DirTree.new R) (Path.normalize (joinAll R [])) :=
    ⟨0, _, by rw [get?_new, if_pos rfl], rfl⟩
  have hRshort : R.utf8ByteSize < pathMax := by
    obtain ⟨-, hr, -⟩ := resolve_of_ok hroot
    exact utf8ByteSize_lt_of_refusal? hr
  have hfuel : ∀ ms, Kept v ex p ([] ++ ms) → ms.length < v.nodes.length + 1 := fun ms hk =>
    Nat.lt_succ_of_le (hk.1.length_le hv)
  have h := scanBelow_ends hv hroot (v.nodes.length + 1) [] (DirTree.new R) Kept.nil hfuel
    ⟨NameOrdered.new hv, KeptNodes.new⟩ (unvisited_new hv) hRrec
  rw [List.append_nil] at h
  unfold scan
  rw [hmeta, hlist]
  refine h.imp (fun t ht => ⟨ht.1, fun ms hms => ?_⟩) fun _ he => he
  -- the root itself, and the directories below it
  cases ms with
  | nil => exact ⟨ht.2.2.1.records hRrec, hRshort⟩
  | cons y ys => exact ht.2.2.2 y ys hms

/-- **A scan reads every kept directory when it can**: when the path it
writes for each is shorter than `pathMax` bytes, it succeeds, with a tree in
name order of kept directories that records each of them. -/
theorem scan_ok_of_short (hv : v.WellFormed) (hroot : v.resolve R true = .ok (.node p .dir))
    (hshort : ∀ ms, Kept v ex p ms → (joinAll R ms).utf8ByteSize < pathMax) :
    ∃ t, scan v ex R = .ok t ∧ KeptInOrder v ex R p t ∧ ∀ ms, Kept v ex p ms → Scanned R t ms := by
  cases hs : scan v ex R with
  | error e =>
    obtain ⟨ms, hk, hlong, -⟩ := (scan_ends hv hroot).of_error hs
    exact absurd (hshort ms hk) (Nat.not_lt_of_le hlong)
  | ok t => exact ⟨t, rfl, (scan_ends hv hroot).of_ok hs⟩

/-- **A scan fails at a kept directory it cannot read**: when the path it
writes for one is too long, it fails, naming a kept directory whose path is
too long. -/
theorem scan_error_of_long (hv : v.WellFormed) (hroot : v.resolve R true = .ok (.node p .dir))
    {ms : List String} (hk : Kept v ex p ms) (hlong : pathMax ≤ (joinAll R ms).utf8ByteSize) :
    ∃ ms, Kept v ex p ms ∧ pathMax ≤ (joinAll R ms).utf8ByteSize ∧
      scan v ex R = .error (.fileSystem (joinAll R ms) (.walk (joinAll R ms) .nameTooLong)) := by
  cases hs : scan v ex R with
  | error e =>
    obtain ⟨ms', hk', hlong', he⟩ := (scan_ends hv hroot).of_error hs
    exact ⟨ms', hk', hlong', by rw [he]⟩
  | ok t =>
    -- a tree would have read the long directory
    exact absurd (((scan_ends hv hroot).of_ok hs).2 ms hk).2 (Nat.not_lt_of_le hlong)

/-- **A scan that succeeds records in name order.** -/
theorem scan_nameOrdered (hv : v.WellFormed) (hroot : v.resolve R true = .ok (.node p .dir))
    (h : scan v ex R = .ok t) : NameOrdered v R p t := by
  exact ((scan_ends hv hroot).of_ok h).1.toNameOrdered

/-- **A node of a tree recorded in name order sits at its depth below the
root.** -/
theorem NameOrdered.depthBelow_identifier (hv : v.WellFormed) (hR : Path.normalize R = R)
    (ht : NameOrdered v R p t) {j : Nat} {n : DirNode} (hn : t.get? j = some n) :
    Path.depthBelow R n.identifier = some n.depth := by
  obtain ⟨ns, hc, hid⟩ := ht.chain j n hn
  rw [ht.depth j n ns hn hc hid, hid]
  exact depthBelow_joinAll hR fun x hx => (hv.validName_of_chain hc x hx).1

/-- Everything a scan below a directory adds, it adds by `insert`. -/
theorem scanBelow_reachable (fuel : Nat) :
    ∀ p here t, t.Reachable R → Ends (Reachable R) (fun _ => True) (scanBelow v ex R fuel p here t) := by
  induction fuel with
  | zero => exact fun _ _ _ ht => ht
  | succ fuel ih =>
    intro p here t ht
    rw [scanBelow]
    refine List.foldlM_ends (fun _ t => t.Reachable R) (Q := Reachable R) (fun e _ t' h' => ?_) (fun _ h' => h')
      _ t ht
    obtain ⟨name, k⟩ := e
    cases k with
    | file c => exact h'
    | link target => exact h'
    | dir =>
      dsimp only
      split
      · exact h'
      · split
        · trivial
        · apply ih
          split
          · exact .insert _ _ h'
          · exact h'

/-- **A scan's tree is one a run of inserts builds from its root.** -/
theorem scan_reachable (h : scan v ex R = .ok t) : t.Reachable R := by
  unfold scan at h
  split at h
  · cases h
  · cases h
  · split at h
    · cases h
    · exact (scanBelow_reachable _ _ _ _ .new).of_ok h

/-- **A scan succeeds only from a root that leads to a directory.** -/
theorem resolve_of_scan (h : scan v ex R = .ok t) : ∃ p, v.resolve R true = .ok (.node p .dir) := by
  unfold scan listDir at h
  cases hr : v.resolve R true with
  | error e =>
    unfold metadata at h
    rw [hr] at h
    cases h
  | ok r =>
    cases r with
    | absent q name =>
      unfold metadata at h
      rw [hr] at h
      cases h
    | node q k =>
      cases k with
      | dir => exact ⟨q, rfl⟩
      | file c =>
        unfold metadata at h
        rw [hr] at h
        cases h
      | link target =>
        unfold metadata at h
        rw [hr] at h
        cases h

/-- **A root that does not lead to a directory is not scanned**: the scan
fails, naming the root. -/
theorem scan_error_of_not_dir (h : ¬ ∃ p, v.resolve R true = .ok (.node p .dir)) :
    ∃ c, scan v ex R = .error (.fileSystem R c) := by
  unfold scan metadata
  cases hr : v.resolve R true with
  | error e => exact ⟨.os e, rfl⟩
  | ok r =>
    cases r with
    | absent q name => exact ⟨.os .notFound, rfl⟩
    | node q k =>
      cases k with
      | dir => exact absurd ⟨q, hr⟩ h
      | file c => exact ⟨.other "path is not a directory", rfl⟩
      | link a => exact ⟨.os .notFound, rfl⟩

/-! ## The tree a scan gives -/

/-- **The tree of the directories a scan keeps**: its nodes are exactly the
kept directories, named by the normal forms of the paths the scan writes for
them; each is as deep as its chain is long and hangs under the node of its
chain without the last name; the children of every node are in increasing
order of their names. -/
structure KeptTree (v : Volume) (ex : Exclusions) (R : String) (p : Place) (t : DirTree) : Prop where
  nodes : ∀ x, Records t x ↔ ∃ ms, Kept v ex p ms ∧ x = Path.normalize (joinAll R ms)
  depth : ∀ j n ms, t.get? j = some n → Kept v ex p ms → n.identifier = Path.normalize (joinAll R ms) →
    n.depth = ms.length
  parent : ∀ j n ms m, t.get? j = some n → Kept v ex p (ms ++ [m]) →
    n.identifier = Path.normalize (joinAll R (ms ++ [m])) →
    ∃ q nq, n.parent = some q ∧ t.get? q = some nq ∧ nq.identifier = Path.normalize (joinAll R ms)
  sorted : ∀ j, (t.childPaths j).Pairwise fun a b => Path.tag a < Path.tag b

/-- A tree in name order that has every kept directory and only those is the
tree of the kept directories. -/
theorem KeptInOrder.keptTree (hv : v.WellFormed) (ht : KeptInOrder v ex R p t)
    (hall : ∀ ms, Kept v ex p ms → Scanned R t ms) : KeptTree v ex R p t where
  nodes x := by
    constructor
    · rintro ⟨j, n, hn, rfl⟩
      exact ht.kept j n hn
    · rintro ⟨ms, hk, rfl⟩
      exact (hall ms hk).1
  depth j n ms hn hk hid := ht.depth j n ms hn hk.1 hid
  parent j n ms m hn hk hid := by
    -- the node is not the root, whose path is that of the empty chain
    have hj : j ≠ 0 := by
      rintro rfl
      obtain ⟨n₀, hn₀, hid₀⟩ := ht.reach.root_identifier
      rw [hn] at hn₀
      cases hn₀
      have he := chain_inj hv (.nil p) hk.1 (hid₀.symm.trans hid)
      exact List.append_ne_nil_of_right_ne_nil ms (List.cons_ne_nil m []) he.symm
    obtain ⟨q, nq, hq, -, hnq, -⟩ := ht.reach.shaped.below j n hn hj
    obtain ⟨ns, name, hc, hid₁, hid₂⟩ := ht.parent_chain j q n nq hn hq hnq
    obtain ⟨rfl, -⟩ := List.append_inj' (chain_inj hv hc hk.1 (hid₂.symm.trans hid)) rfl
    exact ⟨q, nq, hq, hnq, hid₁⟩
  sorted := ht.sorted

/-- **A scan records exactly the directories it keeps, or fails naming a path
it cannot read.** A root that does not lead to a directory fails with the
root's path. From a root that leads to a directory, when the path the scan
writes for every kept directory is shorter than `pathMax` bytes, the scan
gives the tree of the kept directories; when one such path is not, the scan
fails at a kept directory whose path is too long, naming that path. -/
theorem scan_records_kept_directories (hv : v.WellFormed) :
    ((¬ ∃ p, v.resolve R true = .ok (.node p .dir)) → ∃ c, scan v ex R = .error (.fileSystem R c)) ∧
    ∀ p, v.resolve R true = .ok (.node p .dir) →
      ((∀ ms, Kept v ex p ms → (joinAll R ms).utf8ByteSize < pathMax) →
        ∃ t, scan v ex R = .ok t ∧ KeptTree v ex R p t) ∧
      ((∃ ms, Kept v ex p ms ∧ pathMax ≤ (joinAll R ms).utf8ByteSize) →
        ∃ ms, Kept v ex p ms ∧ pathMax ≤ (joinAll R ms).utf8ByteSize ∧
          scan v ex R = .error (.fileSystem (joinAll R ms) (.walk (joinAll R ms) .nameTooLong))) := by
  refine ⟨scan_error_of_not_dir, fun p hroot => ⟨fun hshort => ?_, fun ⟨ms, hk, hlong⟩ => ?_⟩⟩
  · obtain ⟨t, hs, ht, hall⟩ := scan_ok_of_short hv hroot hshort
    exact ⟨t, hs, ht.keptTree hv hall⟩
  · exact scan_error_of_long hv hroot hk hlong

/-- **A small project**: a rule file, sources with a nested directory and a
link to one of their files, a build directory, documentation, and a link to
the sources at the top. -/
def projectVolume : Volume :=
  ⟨[(["rules"], .file "dir src\nfile src/util.py\n"),
    (["build"], .dir), (["build", "gen.py"], .file ""),
    (["docs"], .dir), (["docs", "intro.md"], .file ""),
    (["latest"], .link "src"),
    (["src"], .dir), (["src", "core"], .dir), (["src", "core", "a.c"], .file ""),
    (["src", "core", "a.h"], .file ""), (["src", "main.py"], .file ""),
    (["src", "run.py"], .link "main.py"), (["src", "util.py"], .file "")], []⟩

/-- Exclusions that leave out the directory `build` and everything below it. -/
def buildExcluded : Exclusions := ⟨[⟨"build", "build".toList.map .char⟩], []⟩

theorem projectVolume_wellFormed : projectVolume.WellFormed :=
  .of_places (by decide) (by decide)

/-- The project scanned from the top without its build directory is one the
theorem covers: its directories nest, one is excluded and one is a link. -/
theorem project_scan :
    projectVolume.WellFormed ∧
    ((¬ ∃ p, projectVolume.resolve "/" true = .ok (.node p .dir)) →
      ∃ c, scan projectVolume buildExcluded "/" = .error (.fileSystem "/" c)) ∧
    ∀ p, projectVolume.resolve "/" true = .ok (.node p .dir) →
      ((∀ ms, Kept projectVolume buildExcluded p ms → (joinAll "/" ms).utf8ByteSize < pathMax) →
        ∃ t, scan projectVolume buildExcluded "/" = .ok t ∧ KeptTree projectVolume buildExcluded "/" p t) ∧
      ((∃ ms, Kept projectVolume buildExcluded p ms ∧ pathMax ≤ (joinAll "/" ms).utf8ByteSize) →
        ∃ ms, Kept projectVolume buildExcluded p ms ∧ pathMax ≤ (joinAll "/" ms).utf8ByteSize ∧
          scan projectVolume buildExcluded "/" =
            .error (.fileSystem (joinAll "/" ms) (.walk (joinAll "/" ms) .nameTooLong))) :=
  ⟨projectVolume_wellFormed, scan_records_kept_directories projectVolume_wellFormed⟩

/-! ## A root too deep to scan

A root that leads to a directory is not enough for a scan to succeed: the
scan reads every kept directory again by the path it writes for it, and a
volume may nest directories deeper than such a path can be read. Sixteen
directories of names of `nameMax` bytes, nested below the top, are one. -/

/-- A run of one character is that character's size times as long. -/
theorem utf8Len_replicate (c : Char) : ∀ j, String.utf8Len (List.replicate j c) = j * c.utf8Size
  | 0 => by rw [List.replicate_zero, String.utf8Len_nil, Nat.zero_mul]
  | j + 1 => by rw [List.replicate_succ, String.utf8Len_cons, utf8Len_replicate c j, Nat.succ_mul]

/-- A name of `nameMax` bytes, the longest an entry may have. -/
def longName : String := String.ofList (List.replicate nameMax 'd')

theorem toList_longName : longName.toList = List.replicate nameMax 'd' := String.toList_ofList

theorem utf8ByteSize_longName : longName.utf8ByteSize = nameMax := by
  have hd : 'd'.utf8Size = 1 := by decide
  rw [longName, String.utf8ByteSize_ofList, utf8Len_replicate, hd, Nat.mul_one]

theorem validName_longName : ValidName longName := by
  unfold ValidName
  rw [toList_longName, utf8ByteSize_longName]
  exact ⟨by decide, Nat.le_refl _, by decide⟩

/-- **Sixteen directories nested below the top**, each named `longName`, and
an empty file `r` beside the first. -/
def deepVolume : Volume :=
  ⟨(["r"], .file "") :: (List.range 16).map fun k => (List.replicate (k + 1) longName, .dir), []⟩

theorem deepVolume_wellFormed : deepVolume.WellFormed := by
  refine .of_places ?_ fun e he s hs => ?_
  · -- the directories are chains of different lengths, none of them the file `r`
    rw [deepVolume, List.map_cons, List.map_map, List.nodup_cons]
    refine ⟨fun hr => ?_, List.nodup_range.map fun i j h => ?_⟩
    · obtain ⟨k, -, hk⟩ := List.mem_map.1 hr
      simp only [Function.comp_apply] at hk
      have hname : "r" = longName := List.eq_of_mem_replicate (by rw [hk]; exact List.mem_singleton_self "r")
      have htext := congrArg String.toList hname
      rw [toList_longName] at htext
      exact absurd htext (by decide)
    · have hlen := congrArg List.length h
      simp only [Function.comp_apply, List.length_replicate] at hlen
      omega
  · rcases List.mem_cons.1 he with rfl | he
    · rw [List.mem_singleton.1 hs]
      decide
    · obtain ⟨k, -, rfl⟩ := List.mem_map.1 he
      rw [List.eq_of_mem_replicate hs]
      exact validName_longName

/-- Below the `i`-th directory, `j` more names lead down real directories
while the sixteen last. -/
theorem deepVolume_chain : ∀ j i, i + j ≤ 16 →
    DirChain deepVolume (List.replicate i longName) (List.replicate j longName)
  | 0, i, _ => .nil _
  | j + 1, i, hij => by
    have hl : deepVolume.lookup (List.replicate i longName ++ [longName]) = some .dir := by
      rw [← List.replicate_succ', deepVolume_wellFormed.lookup_eq_some_iff (by simp)]
      exact List.mem_cons_of_mem _ (List.mem_map.2 ⟨i, List.mem_range.2 (by omega), rfl⟩)
    rw [List.replicate_succ]
    refine .cons hl ?_
    rw [← List.replicate_succ']
    exact deepVolume_chain j (i + 1) (by omega)

/-- The sixteen directories are kept when nothing is excluded. -/
theorem deepVolume_kept : Kept deepVolume {} [] (List.replicate 16 longName) :=
  ⟨deepVolume_chain 16 0 (Nat.le_refl _), fun _ _ _ => rfl⟩

/-- The path of the deepest directory is `pathMax` bytes long: the top's
slash, then sixteen names of `nameMax` bytes with a slash between each. -/
theorem deepVolume_long : pathMax ≤ (joinAll "/" (List.replicate 16 longName)).utf8ByteSize := by
  have hn : Path.IsName longName.toList := validName_longName.1
  have htop : join "/" longName = "/" ++ longName := by
    rw [join_of_name hn]
    rfl
  rw [List.replicate_succ, joinAll_cons,
    utf8ByteSize_joinAll_replicate hn (join_ne_nil hn) (getLast?_join hn), htop, String.utf8ByteSize_append,
    utf8ByteSize_longName]
  decide

/-- **A root that leads to a directory may still fail to scan**: the top of
`deepVolume` is a directory, and its scan with no exclusion fails. -/
theorem deep_volume_scan_fails :
    deepVolume.resolve "/" true = .ok (.node [] .dir) ∧ ∃ e, scan deepVolume {} "/" = .error e := by
  obtain ⟨ms, -, -, he⟩ :=
    scan_error_of_long deepVolume_wellFormed (resolve_top true) deepVolume_kept deepVolume_long
  exact ⟨resolve_top true, _, he⟩

end DirTree

end ReadingOrder
