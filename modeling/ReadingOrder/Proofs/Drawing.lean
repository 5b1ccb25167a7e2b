import ReadingOrder.Render
import ReadingOrder.Proofs.Tree.Traversal
/-!
# The drawing of a tree encodes the tree

A drawing lists under each directory its items: first its files, then its
subdirectories, each subdirectory followed by what is listed under it. The
line of an item says by its connector whether it is the last item of its
directory, and its indentation says the same of every directory on the way
down from the root: four spaces below a directory that was the last item of
its own parent, a bar otherwise. `Draws` states this with the indentation
read off the chain of directories down to the item, and the last item found
by its place in the list.

`body` computes the same text differently: it carries the indentation down
as a growing prefix, tells the last item by comparing a running index with
the number of files plus the number of directories, and bounds its descent
by the number of nodes. On every tree `insert` builds the two agree
(`body_draws`): the index test picks the item whose list runs out,
the prefix handed to a subdirectory is its chain's indentation because a
directory is its parent's last item exactly when it ends the children list,
and the bound is never reached, since depth grows by one per level and
stays below the number of nodes. `Draws` has one answer at most, so the
drawing is determined by it (`render_draws_tree`).
-/

namespace ReadingOrder

namespace TreeDrawing

open DirTree

/-- **An item listed under a directory**: a file, by name, or a
subdirectory. -/
inductive Item where
  | file (name : String)
  | dir (id : Nat)
  deriving DecidableEq, Repr

/-- The text an item is shown by: a file's name, or a directory's tag and a
slash. -/
def Item.text (t : DirTree) : Item → String
  | .file name => name
  | .dir c => ((t.get? c).map (·.tag)).getD "" ++ "/"

/-- **The files listed under the directory at `x`**: the file names, paths
without one left out, of the last entry of the sequence whose directory is
`x`; none when the drawing has no sequence. -/
def listedFiles (d : TreeDrawing) (x : String) : List String :=
  match d.files with
  | none => []
  | some s =>
    (((s.directories.filter fun e => Path.same e.directory x).getLast?.map (·.files)).getD []).filterMap
      Path.fileName?

/-- **The items listed under node `p`**: its files, then its subdirectories
in their order. -/
def items (d : TreeDrawing) (t : DirTree) (p : Nat) : List Item :=
  (((t.get? p).map fun n => d.listedFiles n.identifier).getD []).map .file ++ (t.children p).map .dir

/-- **The column a directory adds** to the lines below it: four spaces when it
is the last item listed under its parent, a bar otherwise. -/
def column (d : TreeDrawing) (t : DirTree) (c : Nat) : String :=
  continuation ((t.parent c).any fun q => (d.items t q).getLast? == some (.dir c))

/-- The indentation of the items under the last directory of a chain that
runs down from the root, the root left out: one column per directory. -/
def indent (d : TreeDrawing) (t : DirTree) (chain : List Nat) : String :=
  String.join (chain.map (d.column t))

/-- The line of an item under the last directory of a chain. -/
def line (d : TreeDrawing) (t : DirTree) (chain : List Nat) (isLast : Bool) (i : Item) : String :=
  d.indent t chain ++ connector isLast ++ i.text t ++ "\n"

/-- **What is drawn for a run of items**: `d.Draws t chain is s` says that `s`
draws the items `is`, the last items listed under the last directory of
`chain`. Each item has its line, connected by `└── ` when it ends the run;
a subdirectory's line is followed by what is drawn for its own items, one
step further down the chain. -/
inductive Draws (d : TreeDrawing) (t : DirTree) : List Nat → List Item → String → Prop
  | nil (chain : List Nat) : Draws d t chain [] ""
  | file {chain : List Nat} {name : String} {rest : List Item} {r : String} :
      Draws d t chain rest r →
      Draws d t chain (.file name :: rest) (d.line t chain rest.isEmpty (.file name) ++ r)
  | dir {chain : List Nat} {c : Nat} {rest : List Item} {s r : String} :
      Draws d t (chain ++ [c]) (d.items t c) s → Draws d t chain rest r →
      Draws d t chain (.dir c :: rest) (d.line t chain rest.isEmpty (.dir c) ++ s ++ r)

variable {d : TreeDrawing} {t : DirTree} {chain : List Nat} {is rest : List Item} {r s : String}
  {p c : Nat} {n : DirNode}

/-- **What is drawn for a run of items is determined by it.** -/
theorem Draws.unique (h : d.Draws t chain is s) (h' : d.Draws t chain is r) : s = r := by
  induction h generalizing r with
  | nil =>
    cases h'
    rfl
  | file _ ih =>
    cases h' with
    | file hr => rw [ih hr]
  | dir _ _ ihs ihr =>
    cases h' with
    | dir hs' hr' => rw [ihs hs', ihr hr']

/-- The renderer's file names are the listed files: the last entry for a
directory is the first one found from the back. -/
theorem fileNames_eq_listedFiles (x : String) : d.fileNames x = d.listedFiles x := by
  unfold fileNames listedFiles
  cases d.files with
  | none => rfl
  | some s =>
    dsimp only
    unfold Sequence.lastFilesFor Sequence.filesIn
    rw [List.getLast?_filter]

theorem items_of_get? (hp : t.get? p = some n) :
    d.items t p = (d.fileNames n.identifier).map .file ++ (t.children p).map .dir := by
  unfold items
  rw [hp, fileNames_eq_listedFiles]
  rfl

theorem indent_append_singleton : d.indent t (chain ++ [c]) = d.indent t chain ++ d.column t c := by
  unfold indent
  rw [List.map_append, List.map_singleton, String.join_append, String.join_cons, String.join_nil,
    String.append_empty]

/-- The last element of a list without repeats is `c` exactly when nothing
follows `c`. -/
theorem getLast?_eq_some_iff_of_nodup {pre rest : List Nat} (hnd : (pre ++ c :: rest).Nodup) :
    (pre ++ c :: rest).getLast? = some c ↔ rest = [] := by
  constructor
  · intro hlast
    cases hr : rest.getLast? with
    | none => exact List.getLast?_eq_none_iff.1 hr
    | some x =>
      -- a later element would repeat `c`
      rw [List.getLast?_append, List.getLast?_cons, hr] at hlast
      simp only [Option.getD_some, Option.some_or, Option.some.injEq] at hlast
      rw [hlast] at hr
      have hc : c ∉ rest := (List.nodup_cons.1 (List.nodup_append.1 hnd).2.1).1
      exact absurd (List.mem_of_getLast? hr) hc
  · rintro rfl
    rw [List.getLast?_append, List.getLast?_singleton]
    rfl

/-! ## The renderer's lines -/

/-- One level of the renderer: the lines of the files, then for each
subdirectory its line and its own level. -/
theorem body_succ (hp : t.get? p = some n) (fuel : Nat) (pre : String) :
    d.body t (fuel + 1) p pre =
      String.join ((d.fileNames n.identifier).mapIdx fun i name =>
        pre ++ connector (i + 1 == (d.fileNames n.identifier).length + (t.children p).length) ++ name ++
          "\n") ++
      String.join ((t.children p).mapIdx fun i c =>
        pre ++ connector ((d.fileNames n.identifier).length + i + 1 ==
            (d.fileNames n.identifier).length + (t.children p).length) ++
          ((t.get? c).map (·.tag)).getD "" ++ "/\n" ++
          d.body t fuel c (pre ++ continuation ((d.fileNames n.identifier).length + i + 1 ==
            (d.fileNames n.identifier).length + (t.children p).length))) := by
  rw [body, hp]

/-- A run read from one place further on. -/
theorem mapIdx_from_succ {α β γ : Type} {F : Nat → α → β} (pre : List γ) (a : γ) (l : List α) :
    l.mapIdx (fun i x => F (pre.length + (i + 1)) x) = l.mapIdx fun i x => F ((pre ++ [a]).length + i) x := by
  congr 1
  funext i x
  rw [List.length_append, List.length_singleton, Nat.add_right_comm, Nat.add_assoc]

/-- **Lines of files draw the files**, when the line of each file is its
line under the chain, told last by whether any item follows it. -/
theorem draws_fileLines_from {names : List String} {F : Nat → String → String}
    (hr : d.Draws t chain rest r)
    (hF : ∀ pre name post, pre ++ name :: post = names →
      F pre.length name = d.line t chain (post.map Item.file ++ rest).isEmpty (.file name)) :
    ∀ pre ns, pre ++ ns = names →
      d.Draws t chain (ns.map .file ++ rest) (String.join (ns.mapIdx fun i x => F (pre.length + i) x) ++ r)
  | _, [], _ => by
    rw [List.mapIdx_nil, String.join_nil, String.empty_append]
    exact hr
  | pre, name :: ns, hpre => by
    have htail := draws_fileLines_from hr hF (pre ++ [name]) ns (by rw [List.append_assoc]; exact hpre)
    rw [List.map_cons, List.cons_append, List.mapIdx_cons]
    simp only [Nat.add_zero]
    rw [mapIdx_from_succ pre name, String.join_cons, String.append_assoc, hF pre name ns hpre]
    exact Draws.file htail

theorem draws_fileLines {names : List String} {F : Nat → String → String}
    (hr : d.Draws t chain rest r)
    (hF : ∀ pre name post, pre ++ name :: post = names →
      F pre.length name = d.line t chain (post.map Item.file ++ rest).isEmpty (.file name)) :
    d.Draws t chain (names.map .file ++ rest) (String.join (names.mapIdx F) ++ r) := by
  simpa only [List.length_nil, Nat.zero_add] using draws_fileLines_from hr hF [] names rfl

/-- **Lines of subdirectories draw the subdirectories**, when the line of
each is its line under the chain, told last by whether any follows it, and
then what is drawn for its own items. -/
theorem draws_dirLines_from {dirs : List Nat} {G : Nat → Nat → String}
    (hG : ∀ pre c post, pre ++ c :: post = dirs → ∃ s, d.Draws t (chain ++ [c]) (d.items t c) s ∧
      G pre.length c = d.line t chain (post.map Item.dir).isEmpty (.dir c) ++ s) :
    ∀ pre cs, pre ++ cs = dirs →
      d.Draws t chain (cs.map .dir) (String.join (cs.mapIdx fun i x => G (pre.length + i) x))
  | _, [], _ => by
    rw [List.map_nil, List.mapIdx_nil, String.join_nil]
    exact Draws.nil chain
  | pre, c :: cs, hpre => by
    obtain ⟨s, hs, hGc⟩ := hG pre c cs hpre
    have htail := draws_dirLines_from hG (pre ++ [c]) cs (by rw [List.append_assoc]; exact hpre)
    rw [List.map_cons, List.mapIdx_cons]
    simp only [Nat.add_zero]
    rw [mapIdx_from_succ pre c, String.join_cons, hGc]
    exact Draws.dir hs htail

theorem draws_dirLines {dirs : List Nat} {G : Nat → Nat → String}
    (hG : ∀ pre c post, pre ++ c :: post = dirs → ∃ s, d.Draws t (chain ++ [c]) (d.items t c) s ∧
      G pre.length c = d.line t chain (post.map Item.dir).isEmpty (.dir c) ++ s) :
    d.Draws t chain (dirs.map .dir) (String.join (dirs.mapIdx G)) := by
  simpa only [List.length_nil, Nat.zero_add] using draws_dirLines_from hG [] dirs rfl

/-- A subdirectory's line, as the renderer writes it. -/
theorem line_dir (b : Bool) (s : String) :
    d.line t chain b (.dir c) ++ s =
      d.indent t chain ++ connector b ++ ((t.get? c).map (·.tag)).getD "" ++ "/\n" ++ s := by
  have hlit : ("/\n" : String) = "/" ++ "\n" := by decide
  unfold line Item.text
  rw [hlit]
  simp only [String.append_assoc]

section Shaped

variable (h : t.Shaped)
include h

/-- **A subdirectory's column is blank exactly when it ends its parent's
children.** -/
theorem column_of_split {pre post : List Nat} (hsplit : pre ++ c :: post = t.children p) :
    d.column t c = continuation (post.map Item.dir).isEmpty := by
  have hc : t.parent c = some p := h.mem_children_iff.1 (hsplit ▸ List.mem_append_right pre List.mem_cons_self)
  have hnd : (pre ++ c :: post).Nodup := hsplit ▸ h.nodup_children p
  obtain ⟨x, hx⟩ : ∃ x, (t.children p).getLast? = some x :=
    Option.ne_none_iff_exists'.1 fun hn => by simp [← hsplit] at hn
  -- the last item under `p` is its last child
  have hlast : (d.items t p).getLast? = some (.dir x) := by
    unfold items
    rw [List.getLast?_append, List.getLast?_map, hx]
    rfl
  unfold column
  rw [hc, Option.any_some, hlast]
  congr 1
  rw [Bool.eq_iff_iff, List.isEmpty_iff, List.map_eq_nil_iff, ← getLast?_eq_some_iff_of_nodup hnd, hsplit,
    hx]
  simp

/-- **The renderer draws what is listed under a node**, with the chain's
indentation as its prefix, when its bound reaches past every node below. -/
theorem body_draws (fuel : Nat) : ∀ p n chain, t.get? p = some n → t.size ≤ fuel + n.depth →
    d.Draws t chain (d.items t p) (d.body t fuel p (d.indent t chain)) := by
  induction fuel with
  | zero =>
    intro p n chain hp hle
    have := h.depth_le hp
    have := lt_size_of_get? hp
    omega
  | succ fuel ih =>
    intro p n chain hp hle
    rw [body_succ hp, items_of_get? hp]
    refine draws_fileLines (draws_dirLines fun pre c post hsplit => ?_) fun pre name post hsplit => ?_
    · -- a subdirectory: its line, then its own level one step down the chain
      have hlen : (t.children p).length = pre.length + 1 + post.length := by
        rw [← hsplit, List.length_append, List.length_cons]
        omega
      have hflag : ((d.fileNames n.identifier).length + pre.length + 1 ==
          (d.fileNames n.identifier).length + (t.children p).length) = (post.map Item.dir).isEmpty := by
        rw [Bool.eq_iff_iff, beq_iff_eq, List.isEmpty_iff, List.map_eq_nil_iff, ← List.length_eq_zero_iff]
        omega
      have hcp : t.parent c = some p :=
        h.mem_children_iff.1 (hsplit ▸ List.mem_append_right pre List.mem_cons_self)
      obtain ⟨nc, hnc, -⟩ := get?_of_parent hcp
      have hdepth := h.depth_child hcp hnc hp
      refine ⟨_, ih c nc (chain ++ [c]) hnc (by omega), ?_⟩
      rw [line_dir, hflag, indent_append_singleton, column_of_split h hsplit]
    · -- a file: its line, last when nothing follows it
      have hlen : (d.fileNames n.identifier).length = pre.length + 1 + post.length := by
        rw [← hsplit, List.length_append, List.length_cons]
        omega
      have hflag : (pre.length + 1 == (d.fileNames n.identifier).length + (t.children p).length) =
          (post.map Item.file ++ (t.children p).map Item.dir).isEmpty := by
        rw [Bool.eq_iff_iff, beq_iff_eq, List.isEmpty_iff, List.append_eq_nil_iff, List.map_eq_nil_iff,
          List.map_eq_nil_iff, ← List.length_eq_zero_iff, ← List.length_eq_zero_iff]
        omega
      unfold line
      rw [← hflag]
      rfl

end Shaped

/-- **The drawing encodes the tree.** On every tree a run of inserts builds,
with or without a sequence's files and with or without a label: the
renderer's bound never decides its output (more fuel draws the same), and
the drawing is the label, or the root's tag, then a line break, then exactly
what `Draws` says is drawn for the items listed under the root. -/
theorem render_draws_tree {root : String} (h : t.Reachable root) (d : TreeDrawing) :
    (∀ fuel, t.size ≤ fuel → d.body t fuel 0 "" = d.body t t.size 0 "") ∧
    ∃ n, t.get? 0 = some n ∧
      ∀ s, d.Draws t [] (d.items t 0) s ↔ d.render t = d.label.getD n.tag ++ "\n" ++ s := by
  have hs := h.shaped
  obtain ⟨n, hn, -, hd0⟩ := hs.root
  have hdraw : ∀ fuel, t.size ≤ fuel → d.Draws t [] (d.items t 0) (d.body t fuel 0 "") :=
    fun fuel hf => body_draws hs fuel 0 n [] hn (by omega)
  refine ⟨fun fuel hf => (hdraw fuel hf).unique (hdraw t.size le_rfl), n, hn, fun s => ?_⟩
  have hrender : d.render t = d.label.getD n.tag ++ "\n" ++ d.body t t.size 0 "" := by
    unfold render
    rw [hn]
    rfl
  rw [hrender, String.append_right_inj]
  constructor
  · intro hds
    exact (hdraw t.size le_rfl).unique hds
  · rintro rfl
    exact hdraw t.size le_rfl

end TreeDrawing

/-- The tree of `/robot` with `src`, `src/motors` and `include`, inserted in
that order. -/
def DirTree.robot : DirTree :=
  ((((DirTree.new "/robot").insert 0 "/robot/src").1.insert 1 "/robot/src/motors").1.insert 0
    "/robot/include").1

/-- The drawing labelled `VexCode` with the files of the root and of
`src/motors`. -/
def TreeDrawing.vexCode : TreeDrawing :=
  ⟨some ⟨[⟨"/robot", 0, ["/robot/README.md"]⟩,
    ⟨"/robot/src/motors", 2, ["/robot/src/motors/Motor.hpp", "/robot/src/motors/Motor.cpp"]⟩]⟩,
    some "VexCode"⟩

example : TreeDrawing.vexCode.render DirTree.robot =
    "VexCode\n├── README.md\n├── src/\n│   └── motors/\n│       ├── Motor.hpp\n│       └── Motor.cpp\n└── include/\n" := by
  decide +kernel

/-- The `/robot` tree drawn with files and a label is one the theorem
covers. -/
theorem TreeDrawing.robot_drawing :
    DirTree.robot.Reachable "/robot" ∧
    (∀ fuel, DirTree.robot.size ≤ fuel →
      vexCode.body DirTree.robot fuel 0 "" = vexCode.body DirTree.robot DirTree.robot.size 0 "") ∧
    ∃ n, DirTree.robot.get? 0 = some n ∧
      ∀ s, vexCode.Draws DirTree.robot [] (vexCode.items DirTree.robot 0) s ↔
        vexCode.render DirTree.robot = vexCode.label.getD n.tag ++ "\n" ++ s :=
  have h : DirTree.robot.Reachable "/robot" :=
    .insert 0 "/robot/include" (.insert 1 "/robot/src/motors" (.insert 0 "/robot/src" .new))
  ⟨h, render_draws_tree h vexCode⟩

end ReadingOrder
