/-
The walk over a tree, and the tree read by recursion.

`preorder` lists a tree by recursion: a node comes first, and after it come the lists of
its parts, one level further down.  The walk needs no recursion on the tree, and gives
the same list (`Walk.visit_eq`).  The induction follows the walk, so it is about any
stack of pending trees, of which the walk lists one after the other.

What a walk comes upon is an occurrence of a node, and the same node may occur in many
places.  A place is a path from the root, and `paths` lists the paths of a tree.  They
are in lexicographic order, so no path is listed twice, and the walk comes to the nodes
they lead to one by one.
-/
import Mathlib.Data.List.Basic
import QueryCompiler.Query.Traversal

namespace QueryCompiler.Node

theorem size_le_sizeList {node : Node} {nodes : List Node} (h : node ∈ nodes) :
    node.size ≤ sizeList nodes := by
  induction nodes with
  | nil => cases h
  | cons first rest ih =>
      rw [sizeList]
      rcases List.mem_cons.mp h with rfl | hrest
      · exact Nat.le_add_right _ _
      · exact Nat.le_trans (ih hrest) (Nat.le_add_left _ _)

theorem size_lt_of_mem_children {parent node : Node} (h : node ∈ parent.children) :
    node.size < parent.size := by
  rw [size_eq parent]
  have hle := size_le_sizeList h
  omega

/-! ### Preorder -/

/-- The nodes of a tree with their depths, each one before its parts, and the parts in order. -/
def preorder (node : Node) (depth : Nat) : List (Node × Nat) :=
  (node, depth) :: node.children.attach.flatMap fun child => child.val.preorder (depth + 1)
termination_by node.size
decreasing_by exact size_lt_of_mem_children child.property

theorem preorder_eq (node : Node) (depth : Nat) :
    node.preorder depth =
      (node, depth) :: node.children.flatMap fun child => child.preorder (depth + 1) := by
  rw [preorder]
  congr 1
  simp [List.flatMap_subtype]

theorem mem_preorder_self (node : Node) (depth : Nat) : (node, depth) ∈ node.preorder depth := by
  rw [preorder_eq]
  exact List.mem_cons_self

/-- With a node its parts are listed, one level further down. -/
theorem mem_preorder_of_mem_children {root parent node : Node} {depth level : Nat}
    (hparent : (parent, level) ∈ root.preorder depth) (hnode : node ∈ parent.children) :
    (node, level + 1) ∈ root.preorder depth := by
  rw [preorder_eq] at hparent ⊢
  refine List.mem_cons_of_mem _ (List.mem_flatMap.mpr ?_)
  rcases List.mem_cons.mp hparent with heq | hparts
  · obtain ⟨rfl, rfl⟩ := Prod.mk.inj heq
    exact ⟨node, hnode, mem_preorder_self node _⟩
  · obtain ⟨child, hchild, hin⟩ := List.mem_flatMap.mp hparts
    exact ⟨child, hchild, mem_preorder_of_mem_children hin hnode⟩
termination_by root.size
decreasing_by exact size_lt_of_mem_children hchild

namespace Walk

theorem visit_of_none {walk : Walk} {visited : Array (Node × Nat)} (h : walk.next? = none) :
    walk.visit visited = visited := by
  rw [visit]
  split
  · rfl
  · rename_i hsome
    cases h.symm.trans hsome

theorem visit_of_some {walk after : Walk} {entry : Node × Nat} {visited : Array (Node × Nat)}
    (h : walk.next? = some (entry, after)) :
    walk.visit visited = after.visit (visited.push entry) := by
  rw [visit]
  split
  · rename_i hnone
    cases hnone.symm.trans h
  · rename_i hsome
    obtain ⟨rfl, rfl⟩ := Prod.mk.inj (Option.some.inj (hsome.symm.trans h))
    rfl

theorem findSome?_of_none {α : Type} {answer : Node → Nat → Option α} {walk : Walk}
    (h : walk.next? = none) : walk.findSome? answer = none := by
  rw [findSome?]
  split
  · rfl
  · rename_i hsome
    cases h.symm.trans hsome

theorem findSome?_of_some {α : Type} {answer : Node → Nat → Option α} {walk after : Walk}
    {node : Node} {depth : Nat} (h : walk.next? = some ((node, depth), after)) :
    walk.findSome? answer = (answer node depth).or (after.findSome? answer) := by
  rw [findSome?]
  split
  · rename_i hnone
    cases hnone.symm.trans h
  · rename_i hsome
    obtain ⟨⟨rfl, rfl⟩, rfl⟩ : (_ ∧ _) ∧ _ := by simpa using hsome.symm.trans h
    cases answer _ _ <;> rfl

/-- **What is pending is visited tree by tree, each of them in preorder.** -/
theorem visit_eq (walk : Walk) (visited : Array (Node × Nat)) :
    walk.visit visited =
      visited ++ (walk.pending.flatMap fun entry => entry.1.preorder entry.2).toArray := by
  induction walk, visited using visit.induct with
  | case1 walk visited hnone =>
      rw [visit_of_none hnone, pending_of_none hnone]
      simp
  | case2 walk visited entry after hsome ih =>
      obtain ⟨rest, hpending, hafter⟩ := pending_of_some hsome
      rw [visit_of_some hsome, ih, hpending, hafter, Pending.descend, List.flatMap_append,
        List.flatMap_map, List.flatMap_cons, preorder_eq]
      simp

/-- **The walk asks the nodes in preorder.** -/
theorem findSome?_preorder {α : Type} (answer : Node → Nat → Option α) (walk : Walk) :
    walk.findSome? answer =
      (walk.pending.flatMap fun entry => entry.1.preorder entry.2).findSome?
        fun entry => answer entry.1 entry.2 := by
  induction walk using findSome?.induct answer with
  | case1 walk hnone =>
      rw [findSome?_of_none hnone, pending_of_none hnone]
      rfl
  | case2 walk node depth after hsome found hfound =>
      obtain ⟨rest, hpending, -⟩ := pending_of_some hsome
      rw [findSome?_of_some hsome, hfound, hpending, List.flatMap_cons, preorder_eq,
        List.cons_append, List.findSome?_cons, hfound, Option.some_or]
  | case3 walk node depth after hsome hnone ih =>
      obtain ⟨rest, hpending, hafter⟩ := pending_of_some hsome
      rw [findSome?_of_some hsome, hnone, hpending, List.flatMap_cons, preorder_eq,
        List.cons_append, List.findSome?_cons, hnone, Option.none_or, ih, hafter,
        Pending.descend, List.flatMap_append, List.flatMap_map]

/-- What is found in a tree is the first answer in preorder. -/
theorem findSome?_start {α : Type} (answer : Node → Nat → Option α) (root : Node) :
    (start root).findSome? answer =
      (root.preorder 1).findSome? fun entry => answer entry.1 entry.2 := by
  rw [findSome?_preorder]
  exact congrArg _ (List.flatMap_singleton ..)

end Walk

theorem walk_toList (root : Node) : root.walk.toList = root.preorder 1 := by
  rw [walk, Walk.visit_eq]
  simp [Walk.start, Walk.pending]

/-! ### How many nodes, and how deep -/

theorem length_preorder (node : Node) (depth : Nat) :
    (node.preorder depth).length = node.size := by
  have hparts : ∀ nodes : List Node, (∀ child ∈ nodes, child ∈ node.children) →
      (nodes.flatMap fun child => child.preorder (depth + 1)).length = sizeList nodes := by
    intro nodes hnodes
    induction nodes with
    | nil => rfl
    | cons child rest ih =>
        have hchild : child ∈ node.children := hnodes child List.mem_cons_self
        have hlength := length_preorder child (depth + 1)
        have hrest := ih fun other hother => hnodes other (List.mem_cons_of_mem _ hother)
        rw [List.flatMap_cons, List.length_append, hlength, hrest, sizeList]
  rw [preorder_eq, List.length_cons, hparts node.children fun _ hchild => hchild, size_eq,
    Nat.add_comm]
termination_by node.size
decreasing_by exact size_lt_of_mem_children hchild

/-- How many levels a tree has. -/
def height (node : Node) : Nat :=
  1 + ((node.children.attach.map fun child => child.val.height).max?).getD 0
termination_by node.size
decreasing_by exact size_lt_of_mem_children child.property

theorem height_eq (node : Node) :
    node.height = 1 + ((node.children.map height).max?).getD 0 := by
  rw [height]
  simp

/-- No node is further down than the tree is high. -/
theorem depth_le_height (node : Node) (depth : Nat) :
    ∀ entry ∈ node.preorder (depth + 1), entry.2 ≤ depth + node.height := by
  intro entry hentry
  rw [preorder_eq] at hentry
  rcases List.mem_cons.mp hentry with rfl | hparts
  · rw [height_eq]
    omega
  · obtain ⟨child, hchild, hin⟩ := List.mem_flatMap.mp hparts
    have hle := depth_le_height child (depth + 1) entry hin
    have hmax : child.height ≤ ((node.children.map height).max?).getD 0 :=
      List.le_max?_getD_of_mem (List.mem_map_of_mem hchild)
    rw [height_eq]
    omega
termination_by node.size
decreasing_by exact size_lt_of_mem_children hchild

/-- Some node is as far down as the tree is high. -/
theorem exists_deepest (node : Node) (depth : Nat) :
    ∃ entry ∈ node.preorder (depth + 1), entry.2 = depth + node.height := by
  rw [preorder_eq, height_eq]
  cases hmax : (node.children.map height).max? with
  | none => exact ⟨(node, depth + 1), List.mem_cons_self, rfl⟩
  | some greatest =>
      obtain ⟨child, hchild, rfl⟩ := List.mem_map.mp (List.max?_mem hmax)
      obtain ⟨entry, hentry, hdepth⟩ := exists_deepest child (depth + 1)
      refine ⟨entry, ?_, ?_⟩
      · exact List.mem_cons_of_mem _ (List.mem_flatMap.mpr ⟨child, hchild, hentry⟩)
      · rw [hdepth, Option.getD_some]
        omega
termination_by node.size
decreasing_by exact size_lt_of_mem_children hchild

theorem max?_depth_preorder (root : Node) :
    ((root.preorder 1).map Prod.snd).max? = some root.height := by
  rw [List.max?_eq_some_iff]
  constructor
  · obtain ⟨entry, hentry, hdepth⟩ := root.exists_deepest 0
    rw [Nat.zero_add] at hdepth
    rw [← hdepth]
    exact List.mem_map_of_mem hentry
  · intro depth hdepth
    obtain ⟨entry, hentry, rfl⟩ := List.mem_map.mp hdepth
    have hle := root.depth_le_height 0 entry hentry
    omega

/-! ### Occurrences -/

/-- The node that a path leads to.  A path says of every level to which part it goes. -/
def nodeAt? (node : Node) : List Nat → Option Node
  | [] => some node
  | part :: path => node.children[part]?.bind fun child => child.nodeAt? path

/-- The paths of a tree, in the order of the nodes they lead to. -/
def paths (node : Node) : List (List Nat) :=
  [] :: node.children.attach.zipIdx.flatMap fun entry => entry.1.val.paths.map (entry.2 :: ·)
termination_by node.size
decreasing_by exact size_lt_of_mem_children entry.1.property

theorem paths_eq (node : Node) :
    node.paths =
      [] :: node.children.zipIdx.flatMap fun entry => entry.1.paths.map (entry.2 :: ·) := by
  have hparts : node.children.zipIdx =
      node.children.attach.zipIdx.map fun entry => (entry.1.val, entry.2) := by
    conv_lhs => rw [← List.attach_map_subtype_val node.children, List.zipIdx_map]
    rfl
  rw [paths, hparts, List.flatMap_map]

/-- **Every path that leads to a node is listed,** and no other. -/
theorem mem_paths (node : Node) (path : List Nat) :
    path ∈ node.paths ↔ (node.nodeAt? path).isSome = true := by
  induction path generalizing node with
  | nil =>
      rw [paths_eq]
      simp [nodeAt?]
  | cons part rest ih =>
      have hpart : part :: rest ∈ node.paths ↔
          ∃ child, node.children[part]? = some child ∧ rest ∈ child.paths := by
        rw [paths_eq]
        simp [List.mem_zipIdx_iff_getElem?]
      rw [hpart, nodeAt?]
      cases node.children[part]? with
      | none => simp
      | some child => simpa using ih child

/-- **Paths are listed in lexicographic order,** so none of them twice. -/
theorem pairwise_paths (node : Node) : node.paths.Pairwise (· < ·) := by
  rw [paths_eq, List.pairwise_cons]
  constructor
  · intro path hpath
    obtain ⟨entry, -, hin⟩ := List.mem_flatMap.mp hpath
    obtain ⟨rest, -, rfl⟩ := List.mem_map.mp hin
    exact List.nil_lt_cons _ _
  · rw [List.pairwise_flatMap]
    constructor
    · rintro ⟨child, part⟩ hentry
      have hchild : child ∈ node.children := List.fst_mem_of_mem_zipIdx hentry
      rw [List.pairwise_map]
      refine (pairwise_paths child).imp ?_
      intro a b hab
      exact List.cons_lt_cons_iff.mpr (.inr ⟨rfl, hab⟩)
    · have hparts : node.children.zipIdx.Pairwise fun a b => a.2 < b.2 := by
        rw [← List.pairwise_map (f := Prod.snd), List.zipIdx_map_snd]
        exact List.pairwise_lt_range'
      refine hparts.imp ?_
      intro a b hab path hpath path' hpath'
      obtain ⟨rest, -, rfl⟩ := List.mem_map.mp hpath
      obtain ⟨rest', -, rfl⟩ := List.mem_map.mp hpath'
      exact List.cons_lt_cons_iff.mpr (.inl hab)
termination_by node.size
decreasing_by exact size_lt_of_mem_children hchild

/-- Preorder lists the nodes that the paths lead to, each as deep as its path is long. -/
theorem preorder_paths (node : Node) (depth : Nat) :
    (node.preorder depth).map some =
      node.paths.map fun path =>
        (node.nodeAt? path).map fun found => (found, depth + path.length) := by
  rw [preorder_eq, paths_eq, List.map_cons, List.map_cons, List.map_flatMap, List.map_flatMap]
  congr 1
  have hparts : node.children = node.children.zipIdx.map Prod.fst := (List.zipIdx_map_fst ..).symm
  conv_lhs => rw [hparts, List.flatMap_map]
  refine List.flatMap_congr ?_
  rintro ⟨child, part⟩ hentry
  have hat : node.children[part]? = some child := List.mem_zipIdx_iff_getElem?.mp hentry
  have hchild : child ∈ node.children := List.mem_of_getElem? hat
  rw [preorder_paths child (depth + 1), List.map_map]
  refine List.map_congr_left ?_
  intro path _
  have hdepth : depth + 1 + path.length = depth + (part :: path).length := by
    rw [List.length_cons]
    omega
  simp only [Function.comp_apply, nodeAt?, hat, Option.bind_some, hdepth]
termination_by node.size
decreasing_by exact size_lt_of_mem_children hchild

/-- **The walk is the tree in preorder.**  It has as many entries as the tree has nodes, its greatest
depth is the height of the tree, and it comes to every occurrence of a node once: its entries are
the nodes at the paths of the tree, in lexicographic order. -/
theorem walk_lists_preorder (root : Node) :
    root.walk.toList = root.preorder 1 ∧
      root.walk.size = root.size ∧
      (root.walk.toList.map Prod.snd).max? = some root.height ∧
      root.walk.toList.map some =
        root.paths.map (fun path =>
          (root.nodeAt? path).map fun node => (node, 1 + path.length)) ∧
      root.paths.Pairwise (· < ·) ∧
      ∀ path, path ∈ root.paths ↔ (root.nodeAt? path).isSome = true := by
  refine ⟨root.walk_toList, ?_, ?_, ?_, root.pairwise_paths, root.mem_paths⟩
  · rw [← Array.length_toList, walk_toList, length_preorder]
  · rw [walk_toList, max?_depth_preorder]
  · rw [walk_toList, preorder_paths]

end QueryCompiler.Node
