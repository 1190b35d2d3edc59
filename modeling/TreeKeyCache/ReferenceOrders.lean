import TreeKeyCache.WorkingLists
import TreeKeyCache.Materialised

/-! # The reference orders of the traversals

The orders are defined by recursion on the tree, without a list to work through; each
traversal lists the nodes in its reference order. -/
set_option autoImplicit false
namespace TreeKeyCache

variable {R : Type}

/-- A node of a child, seen from its parent. -/
def below (key : String) (node : List String × Tree R) : List String × Tree R :=
  (key :: node.1, node.2)

namespace Tree

mutual
/-- A node, then what is below it, the last child first. -/
def preOrder : Tree R → List (List String × Tree R)
  | mk v d none => [([], mk v d none)]
  | mk v d (some entries) => ([], mk v d (some entries)) :: preOrderEntries entries

def preOrderEntries : TreeChildren R → List (List String × Tree R)
  | [] => []
  | (_, none) :: rest => preOrderEntries rest
  | (key, some tree) :: rest => preOrderEntries rest ++ tree.preOrder.map (below key)
end

mutual
/-- What is below a node, the first child first, then the node. -/
def postOrder : Tree R → List (List String × Tree R)
  | mk v d none => [([], mk v d none)]
  | mk v d (some entries) => postOrderChildren entries ++ [([], mk v d (some entries))]

def postOrderChildren : TreeChildren R → List (List String × Tree R)
  | [] => []
  | (_, none) :: rest => postOrderChildren rest
  | (key, some tree) :: rest => tree.postOrder.map (below key) ++ postOrderChildren rest
end

/-- The nodes of one level, those below the first child first. -/
def level : Nat → Tree R → List (List String × Tree R)
  | 0, tree => [([], tree)]
  | n + 1, tree => tree.kids.flatMap fun (key, child) => (level n child).map (below key)

def levelOrder (tree : Tree R) : List (List String × Tree R) :=
  (List.range (tree.height + 1)).flatMap fun n => level n tree

theorem preOrderEntries_eq : ∀ entries : TreeChildren R,
    preOrderEntries entries = (entries.filterMap fun (key, child) =>
      child.map fun tree => (key, tree)).reverse.flatMap fun (key, tree) =>
        tree.preOrder.map (below key) := by
  intro entries
  induction entries with
  | nil => rfl
  | cons first rest ih =>
      obtain ⟨key, child⟩ := first
      cases child with
      | none => exact ih
      | some tree =>
          rw [preOrderEntries, ih, List.filterMap_cons]
          simp only [Option.map_some, List.reverse_cons, List.flatMap_append, List.flatMap_singleton]

theorem preOrder_eq (tree : Tree R) : tree.preOrder =
    ([], tree) :: tree.kids.reverse.flatMap fun (key, child) => child.preOrder.map (below key) := by
  obtain ⟨v, d, children⟩ := tree
  cases children with
  | none => rw [preOrder]; rfl
  | some entries => rw [preOrder, preOrderEntries_eq]; rfl

theorem postOrderChildren_eq : ∀ entries : TreeChildren R,
    postOrderChildren entries = (entries.filterMap fun (key, child) =>
      child.map fun tree => (key, tree)).flatMap fun (key, tree) =>
        tree.postOrder.map (below key) := by
  intro entries
  induction entries with
  | nil => rfl
  | cons first rest ih =>
      obtain ⟨key, child⟩ := first
      cases child with
      | none => exact ih
      | some tree => exact congrArg (tree.postOrder.map (below key) ++ ·) ih

theorem postOrder_eq (tree : Tree R) : tree.postOrder =
    (tree.kids.flatMap fun (key, child) => child.postOrder.map (below key)) ++ [([], tree)] := by
  obtain ⟨v, d, children⟩ := tree
  cases children with
  | none => rw [postOrder]; rfl
  | some entries => rw [postOrder, postOrderChildren_eq]; rfl

end Tree

/-! ## Paths -/

/-- A node below `base`. -/
def under (base : List String) (node : List String × Tree R) : List String × Tree R :=
  (base ++ node.1, node.2)

theorem under_below (base : List String) (key : String) (node : List String × Tree R) :
    under base (below key node) = under (base ++ [key]) node := by
  rw [under, under, below, List.append_assoc, List.singleton_append]

theorem map_under_below (base : List String) (key : String) (nodes : List (List String × Tree R)) :
    (nodes.map (below key)).map (under base) = nodes.map (under (base ++ [key])) := by
  rw [List.map_map]
  apply List.map_congr_left
  intro node _
  exact under_below base key node

theorem map_under_nil (nodes : List (List String × Tree R)) : nodes.map (under []) = nodes := by
  apply List.map_id'

theorem depthFirst_preOrder : ∀ (depth : Nat) (base : List String) (tree : Tree R),
    tree.size ≤ depth →
      Worklist.depthFirst nextNodes depth (base, tree) = tree.preOrder.map (under base) := by
  intro depth
  induction depth with
  | zero =>
      intro base tree enough
      have positive := size_pos tree
      omega
  | succ depth ih =>
      intro base tree enough
      rw [Worklist.depthFirst, Tree.preOrder_eq, List.map_cons, List.map_flatMap, nextNodes,
        ← List.map_reverse, List.flatMap_map]
      congr 1
      · rw [under, List.append_nil]
      · apply List.flatMap_congr
        intro kid listed
        have smaller : kid.2.size < tree.size := size_kid (List.mem_reverse.mp listed)
        rw [map_under_below]
        exact ih (base ++ [kid.1]) kid.2 (by omega)

theorem listing_preOrder (base : List String) (tree : Tree R) :
    listing .lifo base tree = tree.preOrder.map (under base) := by
  rw [listing_lifo]
  exact depthFirst_preOrder tree.size base tree (le_refl _)

theorem level_nextNodes : ∀ (n : Nat) (nodes : List (List String × Tree R)),
    Worklist.level nextNodes n nodes = nodes.flatMap fun node => (node.2.level n).map (under node.1) := by
  intro n
  induction n with
  | zero =>
      intro nodes
      have alone : ∀ node ∈ nodes, (node.2.level 0).map (under node.1) = [node] := by
        intro node _
        rw [Tree.level, List.map_singleton, under, List.append_nil]
      rw [Worklist.level, List.flatMap_congr alone, List.flatMap_singleton']
  | succ n ih =>
      intro nodes
      rw [Worklist.level, ih, List.flatMap_assoc]
      apply List.flatMap_congr
      intro node _
      rw [nextNodes, List.flatMap_map, Tree.level, List.map_flatMap]
      apply List.flatMap_congr
      intro kid _
      rw [map_under_below]

theorem Tree.level_eq_nil : ∀ (n : Nat) (tree : Tree R), tree.height < n → tree.level n = [] := by
  intro n
  induction n with
  | zero => exact fun tree lower => absurd lower (Nat.not_lt_zero _)
  | succ n ih =>
      intro tree lower
      rw [Tree.level, List.flatMap_eq_nil_iff]
      intro kid listed
      have shorter : kid.2.height < tree.height := Tree.height_kid listed
      change (kid.2.level n).map (below kid.1) = []
      rw [ih kid.2 (by omega), List.map_nil]

theorem listing_levelOrder (base : List String) (tree : Tree R) :
    listing .fifo base tree = tree.levelOrder.map (under base) := by
  have levels : ∀ n, Worklist.level nextNodes n [(base, tree)] = (tree.level n).map (under base) := by
    intro n
    rw [level_nextNodes, List.flatMap_singleton]
  rw [listing, Worklist.visit_fifo_levels nextNodes (fun node => node.2.size) nextNodes_heavier
    (tree.height + 1), Tree.levelOrder, List.map_flatMap]
  · apply List.flatMap_congr
    intro n _
    exact levels n
  · rw [List.map_singleton, List.sum_singleton]
  · rw [levels, Tree.level_eq_nil _ tree (Nat.lt_succ_self _), List.map_nil]

/-! ## References below a root reference -/

def rootLevel (root : Option ChainedObject) : Nat := (root.map ChainedObject.level).getD 0

/-- The reference of a node, linked up to the root reference. -/
def refFrom (root : Option ChainedObject) : List String → Option ChainedObject
  | [] => root
  | key :: rest => refFrom (some (.ofParent key (rootLevel root + 1) root)) rest

/-- The item of a node; without a root reference the root has none. -/
def itemFrom (now : ℚ) (root : Option ChainedObject) (node : List String × Tree R) :
    Option (TraversalItem R) :=
  (refFrom root node.1).map fun ref => ⟨ref, getTreeCurrentSerializedValue node.2 now, node.2⟩

theorem refFrom_append : ∀ (root : Option ChainedObject) (p q : List String),
    refFrom root (p ++ q) = refFrom (refFrom root p) q := by
  intro root p
  induction p generalizing root with
  | nil => exact fun _ => rfl
  | cons key p ih => exact fun q => ih _ q

theorem rootLevel_refFrom (root : Option ChainedObject) (p : List String) :
    rootLevel (refFrom root p) = rootLevel root + p.length := by
  induction p generalizing root with
  | nil => rfl
  | cons key p ih =>
      rw [refFrom, ih, rootLevel, Option.map_some, ChainedObject.level_ofParent, Option.getD_some,
        List.length_cons]
      omega

theorem refFrom_concat (root : Option ChainedObject) (front : List String) (key : String) :
    refFrom root (front ++ [key]) =
      some (.ofParent key (rootLevel root + (front.length + 1)) (refFrom root front)) := by
  rw [refFrom_append, refFrom, refFrom, rootLevel_refFrom, Nat.add_assoc]

/-- The entry of the worklist for a node. -/
def entryFrom (root : Option ChainedObject) (node : List String × Tree R) : Pending R :=
  ⟨node.2, rootLevel root + node.1.length, node.1.getLast?, refFrom root node.1.dropLast⟩

theorem entryFrom_node (root : Option ChainedObject) (p : List String) (tree : Tree R) :
    (entryFrom root (p, tree)).node = refFrom root p := by
  induction p using List.reverseRecOn with
  | nil => rfl
  | append_singleton front key _ =>
      rw [entryFrom, Pending.node]
      simp only [List.getLast?_concat, List.dropLast_concat, List.length_append, List.length_singleton]
      rw [refFrom_concat]

theorem entryFrom_next (root : Option ChainedObject) (node : List String × Tree R) :
    (entryFrom root node).next = (nextNodes node).map (entryFrom root) := by
  rw [Pending.next_eq, nextNodes, List.map_map]
  apply List.map_congr_left
  intro found _
  rw [entryFrom_node, Function.comp_apply, entryFrom]
  simp only [entryFrom, List.getLast?_concat, List.dropLast_concat, List.length_append,
    List.length_singleton, Nat.add_assoc]

theorem entryFrom_item (now : ℚ) (root : Option ChainedObject) (p : List String) (tree : Tree R)
    (nonempty : p ≠ []) : (entryFrom root (p, tree)).item now = itemFrom now root (p, tree) := by
  obtain ⟨front, key, rfl⟩ := exists_append_singleton p nonempty
  rw [entryFrom, Pending.item, itemFrom]
  simp only [List.getLast?_concat, List.dropLast_concat, List.length_append, List.length_singleton]
  rw [refFrom_concat]
  rfl

theorem treePreOrderTraversal_listing (order : Worklist.Order) (now : ℚ) (tree : Tree R)
    (root : Option ChainedObject) : treePreOrderTraversal order now tree root =
      (listing order [] tree).filterMap (itemFrom now root) := by
  obtain ⟨rest, listed, long, _⟩ := listing_cons order [] tree
  have visited := Worklist.visit_map order nextNodes Pending.next (entryFrom root) (fun _ => True)
    (fun _ _ _ _ => trivial) (fun node _ => entryFrom_next root node) tree.size [([], tree)]
    fun _ _ => trivial
  have items : (rest.map (entryFrom root)).filterMap (Pending.item now) =
      rest.filterMap (itemFrom now root) := by
    rw [List.filterMap_map]
    apply List.filterMap_congr
    intro node member
    apply entryFrom_item
    intro none
    have longer := long node member
    rw [none] at longer
    exact Nat.lt_irrefl _ longer
  have first : (root.map fun ref => createTraversalItem ref.key ref.level ref.parentRef tree now) =
      itemFrom now root ([], tree) := by
    cases root with
    | none => rfl
    | some ref => cases ref <;> rfl
  change Worklist.visit order Pending.next tree.size [startEntry tree root] =
    (listing order [] tree).map (entryFrom root) at visited
  rw [treePreOrderTraversal, visited, listed, List.map_cons, List.filterMap_cons, List.filterMap_cons,
    items, first]
  cases itemFrom now root ([], tree) <;> rfl

/-! ## The post-order -/

theorem treePostOrderTraversalRecursive_postOrder (now : ℚ) : ∀ (size : Nat) (tree : Tree R)
    (parentRef : Option ChainedObject) (key : String), tree.size ≤ size →
      treePostOrderTraversalRecursive now tree parentRef (some key) =
        tree.postOrder.filterMap (itemFrom now (refFrom parentRef [key])) := by
  intro size
  induction size with
  | zero =>
      intro tree parentRef key enough
      have positive := size_pos tree
      omega
  | succ size ih =>
      intro tree parentRef key enough
      rw [treePostOrderTraversalRecursive_eq, Tree.postOrder_eq, List.filterMap_append,
        List.filterMap_flatMap]
      congr 1
      · apply List.flatMap_congr
        intro kid listed
        have smaller : kid.2.size < tree.size := size_kid listed
        change treePostOrderTraversalRecursive now kid.2 (refFrom parentRef [key]) (some kid.1) =
          (kid.2.postOrder.map (below kid.1)).filterMap (itemFrom now (refFrom parentRef [key]))
        rw [List.filterMap_map, ih kid.2 _ _ (by omega)]
        rfl

theorem treePostOrderTraversal_postOrder (now : ℚ) (tree : Tree R) (root : Option ChainedObject) :
    treePostOrderTraversal now tree root = tree.postOrder.filterMap (itemFrom now root) := by
  have last : (root.map fun ref => createTraversalItem ref.key ref.level ref.parentRef tree now).toList =
      [([], tree)].filterMap (itemFrom now root) := by
    cases root with
    | none => rfl
    | some ref => cases ref <;> rfl
  rw [treePostOrderTraversal, treePostOrderTraversalRecursive_eq, Tree.postOrder_eq,
    List.filterMap_append, List.filterMap_flatMap, last]
  congr 1
  have none : (postOrderRef root none).map (fun ref =>
      (⟨ref, getTreeCurrentSerializedValue tree now, tree⟩ : TraversalItem R)) = none := rfl
  rw [none, Option.toList_none, List.append_nil]
  apply List.flatMap_congr
  intro kid _
  change treePostOrderTraversalRecursive now kid.2 root (some kid.1) =
    (kid.2.postOrder.map (below kid.1)).filterMap (itemFrom now root)
  rw [List.filterMap_map, treePostOrderTraversalRecursive_postOrder now kid.2.size kid.2 root kid.1
    (le_refl _)]
  rfl

/-! ## Every node once -/

/-- The nodes of the tree, each listed once. -/
structure Enumerates (tree : Tree R) (nodes : List (List String × Tree R)) : Prop where
  distinct : (nodes.map Prod.fst).Nodup
  complete : ∀ p node, (p, node) ∈ nodes ↔ tree.sub p = some node

theorem enumerates_listing (order : Worklist.Order) {tree : Tree R} (wellFormed : tree.wellFormed = true) :
    Enumerates tree (listing order [] tree) := by
  refine ⟨listing_nodup order [] tree wellFormed, ?_⟩
  intro p node
  rw [mem_listing order [] tree wellFormed]
  constructor
  · rintro ⟨q, rfl, found⟩
    exact found
  · intro found
    exact ⟨p, rfl, found⟩

theorem Enumerates.perm {tree : Tree R} {nodes other : List (List String × Tree R)}
    (enumerates : Enumerates tree nodes) (perm : nodes.Perm other) : Enumerates tree other := by
  refine ⟨(perm.map Prod.fst).nodup_iff.mp enumerates.distinct, ?_⟩
  intro p node
  rw [← perm.mem_iff]
  exact enumerates.complete p node

theorem preOrder_perm_postOrder : ∀ (size : Nat) (tree : Tree R), tree.size ≤ size →
    tree.preOrder.Perm tree.postOrder := by
  intro size
  induction size with
  | zero =>
      intro tree enough
      have positive := size_pos tree
      omega
  | succ size ih =>
      intro tree enough
      rw [Tree.preOrder_eq, Tree.postOrder_eq]
      refine List.Perm.trans ?_ (List.perm_append_singleton _ _).symm
      refine List.Perm.cons _ (List.Perm.trans ((List.reverse_perm tree.kids).flatMap_right _) ?_)
      apply List.Perm.flatMap_left
      intro kid listed
      have smaller : kid.2.size < tree.size := size_kid listed
      exact (ih kid.2 (by omega)).map _

theorem enumerates_orders {tree : Tree R} (wellFormed : tree.wellFormed = true) :
    Enumerates tree tree.preOrder ∧ Enumerates tree tree.levelOrder ∧
      Enumerates tree tree.postOrder := by
  have stack := enumerates_listing .lifo wellFormed
  have queue := enumerates_listing .fifo wellFormed
  rw [listing_preOrder, map_under_nil] at stack
  rw [listing_levelOrder, map_under_nil] at queue
  exact ⟨stack, queue, stack.perm (preOrder_perm_postOrder tree.size tree (le_refl _))⟩

theorem root_in_orders (tree : Tree R) : tree.preOrder.head? = some ([], tree) ∧
    tree.levelOrder.head? = some ([], tree) ∧ tree.postOrder.getLast? = some ([], tree) := by
  refine ⟨?_, ?_, ?_⟩
  · rw [Tree.preOrder_eq, List.head?_cons]
  · rw [Tree.levelOrder, List.range_succ_eq_map, List.flatMap_cons, Tree.level]
    rfl
  · rw [Tree.postOrder_eq, List.getLast?_concat]

/-- The item of a node below the root: its key, its level, its parent and its value. -/
theorem itemFrom_concat (now : ℚ) (root : Option ChainedObject) (front : List String) (key : String)
    (node : Tree R) :
    ∃ item, itemFrom now root (front ++ [key], node) = some item ∧ item.treeRef = node ∧
      item.ref.key = key ∧ item.ref.level = rootLevel root + (front.length + 1) ∧
      item.ref.parentRef = refFrom root front ∧
      item.value = if node.deadline.all (fun d => d = 0 ∨ now < d) then node.value else none := by
  have value : getTreeCurrentSerializedValue node now =
      if node.deadline.all (fun d => d = 0 ∨ now < d) then node.value else none := by
    rw [getTreeCurrentSerializedValue]
    cases node.deadline with
    | none => rfl
    | some d => simp
  refine ⟨⟨.ofParent key (rootLevel root + (front.length + 1)) (refFrom root front),
    getTreeCurrentSerializedValue node now, node⟩, ?_, rfl, ChainedObject.key_ofParent _ _ _,
    ChainedObject.level_ofParent _ _ _, ?_, value⟩
  · rw [itemFrom]
    simp only [refFrom_concat, Option.map_some]
  · cases refFrom root front <;> rfl

/-- Each traversal lists the nodes in its reference order. -/
theorem traversals_reference_orders (now : ℚ) (tree : Tree R) (root : Option ChainedObject) :
    treePreOrderDepthFirstSearch now tree root = tree.preOrder.filterMap (itemFrom now root) ∧
    treePreOrderBreadthFirstSearch now tree root = tree.levelOrder.filterMap (itemFrom now root) ∧
    treePostOrderDepthFirstSearch now tree root = tree.postOrder.filterMap (itemFrom now root) ∧
    treePostOrderBreadthFirstSearch now tree root = tree.postOrder.filterMap (itemFrom now root) ∧
    treePreOrderTraversalOver arrayList [] now tree root =
      some ⟨treePreOrderDepthFirstSearch now tree root, none⟩ ∧
    treePreOrderTraversalOver Queue.simpleList Queue.new now tree root =
      some ⟨treePreOrderBreadthFirstSearch now tree root, none⟩ ∧
    (tree.wellFormed = true → Enumerates tree tree.preOrder ∧ Enumerates tree tree.levelOrder ∧
      Enumerates tree tree.postOrder) ∧
    (tree.preOrder.head? = some ([], tree) ∧ tree.levelOrder.head? = some ([], tree) ∧
      tree.postOrder.getLast? = some ([], tree)) ∧
    itemFrom now root ([], tree) =
      root.map (fun ref => ⟨ref, getTreeCurrentSerializedValue tree now, tree⟩) ∧
    ∀ (front : List String) (key : String) (node : Tree R), ∃ item,
      itemFrom now root (front ++ [key], node) = some item ∧
      item.treeRef = node ∧ item.ref.key = key ∧
      item.ref.level = rootLevel root + (front.length + 1) ∧
      item.ref.parentRef = refFrom root front ∧
      item.value = if node.deadline.all (fun d => d = 0 ∨ now < d) then node.value else none := by
  refine ⟨?_, ?_, treePostOrderTraversal_postOrder now tree root,
    treePostOrderTraversal_postOrder now tree root,
    treePreOrderTraversalOver_eq arrayList_keeps [] rfl now tree root,
    treePreOrderTraversalOver_eq Queue.keeps Queue.new Queue.holds_new now tree root,
    enumerates_orders, root_in_orders tree, rfl, itemFrom_concat now root⟩
  · rw [treePreOrderDepthFirstSearch, treePreOrderTraversal_listing, listing_preOrder, map_under_nil]
  · rw [treePreOrderBreadthFirstSearch, treePreOrderTraversal_listing, listing_levelOrder,
      map_under_nil]

/-- A node with the deadline 0 keeps its value. -/
theorem zero_deadline_yielded :
    ¬ ∀ item ∈ treePreOrderDepthFirstSearch 5 (.mk (some "x") (some 0) none) (some (.top "a" 1)),
      item.value = if item.treeRef.deadline.all (fun d => 5 < d) then item.treeRef.value else none := by
  intro all
  have value := all ⟨.top "a" 1, some "x", .mk (some "x") (some 0) none⟩ List.mem_cons_self
  revert value
  decide +kernel

end TreeKeyCache
