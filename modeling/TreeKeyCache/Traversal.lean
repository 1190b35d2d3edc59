import TreeKeyCache.Read
import TreeKeyCache.Lib.Worklist

/-! # Pre-order traversals of a tree

`treePreOrderTraversal` (`utils/graphs/`) works through a list of subtrees: a queue gives
the breadth first search, a stack the depth first search.  The tree is not written to
while it is traversed, so the items are listed at once. -/
set_option autoImplicit false
namespace TreeKeyCache

variable {R : Type}

namespace Tree

mutual
/-- The number of nodes, the root included. -/
def size : Tree R → Nat
  | mk _ _ none => 1
  | mk _ _ (some entries) => 1 + sizeEntries entries

def sizeEntries : TreeChildren R → Nat
  | [] => 0
  | (_, none) :: rest => sizeEntries rest
  | (_, some tree) :: rest => tree.size + sizeEntries rest
end

mutual
/-- The number of levels below the root. -/
def height : Tree R → Nat
  | mk _ _ none => 0
  | mk _ _ (some entries) => heightEntries entries

def heightEntries : TreeChildren R → Nat
  | [] => 0
  | (_, none) :: rest => heightEntries rest
  | (_, some tree) :: rest => max (tree.height + 1) (heightEntries rest)
end

theorem heightEntries_mem {key : String} {child : Tree R} : ∀ {entries : TreeChildren R},
    (key, some child) ∈ entries → child.height < heightEntries entries := by
  intro entries
  induction entries with
  | nil =>
      intro member
      cases member
  | cons first rest ih =>
      intro member
      obtain ⟨key', child'⟩ := first
      rcases List.mem_cons.mp member with same | later
      · cases same
        rw [heightEntries]
        omega
      · have below := ih later
        cases child' with
        | none => exact below
        | some other =>
            rw [heightEntries]
            omega

theorem height_child {tree : Tree R} {key : String} {child : Tree R}
    (listed : (key, some child) ∈ tree.children.getD []) : child.height < tree.height := by
  obtain ⟨v, d, children⟩ := tree
  cases children with
  | none => cases listed
  | some entries => exact heightEntries_mem listed

mutual
/-- Every key on the way to a node passes the test. -/
def allKeys (test : String → Bool) : Tree R → Bool
  | mk _ _ none => true
  | mk _ _ (some entries) => allKeysEntries test entries

def allKeysEntries (test : String → Bool) : TreeChildren R → Bool
  | [] => true
  | (_, none) :: rest => allKeysEntries test rest
  | (key, some tree) :: rest => test key && tree.allKeys test && allKeysEntries test rest
end

theorem allKeysEntries_mem {test : String → Bool} {key : String} {child : Tree R} :
    ∀ {entries : TreeChildren R}, allKeysEntries test entries = true →
      (key, some child) ∈ entries → test key = true ∧ child.allKeys test = true := by
  intro entries
  induction entries with
  | nil =>
      intro _ member
      cases member
  | cons first rest ih =>
      intro all member
      obtain ⟨key', child'⟩ := first
      cases child' with
      | none =>
          rcases List.mem_cons.mp member with same | later
          · cases same
          · exact ih all later
      | some child' =>
          rw [allKeysEntries, Bool.and_eq_true, Bool.and_eq_true] at all
          rcases List.mem_cons.mp member with same | later
          · cases same
            exact all.1
          · exact ih all.2 later

theorem allKeys_child {test : String → Bool} {tree : Tree R} {key : String} {child : Tree R}
    (all : tree.allKeys test = true) (listed : (key, some child) ∈ tree.children.getD []) :
    test key = true ∧ child.allKeys test = true := by
  obtain ⟨v, d, children⟩ := tree
  cases children with
  | none => cases listed
  | some entries => exact allKeysEntries_mem all listed

end Tree

def Tree.kids (tree : Tree R) : List (String × Tree R) :=
  (tree.children.getD []).filterMap fun (key, child) => child.map fun tree => (key, tree)

theorem Tree.sizeEntries_eq : ∀ entries : TreeChildren R,
    Tree.sizeEntries entries = ((entries.filterMap fun (key, child) =>
      child.map fun tree => (key, tree)).map fun (_, tree) => tree.size).sum := by
  intro entries
  induction entries with
  | nil => rfl
  | cons first rest ih =>
      obtain ⟨key, child⟩ := first
      cases child with
      | none => exact ih
      | some tree => exact congrArg (tree.size + ·) ih

theorem Tree.size_eq (tree : Tree R) : tree.size = 1 + (tree.kids.map fun (_, tree) => tree.size).sum := by
  obtain ⟨v, d, children⟩ := tree
  cases children with
  | none => rfl
  | some entries => exact congrArg (1 + ·) (Tree.sizeEntries_eq entries)

/-- An entry of the list the traversal works through.  Only the first one has no key. -/
structure Pending (R : Type) where
  treeRef : Tree R
  level : Nat
  key : Option String
  parentRef : Option ChainedObject

namespace Pending

/-- The parent of the entries that come after this one. -/
def node (entry : Pending R) : Option ChainedObject :=
  match entry.key with
  | none => entry.parentRef
  | some key => some (.ofParent key entry.level entry.parentRef)

def next (entry : Pending R) : List (Pending R) :=
  (entry.treeRef.children.getD []).filterMap fun (nextKey, nextValue) =>
    nextValue.map fun tree => ⟨tree, entry.level + 1, some nextKey, entry.node⟩

def item (now : ℚ) (entry : Pending R) : Option (TraversalItem R) :=
  entry.key.map fun key => createTraversalItem key entry.level entry.parentRef entry.treeRef now

end Pending

def startEntry (root : Tree R) (startParentRef : Option ChainedObject) : Pending R :=
  ⟨root, (startParentRef.map ChainedObject.level).getD 0, none, startParentRef⟩

def treePreOrderTraversal (order : Worklist.Order) (now : ℚ) (root : Tree R)
    (startParentRef : Option ChainedObject) : List (TraversalItem R) :=
  let start := startParentRef.map fun ref =>
    createTraversalItem ref.key ref.level ref.parentRef root now
  let entries := Worklist.visit order Pending.next root.size [startEntry root startParentRef]
  start.toList ++ entries.filterMap (Pending.item now)

def treePreOrderBreadthFirstSearch (now : ℚ) (tree : Tree R) (parentRef : Option ChainedObject) :
    List (TraversalItem R) :=
  treePreOrderTraversal .fifo now tree parentRef

def treePreOrderDepthFirstSearch (now : ℚ) (tree : Tree R) (parentRef : Option ChainedObject) :
    List (TraversalItem R) :=
  treePreOrderTraversal .lifo now tree parentRef

/-! ## Where the items come from -/

theorem Pending.next_eq (pending : Pending R) : pending.next = pending.treeRef.kids.map
    fun (key, tree) => ⟨tree, pending.level + 1, some key, pending.node⟩ := by
  rw [Pending.next, Tree.kids, List.map_filterMap]
  apply List.filterMap_congr
  intro found _
  obtain ⟨key, child⟩ := found
  cases child <;> rfl

theorem Pending.size_next (pending : Pending R) :
    (pending.next.map fun entry => entry.treeRef.size).sum < pending.treeRef.size := by
  rw [Pending.next_eq, List.map_map, Tree.size_eq pending.treeRef]
  change (pending.treeRef.kids.map fun found => found.2.size).sum <
    1 + (pending.treeRef.kids.map fun found => found.2.size).sum
  omega

def properTest (key : String) : Bool := decide (ProperKey key)

theorem ChainedObject.keys_ne_nil (ref : ChainedObject) : ref.keys ≠ [] := by
  cases ref with
  | top key level => exact List.cons_ne_nil _ _
  | under key level parent => exact List.append_ne_nil_of_right_ne_nil _ (List.cons_ne_nil _ _)

theorem Pending.mem_next {entry child : Pending R} (listed : child ∈ entry.next) :
    ∃ key tree, (key, some tree) ∈ entry.treeRef.children.getD [] ∧
      child = ⟨tree, entry.level + 1, some key, entry.node⟩ := by
  obtain ⟨⟨key, value⟩, member, mapped⟩ := List.mem_filterMap.mp listed
  obtain ⟨tree, rfl, same⟩ := Option.map_eq_some_iff.mp mapped
  exact ⟨key, tree, member, same.symm⟩

/-- The keys of the item pass the test, there is one for each level, and so do the keys
below, down to `depth`. -/
structure TraversalItem.Spelled (test : String → Bool) (depth : Nat) (item : TraversalItem R) :
    Prop where
  keys : ∀ key ∈ item.ref.keys, test key = true
  level : item.ref.level = item.ref.keys.length
  subtree : item.treeRef.allKeys test = true
  bounded : item.ref.level + item.treeRef.height ≤ depth

/-- The same of an entry of the list. -/
structure Pending.Spelled (test : String → Bool) (depth : Nat) (entry : Pending R) : Prop where
  node : ∀ ref, entry.node = some ref → (∀ key ∈ ref.keys, test key = true) ∧
    ref.level = ref.keys.length
  level : entry.level = (entry.node.map ChainedObject.level).getD 0
  subtree : entry.treeRef.allKeys test = true
  bounded : entry.level + entry.treeRef.height ≤ depth

theorem Pending.Spelled.next {test : String → Bool} {depth : Nat} {entry child : Pending R}
    (spelled : entry.Spelled test depth) (listed : child ∈ entry.next) :
    child.Spelled test depth := by
  obtain ⟨key, tree, member, rfl⟩ := Pending.mem_next listed
  obtain ⟨passes, subtree⟩ := Tree.allKeys_child spelled.subtree member
  have lower := Tree.height_child member
  have bounded := spelled.bounded
  refine ⟨?_, ?_, subtree, ?_⟩
  · intro ref made
    obtain rfl := Option.some.inj made
    cases above : entry.node with
    | none =>
        have level := spelled.level
        rw [above] at level
        refine ⟨fun key' member' => ?_, ?_⟩
        · rw [List.mem_singleton.mp member']
          exact passes
        · rw [level]
          rfl
    | some parent =>
        obtain ⟨keys, parentLevel⟩ := spelled.node parent above
        have level := spelled.level
        rw [above] at level
        refine ⟨fun key' member' => ?_, ?_⟩
        · rcases List.mem_append.mp member' with earlier | here
          · exact keys key' earlier
          · rw [List.mem_singleton.mp here]
            exact passes
        · simp only [ChainedObject.ofParent, ChainedObject.keys, List.length_append,
            List.length_singleton, ← parentLevel]
          rw [level]
          rfl
  · simp only [Pending.node, Option.map_some, ChainedObject.level_ofParent, Option.getD_some]
  · simp only
    omega

theorem treePreOrderTraversal_spelled (order : Worklist.Order) (now : ℚ) (root : Tree R)
    (test : String → Bool) (all : root.allKeys test = true) (item : TraversalItem R)
    (listed : item ∈ treePreOrderTraversal order now root none) : item.Spelled test root.height := by
  simp only [treePreOrderTraversal, Option.map_none, Option.toList_none, List.nil_append] at listed
  obtain ⟨entry, visited, made⟩ := List.mem_filterMap.mp listed
  obtain ⟨key, keyed, rfl⟩ := Option.map_eq_some_iff.mp made
  have start : (startEntry root none).Spelled test root.height :=
    ⟨fun ref made => (nomatch made), rfl, all, by simp [startEntry]⟩
  have spelled := Worklist.visit_forall order Pending.next (Pending.Spelled test root.height)
    (fun entry spelled child listed => spelled.next listed) root.size [startEntry root none]
    (fun first member => by rw [List.mem_singleton.mp member]; exact start) entry visited
  have node : entry.node = some (.ofParent key entry.level entry.parentRef) := by
    rw [Pending.node, keyed]
  obtain ⟨keys, level⟩ := spelled.node _ node
  refine ⟨keys, level, spelled.subtree, ?_⟩
  simp only [createTraversalItem, ChainedObject.level_ofParent]
  exact spelled.bounded

/-- `child` is the item of a child of the node `item` stands for. -/
def TraversalItem.Under (item child : TraversalItem R) : Prop :=
  ∃ key, (key, some child.treeRef) ∈ item.treeRef.children.getD [] ∧
    child.ref = .under key (item.ref.level + 1) item.ref

/-- An item without a parent is that of a child of the root, on the first level. -/
def TraversalItem.Top (root : Tree R) (item : TraversalItem R) : Prop :=
  ∃ key, (key, some item.treeRef) ∈ root.children.getD [] ∧ item.ref = .top key 1

/-- Without a start node, every item is on the first level or comes after its parent. -/
theorem treePreOrderTraversal_origin (order : Worklist.Order) (now : ℚ) (root : Tree R)
    (before : List (TraversalItem R)) (item : TraversalItem R) (after : List (TraversalItem R))
    (split : treePreOrderTraversal order now root none = before ++ item :: after) :
    item.Top root ∨ ∃ parent ∈ before, parent.Under item := by
  simp only [treePreOrderTraversal, Option.map_none, Option.toList_none, List.nil_append] at split
  obtain ⟨earlier, later, visited, rfl, cut⟩ := List.filterMap_eq_append_iff.mp split
  obtain ⟨skipped, entry, rest, rfl, unkeyed, made, _⟩ := List.filterMap_eq_cons_iff.mp cut
  obtain ⟨key, keyed, rfl⟩ := Option.map_eq_some_iff.mp made
  have origin := Worklist.visit_origin order Pending.next _ _ (earlier ++ skipped) entry rest
    (by rw [visited, List.append_assoc])
  rcases origin with start | ⟨parent, listed, leads⟩
  · rw [List.mem_singleton] at start
    rw [start] at keyed
    cases keyed
  · obtain ⟨key', tree, member, rfl⟩ := Pending.mem_next leads
    obtain rfl : key' = key := Option.some.inj keyed
    cases parentKey : parent.key with
    | some above =>
        right
        have parentItem : parent.item now = some (createTraversalItem above parent.level
            parent.parentRef parent.treeRef now) := by
          rw [Pending.item, parentKey, Option.map_some]
        refine ⟨_, List.mem_filterMap.mpr ⟨parent, ?_, parentItem⟩, key', member, ?_⟩
        · rcases List.mem_append.mp listed with found | found
          · exact found
          · rw [unkeyed parent found] at parentItem
            cases parentItem
        · simp only [createTraversalItem, Pending.node, parentKey, ChainedObject.level_ofParent]
          rfl
    | none =>
        left
        have first : parent = startEntry root none := by
          have all := Worklist.visit_forall order Pending.next
            (fun entry => entry.key = none → entry = startEntry root none)
            (fun a _ b child unkeyed => by
              obtain ⟨_, _, _, rfl⟩ := Pending.mem_next child
              cases unkeyed) root.size [startEntry root none]
            (fun a listed _ => List.mem_singleton.mp listed)
          refine all parent ?_ parentKey
          rw [visited, ← List.append_assoc]
          exact List.mem_append_left _ listed
        rw [first] at member
        refine ⟨key', member, ?_⟩
        rw [first]
        rfl

theorem treePreOrderTraversal_level (order : Worklist.Order) (now : ℚ) (root : Tree R)
    (start : ChainedObject) (item : TraversalItem R)
    (listed : item ∈ treePreOrderTraversal order now root (some start)) :
    start.level ≤ item.ref.level := by
  rw [treePreOrderTraversal, List.mem_append] at listed
  rcases listed with first | later
  · rw [Option.map_some, Option.toList_some, List.mem_singleton] at first
    rw [first, createTraversalItem, ChainedObject.level_ofParent]
  · obtain ⟨entry, visited, made⟩ := List.mem_filterMap.mp later
    obtain ⟨key, _, rfl⟩ := Option.map_eq_some_iff.mp made
    have below := Worklist.visit_forall order Pending.next (fun entry => start.level ≤ entry.level)
      (fun parent above child leads => by
        obtain ⟨_, _, _, rfl⟩ := Pending.mem_next leads
        exact Nat.le_succ_of_le above) root.size [startEntry root (some start)]
      (fun first member => by rw [List.mem_singleton.mp member]; exact le_refl _) entry visited
    rw [createTraversalItem, ChainedObject.level_ofParent]
    exact below

end TreeKeyCache
