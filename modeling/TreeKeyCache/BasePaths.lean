import TreeKeyCache.Materialised

/-! # Where a traversal stays

A traversal starts from what `getNodeRef` returns for its base path.  Everything it yields has
the path of that node or an extension of it; but the node is not always the one at the base
path. -/
set_option autoImplicit false
namespace TreeKeyCache

variable {T R A B : Type}

/-! ## Items under a node -/

/-- The path of `ref` is that of `base` or an extension of it. -/
def ChainedObject.Within (base ref : ChainedObject) : Prop := base.keys <+: ref.keys

namespace ChainedObject

theorem ofParent_self (ref : ChainedObject) : ofParent ref.key ref.level ref.parentRef = ref := by
  cases ref <;> rfl

theorem Within.refl (base : ChainedObject) : base.Within base := List.prefix_rfl

theorem Within.child {base ref : ChainedObject} (within : base.Within ref) (key : String)
    (level : Nat) : base.Within (ofParent key level (some ref)) :=
  within.trans (List.prefix_append _ _)

end ChainedObject

/-- The parent of what comes after the entry is within. -/
def AnyPending.Within (base : ChainedObject) (entry : AnyPending R) : Prop :=
  ∃ ref, entry.node = some ref ∧ base.Within ref

theorem AnyPending.Within.child {base : ChainedObject} {entry : AnyPending R}
    (within : entry.Within base) (found : String × AnyTree R) : (entry.child found).Within base := by
  obtain ⟨ref, node, inside⟩ := within
  refine ⟨.ofParent found.1 (entry.level + 1) (some ref), ?_, inside.child _ _⟩
  change some (ChainedObject.ofParent found.1 (entry.level + 1) entry.node) = _
  rw [node]

theorem AnyPending.Within.item {base : ChainedObject} {entry : AnyPending R}
    (within : entry.Within base) (now : ℚ) (item : AnyTraversalItem R)
    (made : entry.item now = some item) : base.Within item.ref := by
  obtain ⟨ref, node, inside⟩ := within
  obtain ⟨key, keyed, rfl⟩ := Option.map_eq_some_iff.mp made
  rw [AnyPending.node, keyed] at node
  rw [createAnyTraversalItem, Option.some.inj node]
  exact inside

namespace AsyncSimpleList

/-- Popping takes something that was there and adds nothing. -/
theorem popQueue_mem : ∀ (nodes : List (QueueNode A)) (size : Nat) (a : A)
    (list : AsyncSimpleList A), popQueue nodes size = .ok (some a, list) →
      a ∈ (queue nodes size).contents ∧ ∀ b ∈ list.contents, b ∈ (queue nodes size).contents := by
  intro nodes
  induction nodes with
  | nil =>
      intro size a list popped
      cases popped
  | cons first nodes ih =>
      intro size a list popped
      have later : ∀ b ∈ (queue nodes size).contents, b ∈ (queue (first :: nodes) size).contents :=
        fun b member => List.mem_append_right _ member
      cases first with
      | value b =>
          cases popped
          exact ⟨List.mem_cons_self, fun b member => List.mem_cons_of_mem _ member⟩
      | iterator rest =>
          obtain ⟨items, error⟩ := rest
          cases items with
          | nil =>
              cases error with
              | some e => cases popped
              | none =>
                  obtain ⟨listed, kept⟩ := ih size a list popped
                  exact ⟨later a listed, fun b member => later b (kept b member)⟩
          | cons b items =>
              cases popped
              refine ⟨List.mem_cons_self, fun b' member => ?_⟩
              rcases List.mem_append.mp member with here | after
              · exact List.mem_append_left _ (List.mem_cons_of_mem _ here)
              · exact later b' after

theorem pop_mem (list list' : AsyncSimpleList A) (a : A) (popped : list.pop = .ok (some a, list')) :
    a ∈ list.contents ∧ ∀ b ∈ list'.contents, b ∈ list.contents := by
  cases list with
  | queue nodes size => exact popQueue_mem nodes size a list' popped
  | stack items =>
      cases items with
      | nil => cases popped
      | cons b items =>
          cases popped
          exact ⟨List.mem_cons_self, fun b' member => List.mem_cons_of_mem _ member⟩

theorem mem_push (list : AsyncSimpleList A) (a b : A) :
    b ∈ (list.push a).contents ↔ b ∈ list.contents ∨ b = a := by
  rw [push_contents, Worklist.Order.mem_push, List.mem_singleton]

theorem pushIterable_mem (list list' : AsyncSimpleList A) (iterable : Yielded A)
    (pushed : list.pushIterable iterable = .ok list') :
    ∀ b ∈ list'.contents, b ∈ list.contents ∨ b ∈ iterable.items := by
  intro b member
  cases list with
  | queue nodes size =>
      cases pushed
      change b ∈ (nodes ++ [QueueNode.iterator iterable]).flatMap nodeContents at member
      rw [List.flatMap_append, List.flatMap_singleton] at member
      exact List.mem_append.mp member
  | stack items =>
      rw [pushIterable] at pushed
      split at pushed
      · cases pushed
      · cases pushed
        rcases List.mem_append.mp member with new | old
        · exact Or.inr (List.mem_reverse.mp new)
        · exact Or.inl old

end AsyncSimpleList

section
variable (o : Options T R) (storage : ReadStorage R)

theorem AnyPending.pushChildren_mem (entry : AnyPending R) (list list' : AsyncSimpleList (AnyPending R))
    (pushed : entry.pushChildren o storage list = .ok list') :
    ∀ next ∈ list'.contents, next ∈ list.contents ∨
      ∃ found ∈ entry.treeRef.kids o storage, next = entry.child found := by
  obtain ⟨treeRef, level, key, parentRef⟩ := entry
  intro next member
  cases treeRef with
  | async ref =>
      rcases AsyncSimpleList.pushIterable_mem list list' _ pushed next member with old | new
      · exact Or.inl old
      · obtain ⟨found, listed, rfl⟩ := List.mem_map.mp new
        exact Or.inr ⟨found, listed, rfl⟩
  | sync tree =>
      have folded := foldl_push_children ⟨.sync tree, level, key, parentRef⟩
        (tree.children.getD []) list
      have same := folded.symm.trans (Except.ok.inj pushed)
      rw [← same, (AsyncSimpleList.foldl_push_contents _ list).1, Worklist.Order.mem_push] at member
      rcases member with old | new
      · exact Or.inl old
      · obtain ⟨found, listed, rfl⟩ := List.mem_map.mp new
        exact Or.inr ⟨found, listed, rfl⟩

/-- Whatever holds of the entries at the start and is handed to children holds of all entries,
up to where the loop throws. -/
theorem asyncVisit_forall (P : AnyPending R → Prop) (handed : ∀ entry, P entry →
    ∀ found ∈ entry.treeRef.kids o storage, P (entry.child found)) :
    ∀ (rounds : Nat) (list : AsyncSimpleList (AnyPending R)),
      (∀ entry ∈ list.contents, P entry) →
        ∀ entry ∈ (asyncVisit o storage rounds list).items, P entry := by
  intro rounds
  induction rounds with
  | zero =>
      intro list _ entry visited
      cases visited
  | succ rounds ih =>
      intro list all entry visited
      rw [asyncVisit] at visited
      split at visited
      · cases visited
      · split at visited
        · cases visited
        · cases visited
        · rename_i first list' popped
          obtain ⟨listed, kept⟩ := list.pop_mem list' first popped
          have firstHolds := all first listed
          split at visited
          · rw [List.mem_singleton.mp visited]
            exact firstHolds
          · rename_i list'' pushed
            rcases List.mem_cons.mp visited with rfl | later
            · exact firstHolds
            · refine ih list'' (fun next member => ?_) entry later
              rcases first.pushChildren_mem o storage list' list'' pushed next member with old | new
              · exact all next (kept next old)
              · obtain ⟨found, kid, rfl⟩ := new
                exact handed first firstHolds found kid

theorem within_start (base : ChainedObject) (tree : AnyTree R) (now : ℚ) :
    base.Within (createAnyTraversalItem base.key base.level base.parentRef tree now).ref := by
  change base.Within (ChainedObject.ofParent base.key base.level base.parentRef)
  rw [base.ofParent_self]
  exact .refl base

theorem asyncTreePreOrderTraversal_within (rounds : Nat) (now : ℚ) (tree : AnyTree R)
    (list : AsyncSimpleList (AnyPending R)) (empty : list.contents = []) (base : ChainedObject) :
    ∀ item ∈ (asyncTreePreOrderTraversal o storage rounds now tree list (some base)).items,
      base.Within item.ref := by
  intro item listed
  rcases List.mem_append.mp listed with start | visited
  · rw [List.mem_singleton.mp start]
    exact within_start base tree now
  · obtain ⟨entry, handled, made⟩ := List.mem_filterMap.mp visited
    refine AnyPending.Within.item ?_ now item made
    refine asyncVisit_forall o storage (AnyPending.Within base)
      (fun entry within found _ => within.child found) rounds _ (fun first member => ?_) entry handled
    rw [AsyncSimpleList.mem_push, empty] at member
    rcases member with old | new
    · cases old
    · rw [new]
      exact ⟨base, rfl, .refl base⟩

theorem mem_append_items {first later : Yielded A} {a : A}
    (listed : a ∈ (first.append later).items) : a ∈ first.items ∨ a ∈ later.items := by
  rw [Yielded.append] at listed
  split at listed
  · exact Or.inl listed
  · exact List.mem_append.mp listed

theorem mem_yieldAll {f : B → Yielded A} {a : A} : ∀ {list : List B},
    a ∈ (yieldAll f list).items → ∃ b ∈ list, a ∈ (f b).items := by
  intro list
  induction list with
  | nil =>
      intro listed
      cases listed
  | cons b rest ih =>
      intro listed
      rcases mem_append_items listed with here | later
      · exact ⟨b, List.mem_cons_self, here⟩
      · obtain ⟨b', member, inside⟩ := ih later
        exact ⟨b', List.mem_cons_of_mem _ member, inside⟩

/-- The reference handed to the children of a node is within. -/
theorem postOrderRef_within {base parent : ChainedObject} (within : base.Within parent)
    (key : Option String) :
    ∃ ref, (postOrderRef (some parent) key).or (some parent) = some ref ∧ base.Within ref ∧
      ∀ made, postOrderRef (some parent) key = some made → made = ref := by
  cases key with
  | none => exact ⟨parent, rfl, within, fun _ made => (nomatch made)⟩
  | some key => exact ⟨_, rfl, within.child key _, fun _ made => (Option.some.inj made).symm⟩

theorem asyncTreePostOrderTraversalRecursive_within (now : ℚ) (base : ChainedObject) :
    ∀ (rounds : Nat) (tree : AnyTree R) (parent : ChainedObject) (key : Option String),
      base.Within parent → ∀ item ∈ (asyncTreePostOrderTraversalRecursive o storage now rounds tree
        (some parent) key).items, base.Within item.ref := by
  intro rounds
  induction rounds with
  | zero =>
      intro tree parent key _ item listed
      cases listed
  | succ rounds ih =>
      intro tree parent key within item listed
      obtain ⟨ref, node, inside, own⟩ := postOrderRef_within within key
      have last : ∀ item ∈ ((postOrderRef (some parent) key).map fun ref =>
          (⟨ref, tree.currentSerializedValue now, tree⟩ : AnyTraversalItem R)).toList,
          base.Within item.ref := by
        intro item listed
        obtain ⟨made, found, rfl⟩ := Option.map_eq_some_iff.mp (Option.mem_toList.mp listed)
        rw [own made found]
        exact inside
      cases tree with
      | async asyncRef =>
          rw [asyncTreePostOrderTraversalRecursive] at listed
          rcases mem_append_items listed with below | here
          · obtain ⟨found, _, member⟩ := mem_yieldAll below
            rw [node] at member
            exact ih found.2 ref (some found.1) inside item member
          · split at here
            · cases here
            · exact last item here
      | sync tree =>
          rw [asyncTreePostOrderTraversalRecursive] at listed
          rcases mem_append_items listed with below | here
          · obtain ⟨found, _, member⟩ := mem_yieldAll below
            rw [node] at member
            exact ih found.2 ref (some found.1) inside item member
          · exact last item here

theorem Search.async_within (rounds : Nat) (now : ℚ) (tree : AnyTree R) (base : ChainedObject)
    (search : Search) : ∀ item ∈ (search.async o storage rounds now tree (some base)).items,
      base.Within item.ref := by
  have postOrder : ∀ item ∈ (asyncTreePostOrderTraversal o storage rounds now tree
      (some base)).items, base.Within item.ref := by
    intro item listed
    rcases mem_append_items listed with below | last
    · exact asyncTreePostOrderTraversalRecursive_within o storage now base rounds tree base none
        (.refl base) item below
    · rw [List.mem_singleton.mp last]
      exact within_start base tree now
  cases search with
  | preOrderBreadthFirst =>
      exact asyncTreePreOrderTraversal_within o storage rounds now tree (.queue [] 0) rfl base
  | preOrderDepthFirst =>
      exact asyncTreePreOrderTraversal_within o storage rounds now tree (.stack []) rfl base
  | postOrderBreadthFirst => exact postOrder
  | postOrderDepthFirst => exact postOrder

end

/-! ## In memory -/

theorem Pending.within_next {base : ChainedObject} {entry : Pending R}
    (within : ∃ ref, entry.node = some ref ∧ base.Within ref) (child : Pending R)
    (listed : child ∈ entry.next) : ∃ ref, child.node = some ref ∧ base.Within ref := by
  obtain ⟨ref, node, inside⟩ := within
  obtain ⟨key, tree, _, rfl⟩ := Pending.mem_next listed
  refine ⟨.ofParent key (entry.level + 1) (some ref), ?_, inside.child _ _⟩
  change some (ChainedObject.ofParent key (entry.level + 1) entry.node) = _
  rw [node]

theorem treePostOrderTraversalRecursive_within (now : ℚ) (base : ChainedObject) (tree : Tree R) :
    ∀ (parent : ChainedObject) (key : Option String), base.Within parent →
      ∀ item ∈ treePostOrderTraversalRecursive now tree (some parent) key, base.Within item.ref := by
  induction tree using Tree.induct with
  | node v d c ih =>
      intro parent key within item listed
      obtain ⟨ref, node, inside, own⟩ := postOrderRef_within within key
      rw [treePostOrderTraversalRecursive_eq, node] at listed
      rcases List.mem_append.mp listed with below | last
      · obtain ⟨⟨nextKey, child⟩, kid, member⟩ := List.mem_flatMap.mp below
        obtain ⟨⟨key', found⟩, entry, made⟩ := List.mem_filterMap.mp kid
        obtain ⟨tree', rfl, same⟩ := Option.map_eq_some_iff.mp made
        obtain ⟨rfl, rfl⟩ := Prod.mk.inj same
        cases c with
        | none => cases entry
        | some entries => exact ih entries rfl _ _ entry ref (some key') inside item member
      · obtain ⟨made, found, rfl⟩ := Option.map_eq_some_iff.mp (Option.mem_toList.mp last)
        rw [own made found]
        exact inside

theorem Search.sync_within (now : ℚ) (tree : Tree R) (base : ChainedObject) (search : Search) :
    ∀ item ∈ search.sync now tree (some base), base.Within item.ref := by
  have start : base.Within (createTraversalItem base.key base.level base.parentRef tree now).ref :=
    within_start base (.sync tree) now
  have preOrder : ∀ order, ∀ item ∈ treePreOrderTraversal order now tree (some base),
      base.Within item.ref := by
    intro order item listed
    rcases List.mem_append.mp listed with first | visited
    · rw [List.mem_singleton.mp first]
      exact start
    · obtain ⟨entry, handled, made⟩ := List.mem_filterMap.mp visited
      obtain ⟨ref, node, inside⟩ := Worklist.visit_forall order Pending.next
        (fun entry => ∃ ref, entry.node = some ref ∧ base.Within ref)
        (fun entry within child listed => Pending.within_next within child listed) _ _
        (fun first member => by
          rw [List.mem_singleton.mp member]
          exact ⟨base, rfl, .refl base⟩) entry handled
      obtain ⟨key, keyed, rfl⟩ := Option.map_eq_some_iff.mp made
      rw [Pending.node, keyed] at node
      change base.Within (ChainedObject.ofParent key entry.level entry.parentRef)
      rw [Option.some.inj node]
      exact inside
  have postOrder : ∀ item ∈ treePostOrderTraversal now tree (some base), base.Within item.ref := by
    intro item listed
    rcases List.mem_append.mp listed with below | last
    · exact treePostOrderTraversalRecursive_within now base tree base none (.refl base) item below
    · rw [List.mem_singleton.mp last]
      exact start
  cases search with
  | preOrderBreadthFirst => exact preOrder .fifo
  | preOrderDepthFirst => exact preOrder .lifo
  | postOrderBreadthFirst => exact postOrder
  | postOrderDepthFirst => exact postOrder

/-- What holds of a tree and is handed to the children holds of all nodes whose values a search
lists. -/
theorem Search.sync_forall (P : Tree R → Prop)
    (handed : ∀ tree, P tree → ∀ key child, (key, child) ∈ tree.kids → P child) (now : ℚ)
    (tree : Tree R) (holds : P tree) (parentRef : Option ChainedObject) (search : Search) :
    ∀ item ∈ search.sync now tree parentRef,
      ∃ node, P node ∧ item.value = getTreeCurrentSerializedValue node now := by
  have preOrder : ∀ order, ∀ item ∈ treePreOrderTraversal order now tree parentRef,
      ∃ node, P node ∧ item.value = getTreeCurrentSerializedValue node now := by
    intro order item listed
    rcases List.mem_append.mp listed with first | visited
    · obtain ⟨ref, _, rfl⟩ := Option.map_eq_some_iff.mp (Option.mem_toList.mp first)
      exact ⟨tree, holds, rfl⟩
    · obtain ⟨entry, handled, made⟩ := List.mem_filterMap.mp visited
      have inside := Worklist.visit_forall order Pending.next (fun entry => P entry.treeRef)
        (fun entry within child listed => by
          obtain ⟨key, lower, kid, rfl⟩ := Pending.mem_next listed
          exact handed entry.treeRef within key lower (List.mem_filterMap.mpr ⟨_, kid, rfl⟩)) _ _
        (fun first member => by
          rw [List.mem_singleton.mp member]
          exact holds) entry handled
      obtain ⟨key, _, rfl⟩ := Option.map_eq_some_iff.mp made
      exact ⟨entry.treeRef, inside, rfl⟩
  have recursive : ∀ (tree : Tree R) (parentRef : Option ChainedObject) (key : Option String), P tree →
      ∀ item ∈ treePostOrderTraversalRecursive now tree parentRef key,
        ∃ node, P node ∧ item.value = getTreeCurrentSerializedValue node now := by
    intro tree
    induction tree using Tree.induct with
    | node v d c ih =>
        intro parentRef key holds item listed
        rw [treePostOrderTraversalRecursive_eq] at listed
        rcases List.mem_append.mp listed with below | last
        · obtain ⟨⟨nextKey, child⟩, kid, member⟩ := List.mem_flatMap.mp below
          have lower := handed _ holds nextKey child kid
          obtain ⟨⟨key', found⟩, entry, made⟩ := List.mem_filterMap.mp kid
          obtain ⟨tree', rfl, same⟩ := Option.map_eq_some_iff.mp made
          obtain ⟨rfl, rfl⟩ := Prod.mk.inj same
          cases c with
          | none => cases entry
          | some entries => exact ih entries rfl _ _ entry _ (some key') lower item member
        · obtain ⟨ref, _, rfl⟩ := Option.map_eq_some_iff.mp (Option.mem_toList.mp last)
          exact ⟨_, holds, rfl⟩
  have postOrder : ∀ item ∈ treePostOrderTraversal now tree parentRef,
      ∃ node, P node ∧ item.value = getTreeCurrentSerializedValue node now := by
    intro item listed
    rcases List.mem_append.mp listed with below | last
    · exact recursive tree parentRef none holds item below
    · obtain ⟨ref, _, rfl⟩ := Option.map_eq_some_iff.mp (Option.mem_toList.mp last)
      exact ⟨tree, holds, rfl⟩
  cases search with
  | preOrderBreadthFirst => exact preOrder .fifo
  | preOrderDepthFirst => exact preOrder .lifo
  | postOrderBreadthFirst => exact postOrder
  | postOrderDepthFirst => exact postOrder

theorem Search.sync_ne_nil (now : ℚ) (tree : Tree R) (base : ChainedObject) (search : Search) :
    search.sync now tree (some base) ≠ [] := by
  have preOrder : ∀ order, treePreOrderTraversal order now tree (some base) ≠ [] :=
    fun order => List.cons_ne_nil _ _
  have postOrder : treePostOrderTraversal now tree (some base) ≠ [] :=
    List.append_ne_nil_of_right_ne_nil _ (List.cons_ne_nil _ _)
  cases search with
  | preOrderBreadthFirst => exact preOrder .fifo
  | preOrderDepthFirst => exact preOrder .lifo
  | postOrderBreadthFirst => exact postOrder
  | postOrderDepthFirst => exact postOrder

/-! ## The base path -/

section
variable [SerializedForm R] (o : Options T R) (storage : ReadStorage R)

/-- Every step is at the base path or below it, and there is none when the base path is at tree
level and no node is stored there. -/
structure StaysUnder (keyLevelNodes : Nat) (stored : Prop) (base : List String)
    (steps : List (Step T)) : Prop where
  within : ∀ step ∈ steps, base <+: step.nodeRef.keys
  absent : keyLevelNodes ≤ base.length → ¬ stored → steps = []

/-- The tree of the path decodes and has its node. -/
def NodeStored (base : List String) : Prop :=
  ((treeAt o storage.get base).bind fun tree => tree.sub (base.drop o.keyLevelNodes)) ≠ none

/-- The base path is above the tree level, or its tree is there and decodes, and holds the node
if a reader arrives at one. -/
def BaseFound (base : List String) : Prop :=
  base.length < o.keyLevelNodes ∨ ∃ tree, treeAt o storage.get base = some tree ∧
    (tree.reach (base.drop o.keyLevelNodes) = none ∨
      tree.sub (base.drop o.keyLevelNodes) ≠ none)

omit [SerializedForm R] in
theorem getTraversalIterable_deep (rounds : Nat) (now : ℚ) (search : Search)
    (item : TraversalItem R) (deep : o.keyLevelNodes ≤ item.ref.level) :
    (getTraversalIterable o storage rounds now search (some item)).items =
      (search.sync now item.treeRef (some item.ref)).map TraversalItem.any := by
  simp only [getTraversalIterable, if_pos deep]

omit [SerializedForm R] in
theorem within_of_short (rounds : Nat) (now : ℚ) (search : Search) (item : TraversalItem R)
    (above : ¬ o.keyLevelNodes ≤ item.ref.level) :
    ∀ step ∈ ((getTraversalIterable o storage rounds now search (some item)).map
      (AnyTraversalItem.step o)).items, item.ref.keys <+: step.nodeRef.keys := by
  intro step listed
  obtain ⟨found, member, rfl⟩ := List.mem_map.mp listed
  simp only [getTraversalIterable, if_neg above] at member
  exact Search.async_within o storage rounds now _ item.ref search found member

omit [SerializedForm R] in
theorem within_of_deep (rounds : Nat) (now : ℚ) (search : Search) (item : TraversalItem R)
    (deep : o.keyLevelNodes ≤ item.ref.level) :
    ∀ step ∈ ((getTraversalIterable o storage rounds now search (some item)).map
      (AnyTraversalItem.step o)).items, item.ref.keys <+: step.nodeRef.keys := by
  intro step listed
  obtain ⟨found, member, rfl⟩ := List.mem_map.mp listed
  rw [getTraversalIterable_deep o storage rounds now search item deep] at member
  obtain ⟨own, yielded, rfl⟩ := List.mem_map.mp member
  exact Search.sync_within now item.treeRef item.ref search own yielded

omit [SerializedForm R] in
theorem steps_ne_nil_of_deep (rounds : Nat) (now : ℚ) (search : Search) (item : TraversalItem R)
    (deep : o.keyLevelNodes ≤ item.ref.level) :
    ((getTraversalIterable o storage rounds now search (some item)).map
      (AnyTraversalItem.step o)).items ≠ [] := by
  intro none
  rw [Yielded.map, getTraversalIterable_deep o storage rounds now search item deep,
    List.map_eq_nil_iff, List.map_eq_nil_iff] at none
  exact Search.sync_ne_nil now item.treeRef item.ref search none

theorem entry_traversal_stays_under_iff (positive : 1 ≤ o.keyLevelNodes) (rounds : Nat)
    (lookupTime now : ℚ) (search : Search) (base : List String) (nonempty : base ≠ []) :
    StaysUnder o.keyLevelNodes (NodeStored o storage base) base
        (getTraversalStepsIterable o storage rounds lookupTime now search (some base)).items ↔
      BaseFound o storage base := by
  have nodeRef := getNodeRef_eq o storage.get lookupTime base positive nonempty
  have keys : (nodeRefOf base).keys = base := nodeRefOf_keys base nonempty
  have level : (nodeRefOf base).level = base.length := nodeRefOf_level base nonempty
  simp only [getTraversalStepsIterable]
  by_cases short : base.length < o.keyLevelNodes
  · rw [nodeRef, if_pos short]
    refine ⟨fun _ => Or.inl short, fun _ => ⟨?_, fun deep => absurd deep (by omega)⟩⟩
    have within := within_of_short o storage rounds now search
      ⟨nodeRefOf base, storage.get (joinKeys base), Tree.empty⟩ (by rw [level]; omega)
    rw [keys] at within
    exact within
  · rw [nodeRef, if_neg short]
    have deep : o.keyLevelNodes ≤ base.length := by omega
    cases tree : treeAt o storage.get base with
    | none =>
        -- the bare item of level `keyLevelNodes` is yielded
        have bareLevel := bareItem_level (R := R) base (o.keyLevelNodes - 1) (by omega)
        rw [show o.keyLevelNodes - 1 + 1 = o.keyLevelNodes by omega] at bareLevel
        constructor
        · intro stays
          refine absurd (stays.absent deep ?_) (steps_ne_nil_of_deep o storage rounds now search
            (bareItem (base.take o.keyLevelNodes)) (by rw [bareLevel]))
          rw [NodeStored, tree]
          exact fun present => present rfl
        · rintro (above | ⟨found, stored, _⟩)
          · exact absurd above short
          · rw [tree] at stored
            cases stored
    | some root =>
        cases arrived : root.reach (base.drop o.keyLevelNodes) with
        | none =>
            simp only [arrived, Option.map_none]
            refine ⟨fun _ => Or.inr ⟨root, tree, Or.inl arrived⟩, fun _ => ⟨?_, fun _ _ => rfl⟩⟩
            intro step listed
            cases listed
        | some last =>
            simp only [arrived, Option.map_some]
            constructor
            · intro stays
              refine Or.inr ⟨root, tree, Or.inr fun missing => ?_⟩
              refine absurd (stays.absent deep ?_) (steps_ne_nil_of_deep o storage rounds now search
                ⟨nodeRefOf base, getTreeCurrentSerializedValue last lookupTime, last⟩
                (by rw [level]; exact deep))
              rw [NodeStored, tree]
              exact fun present => present missing
            · rintro (above | ⟨found, stored, node⟩)
              · exact absurd above short
              · rw [tree] at stored
                obtain rfl := Option.some.inj stored
                have present : root.sub (base.drop o.keyLevelNodes) ≠ none := by
                  rcases node with missing | present
                  · rw [arrived] at missing
                    cases missing
                  · exact present
                refine ⟨?_, fun _ missing => ?_⟩
                · have within := within_of_deep o storage rounds now search
                    ⟨nodeRefOf base, getTreeCurrentSerializedValue last lookupTime, last⟩
                    (by rw [level]; exact deep)
                  rw [keys] at within
                  exact within
                · rw [NodeStored, tree] at missing
                  exact absurd present missing

end

end TreeKeyCache
