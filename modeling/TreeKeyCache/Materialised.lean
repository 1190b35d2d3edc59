import TreeKeyCache.AsyncTraversal
import TreeKeyCache.Presence
import Mathlib.Data.List.Sort

/-! # The materialised tree

The asynchronous traversals read a tree that is spread over storage keys.  `materialised` is
that tree in one piece, and the traversals list it as the synchronous ones list a tree in
memory: an `AsyncQueue` with iterators in it, whose size is not the number of its items, hands
out its contents as a queue does. -/
set_option autoImplicit false
namespace TreeKeyCache

variable {T R A B : Type}

/-! ## What the lists hold -/

namespace AsyncSimpleList

def order : AsyncSimpleList A → Worklist.Order
  | queue _ _ => .fifo
  | stack _ => .lifo

def nodeContents : QueueNode A → List A
  | .value a => [a]
  | .iterator rest => rest.items

/-- The items still to be popped, in that order. -/
def contents : AsyncSimpleList A → List A
  | queue nodes _ => nodes.flatMap nodeContents
  | stack items => items

/-- The size of a queue is at least the number of its nodes, and its iterators do not throw. -/
def Sound : AsyncSimpleList A → Prop
  | queue nodes size => nodes.length ≤ size ∧ ∀ rest, .iterator rest ∈ nodes → rest.error = none
  | stack _ => True

theorem popQueue_sound : ∀ (nodes : List (QueueNode A)) (size : Nat), (queue nodes size).Sound →
    match (queue nodes size).contents with
    | [] => ∃ list, popQueue nodes size = .ok (none, list)
    | a :: later => ∃ nodes' size', popQueue nodes size = .ok (some a, queue nodes' size') ∧
        (queue nodes' size').contents = later ∧ (queue nodes' size').Sound := by
  intro nodes
  induction nodes with
  | nil => exact fun size _ => ⟨_, rfl⟩
  | cons first nodes ih =>
      intro size sound
      obtain ⟨large, quiet⟩ := sound
      rw [List.length_cons] at large
      have quietLater : ∀ rest, .iterator rest ∈ nodes → rest.error = none :=
        fun rest member => quiet rest (List.mem_cons_of_mem _ member)
      cases first with
      | value a => exact ⟨nodes, size - 1, rfl, rfl, by omega, quietLater⟩
      | iterator rest =>
          obtain ⟨items, error⟩ := rest
          have noError : error = none := quiet _ List.mem_cons_self
          rw [noError]
          cases items with
          | nil => exact ih size ⟨by omega, quietLater⟩
          | cons a items =>
              refine ⟨.iterator ⟨items, none⟩ :: nodes, size, rfl, rfl, ?_, ?_⟩
              · rw [List.length_cons]
                exact large
              · intro rest member
                rcases List.mem_cons.mp member with same | later
                · rw [QueueNode.iterator.inj same]
                · exact quietLater rest later

theorem pop_sound (list : AsyncSimpleList A) (sound : list.Sound) :
    match list.contents with
    | [] => ∃ list', list.pop = .ok (none, list')
    | a :: later => ∃ list', list.pop = .ok (some a, list') ∧ list'.contents = later ∧
        list'.Sound ∧ list'.order = list.order := by
  cases list with
  | stack items =>
      cases items with
      | nil => exact ⟨_, rfl⟩
      | cons a items => exact ⟨_, rfl, rfl, trivial, rfl⟩
  | queue nodes size =>
      have popped := popQueue_sound nodes size sound
      split at popped
      · exact popped
      · obtain ⟨nodes', size', done, held, sound'⟩ := popped
        exact ⟨_, done, held, sound', rfl⟩

theorem contents_of_length_eq_zero (list : AsyncSimpleList A) (sound : list.Sound)
    (empty : list.length = 0) : list.contents = [] := by
  cases list with
  | stack items => exact List.length_eq_zero_iff.mp empty
  | queue nodes size =>
      have none : nodes = [] := by
        apply List.length_eq_zero_iff.mp
        have large := sound.1
        change size = 0 at empty
        omega
      rw [none]
      rfl

theorem push_order (list : AsyncSimpleList A) (a : A) : (list.push a).order = list.order := by
  cases list <;> rfl

theorem push_contents (list : AsyncSimpleList A) (a : A) :
    (list.push a).contents = list.order.push list.contents [a] := by
  cases list with
  | queue nodes size => exact List.flatMap_append
  | stack items => rfl

theorem push_sound (list : AsyncSimpleList A) (a : A) (sound : list.Sound) : (list.push a).Sound := by
  cases list with
  | stack items => trivial
  | queue nodes size =>
      refine ⟨?_, ?_⟩
      · rw [List.length_append, List.length_singleton]
        exact Nat.succ_le_succ sound.1
      · intro rest member
        rcases List.mem_append.mp member with old | new
        · exact sound.2 rest old
        · cases List.mem_singleton.mp new

theorem pushIterable_sound (list : AsyncSimpleList A) (iterable : Yielded A) (sound : list.Sound)
    (quiet : iterable.error = none) :
    ∃ list', list.pushIterable iterable = .ok list' ∧
      list'.contents = list.order.push list.contents iterable.items ∧ list'.Sound ∧
      list'.order = list.order := by
  cases list with
  | stack items =>
      refine ⟨stack (iterable.items.reverse ++ items), ?_, rfl, trivial, rfl⟩
      rw [pushIterable, quiet]
  | queue nodes size =>
      refine ⟨_, rfl, ?_, ⟨?_, ?_⟩, rfl⟩
      · change (nodes ++ [QueueNode.iterator iterable]).flatMap nodeContents = _
        rw [List.flatMap_append, List.flatMap_singleton]
        rfl
      · rw [List.length_append, List.length_singleton]
        exact Nat.succ_le_succ sound.1
      · intro rest member
        rcases List.mem_append.mp member with old | new
        · exact sound.2 rest old
        · rw [QueueNode.iterator.inj (List.mem_singleton.mp new)]
          exact quiet

theorem foldl_push_contents (items : List A) : ∀ list : AsyncSimpleList A,
    (items.foldl (fun list a => list.push a) list).contents = list.order.push list.contents items ∧
      (items.foldl (fun list a => list.push a) list).order = list.order := by
  induction items with
  | nil =>
      intro list
      refine ⟨?_, rfl⟩
      cases list with
      | queue nodes size => exact (List.append_nil _).symm
      | stack items => rfl
  | cons a items ih =>
      intro list
      obtain ⟨held, same⟩ := ih (list.push a)
      rw [List.foldl_cons]
      refine ⟨?_, same.trans (list.push_order a)⟩
      rw [held, push_order, push_contents, Worklist.Order.push_append]
      rfl

theorem foldl_push_sound (items : List A) : ∀ list : AsyncSimpleList A, list.Sound →
    (items.foldl (fun list a => list.push a) list).Sound := by
  induction items with
  | nil => exact fun list sound => sound
  | cons a items ih => exact fun list sound => ih _ (list.push_sound a sound)

end AsyncSimpleList

/-! ## The tree in one piece -/

/-- The tree of the storage below a key level node, `n` levels above the entries that hold
trees. -/
def materialised (o : Options T R) (get : String → Option R)
    (getChildren : Option String → List String) : Nat → Option ChainedObject → Option R → Tree R
  | 0, _, value => .mk value none none
  | n + 1, nodeRef, value =>
      .mk value none (some ((getChildren (nodeRef.map buildKey)).filterMap fun key =>
        let childRef := ChainedObject.ofParent key
          ((nodeRef.map ChainedObject.level).getD 0 + 1) nodeRef
        if n = 0 then
          ((get (buildKey childRef)).bind (deserializeTree o)).map fun tree => (key, some tree)
        else some (key, some (materialised o get getChildren n (some childRef)
          (get (buildKey childRef))))))

section
variable (o : Options T R) (get : String → Option R) (getChildren : Option String → List String)

/-- Every entry that a node of level `keyLevelNodes` has decodes. -/
def TreesDecode : Prop :=
  ∀ keys : List String, keys.length = o.keyLevelNodes → ∀ r, get (joinKeys keys) = some r →
    ∃ tree, o.treeSerializer.deserialize r = .ok tree

def AsyncTreeRef.materialise (ref : AsyncTreeRef R) : Tree R :=
  materialised o get getChildren (o.keyLevelNodes - ref.level) ref.nodeRef ref.value

def AnyTree.materialise : AnyTree R → Tree R
  | sync tree => tree
  | async ref => ref.materialise o get getChildren

/-- A storage node is above the entries that hold trees, and it has a key for each level. -/
def AnyTree.Ready : AnyTree R → Prop
  | sync _ => True
  | async ref => ref.level < o.keyLevelNodes ∧
      ∀ nodeRef, ref.nodeRef = some nodeRef → nodeRef.keys.length = nodeRef.level

def AnyTree.kids (storage : ReadStorage R) : AnyTree R → List (String × AnyTree R)
  | sync tree => tree.kids.map fun (key, child) => (key, .sync child)
  | async ref => (ref.children o storage).items

theorem collect_ok (f : B → Except Err (Option A)) (g : B → Option A) : ∀ list : List B,
    (∀ b ∈ list, f b = .ok (g b)) → Yielded.collect f list = ⟨list.filterMap g, none⟩ := by
  intro list
  induction list with
  | nil => exact fun _ => rfl
  | cons b rest ih =>
      intro all
      have later := ih fun b' member => all b' (List.mem_cons_of_mem _ member)
      rw [Yielded.collect, all b List.mem_cons_self, List.filterMap_cons]
      cases g b with
      | none => exact later
      | some a =>
          simp only [later]
          rfl

/-- What a child is, when its entry decodes. -/
def AsyncTreeRef.foundChild (ref : AsyncTreeRef R) (key : String) : Option (String × AnyTree R) :=
  let childRef := ChainedObject.ofParent key (ref.level + 1) ref.nodeRef
  if ref.level + 1 < o.keyLevelNodes then
    some (key, .async ⟨some childRef, get (buildKey childRef)⟩)
  else ((get (buildKey childRef)).bind (deserializeTree o)).map fun tree => (key, .sync tree)

theorem keys_ofParent_length (key : String) (parent : Option ChainedObject)
    (spelled : ∀ ref, parent = some ref → ref.keys.length = ref.level) :
    (ChainedObject.ofParent key ((parent.map ChainedObject.level).getD 0 + 1) parent).keys.length =
      (parent.map ChainedObject.level).getD 0 + 1 := by
  cases parent with
  | none => rfl
  | some ref =>
      rw [ChainedObject.ofParent, ChainedObject.keys, List.length_append, List.length_singleton,
        spelled ref rfl]
      rfl

variable {o get} in
theorem AsyncTreeRef.children_eq (decode : TreesDecode o get) (ref : AsyncTreeRef R)
    (ready : (AnyTree.async ref).Ready o) :
    ref.children o ⟨get, some getChildren⟩ =
      ⟨(getChildren (ref.nodeRef.map buildKey)).filterMap (ref.foundChild o get), none⟩ := by
  apply collect_ok
  intro key _
  rw [AsyncTreeRef.childAt, AsyncTreeRef.foundChild]
  by_cases keyLevel : ref.level + 1 < o.keyLevelNodes
  · rw [if_pos keyLevel, if_pos keyLevel]
  · rw [if_neg keyLevel, if_neg keyLevel]
    have spelled := keys_ofParent_length key ref.nodeRef ready.2
    have level := ready.1
    dsimp only
    cases found : get (buildKey (ChainedObject.ofParent key (ref.level + 1) ref.nodeRef)) with
    | none => rfl
    | some serialized =>
        rw [buildKey_eq] at found
        obtain ⟨tree, decoded⟩ := decode _ (spelled.trans (by
          change ref.level + 1 = _
          omega)) serialized found
        simp only [if_neg (show ¬ o.keyLevelNodes < ref.level + 1 by omega), decoded,
          Option.bind_some, deserializeTree]
        rfl

variable {o get} in
theorem AsyncTreeRef.ready_foundChild (ref : AsyncTreeRef R) (ready : (AnyTree.async ref).Ready o)
    (key : String) (found : String × AnyTree R) (listed : ref.foundChild o get key = some found) :
    found.2.Ready o := by
  rw [AsyncTreeRef.foundChild] at listed
  split at listed
  · rename_i keyLevel
    obtain rfl := Option.some.inj listed
    refine ⟨?_, ?_⟩
    · change ((ChainedObject.ofParent key (ref.level + 1) ref.nodeRef).level) < _
      rw [ChainedObject.level_ofParent]
      exact keyLevel
    · intro nodeRef same
      obtain rfl := Option.some.inj same
      rw [ChainedObject.level_ofParent]
      exact keys_ofParent_length key ref.nodeRef ready.2
  · obtain ⟨tree, _, rfl⟩ := Option.map_eq_some_iff.mp listed
    trivial

variable {o get} in
theorem AsyncTreeRef.kids_materialise (ref : AsyncTreeRef R) (ready : (AnyTree.async ref).Ready o) :
    (ref.materialise o get getChildren).kids =
      ((getChildren (ref.nodeRef.map buildKey)).filterMap (ref.foundChild o get)).map
        fun (key, child) => (key, child.materialise o get getChildren) := by
  obtain ⟨n, levels⟩ : ∃ n, o.keyLevelNodes - ref.level = n + 1 :=
    ⟨o.keyLevelNodes - ref.level - 1, by have level := ready.1; omega⟩
  rw [AsyncTreeRef.materialise, levels, materialised, Tree.kids]
  simp only [Tree.children_mk, Option.getD_some, List.filterMap_filterMap, List.map_filterMap]
  apply List.filterMap_congr
  intro key _
  rw [AsyncTreeRef.foundChild]
  by_cases last : n = 0
  · rw [if_pos last, if_neg (by omega)]
    change Option.bind (Option.map _ ((get (buildKey (ChainedObject.ofParent key (ref.level + 1)
      ref.nodeRef))).bind _)) _ = _
    cases (get (buildKey (ChainedObject.ofParent key (ref.level + 1) ref.nodeRef))).bind
      (deserializeTree o) <;> rfl
  · rw [if_neg last, if_pos (by omega)]
    have below : o.keyLevelNodes - (AsyncTreeRef.mk (R := R) (some (ChainedObject.ofParent key
        (ref.level + 1) ref.nodeRef)) (get (buildKey (ChainedObject.ofParent key (ref.level + 1)
          ref.nodeRef)))).level = n := by
      rw [AsyncTreeRef.level, Option.map_some, Option.getD_some, ChainedObject.level_ofParent]
      omega
    simp only [Option.bind_some, Option.map_some, AnyTree.materialise, AsyncTreeRef.materialise, below]
    rfl

variable {o get} in
theorem AnyTree.kids_materialise (decode : TreesDecode o get) (tree : AnyTree R)
    (ready : tree.Ready o) :
    (tree.materialise o get getChildren).kids =
      (tree.kids o ⟨get, some getChildren⟩).map
        fun (key, child) => (key, child.materialise o get getChildren) := by
  cases tree with
  | sync tree =>
      rw [AnyTree.kids, List.map_map]
      exact (List.map_id _).symm
  | async ref =>
      rw [AnyTree.kids, AsyncTreeRef.children_eq getChildren decode ref ready]
      exact ref.kids_materialise getChildren ready

variable {o get} in
theorem AnyTree.ready_kids (decode : TreesDecode o get) (tree : AnyTree R) (ready : tree.Ready o)
    (found : String × AnyTree R) (listed : found ∈ tree.kids o ⟨get, some getChildren⟩) :
    found.2.Ready o := by
  cases tree with
  | sync tree =>
      obtain ⟨child, _, rfl⟩ := List.mem_map.mp listed
      trivial
  | async ref =>
      rw [AnyTree.kids, AsyncTreeRef.children_eq getChildren decode ref ready] at listed
      obtain ⟨key, _, made⟩ := List.mem_filterMap.mp listed
      exact ref.ready_foundChild ready key found made

/-! ## Pre-order -/

/-- The entries that an entry leads to. -/
def AnyPending.next (storage : ReadStorage R) (entry : AnyPending R) : List (AnyPending R) :=
  (entry.treeRef.kids o storage).map entry.child

/-- The entry over the tree in one piece. -/
def AnyPending.materialise (entry : AnyPending R) : Pending R :=
  ⟨entry.treeRef.materialise o get getChildren, entry.level, entry.key, entry.parentRef⟩

theorem foldl_push_children (entry : AnyPending R) : ∀ (entries : TreeChildren R)
    (list : AsyncSimpleList (AnyPending R)),
    entries.foldl (fun list (nextKey, nextValue) =>
        match nextValue with
        | none => list
        | some nextTree => list.push (entry.child (nextKey, .sync nextTree))) list =
      (((entries.filterMap fun (key, child) => child.map fun tree => (key, tree)).map
        fun (key, child) => ((key, .sync child) : String × AnyTree R)).map entry.child).foldl
          (fun list a => list.push a) list := by
  intro entries
  induction entries with
  | nil => exact fun list => rfl
  | cons first rest ih =>
      intro list
      obtain ⟨key, child⟩ := first
      cases child with
      | none => exact ih list
      | some tree => exact ih _

variable {o get} in
theorem AnyPending.pushChildren_sound (decode : TreesDecode o get) (entry : AnyPending R)
    (ready : entry.treeRef.Ready o) (list : AsyncSimpleList (AnyPending R)) (sound : list.Sound) :
    ∃ list', entry.pushChildren o ⟨get, some getChildren⟩ list = .ok list' ∧
      list'.contents = list.order.push list.contents (entry.next o ⟨get, some getChildren⟩) ∧
      list'.Sound ∧ list'.order = list.order := by
  obtain ⟨treeRef, level, key, parentRef⟩ := entry
  cases treeRef with
  | sync tree =>
      have pushed := foldl_push_children ⟨.sync tree, level, key, parentRef⟩
        (tree.children.getD []) list
      obtain ⟨held, same⟩ := AsyncSimpleList.foldl_push_contents (AnyPending.next o
        ⟨get, some getChildren⟩ ⟨.sync tree, level, key, parentRef⟩) list
      exact ⟨_, congrArg Except.ok pushed, held, AsyncSimpleList.foldl_push_sound _ list sound, same⟩
  | async ref =>
      apply AsyncSimpleList.pushIterable_sound list _ sound
      rw [Yielded.map, AsyncTreeRef.children_eq getChildren decode ref ready]

variable {o get} in
theorem asyncVisit_eq (decode : TreesDecode o get) : ∀ (rounds : Nat)
    (list : AsyncSimpleList (AnyPending R)), list.Sound →
      (∀ entry ∈ list.contents, entry.treeRef.Ready o) →
      asyncVisit o ⟨get, some getChildren⟩ rounds list =
        ⟨Worklist.visit list.order (AnyPending.next o ⟨get, some getChildren⟩) rounds
          list.contents, none⟩ := by
  intro rounds
  induction rounds with
  | zero => exact fun list _ _ => rfl
  | succ rounds ih =>
      intro list sound ready
      have popped := list.pop_sound sound
      rw [asyncVisit]
      by_cases empty : list.length = 0
      · rw [if_pos empty, list.contents_of_length_eq_zero sound empty]
        rfl
      · rw [if_neg empty]
        cases held : list.contents with
        | nil =>
            rw [held] at popped
            obtain ⟨list', done⟩ := popped
            rw [done]
            rfl
        | cons entry later =>
            rw [held] at popped ready
            obtain ⟨list', done, rest, sound', sameOrder⟩ := popped
            have entryReady := ready entry List.mem_cons_self
            obtain ⟨list'', pushed, contents, sound'', sameOrder'⟩ :=
              entry.pushChildren_sound getChildren decode entryReady list' sound'
            have readyLater : ∀ next ∈ list''.contents, next.treeRef.Ready o := by
              intro next listed
              rw [contents, Worklist.Order.mem_push, rest] at listed
              rcases listed with old | new
              · exact ready next (List.mem_cons_of_mem _ old)
              · obtain ⟨found, member, rfl⟩ := List.mem_map.mp new
                exact entry.treeRef.ready_kids getChildren decode entryReady found member
            rw [done]
            simp only [pushed, ih list'' sound'' readyLater, contents, rest, sameOrder', sameOrder]
            rfl

variable {o get} in
theorem AnyPending.next_materialise (decode : TreesDecode o get) (entry : AnyPending R)
    (ready : entry.treeRef.Ready o) :
    (entry.materialise o get getChildren).next =
      (entry.next o ⟨get, some getChildren⟩).map (AnyPending.materialise o get getChildren) := by
  have kids := entry.treeRef.kids_materialise getChildren decode ready
  rw [Pending.next_eq, AnyPending.next, List.map_map]
  change (entry.treeRef.materialise o get getChildren).kids.map _ = _
  rw [kids, List.map_map]
  rfl

def TraversalItem.shown (item : TraversalItem R) : ChainedObject × Option R := ⟨item.ref, item.value⟩

def AnyTraversalItem.shown (item : AnyTraversalItem R) : ChainedObject × Option R :=
  ⟨item.ref, item.value⟩

theorem currentSerializedValue_materialise (now : ℚ) (tree : AnyTree R) :
    getTreeCurrentSerializedValue (tree.materialise o get getChildren) now =
      tree.currentSerializedValue now := by
  cases tree with
  | sync tree => rfl
  | async ref =>
      rw [AnyTree.materialise, AsyncTreeRef.materialise]
      cases o.keyLevelNodes - ref.level <;> rfl

theorem shown_item (now : ℚ) (entry : AnyPending R) :
    ((entry.materialise o get getChildren).item now).map TraversalItem.shown =
      (entry.item now).map AnyTraversalItem.shown := by
  obtain ⟨treeRef, level, key, parentRef⟩ := entry
  cases key with
  | none => rfl
  | some key =>
      exact congrArg (fun value => some (ChainedObject.ofParent key level parentRef, value))
        (currentSerializedValue_materialise o get getChildren now treeRef)

variable {o get} in
theorem asyncTreePreOrderTraversal_eq (decode : TreesDecode o get) (rounds : Nat) (now : ℚ)
    (tree : AnyTree R) (ready : tree.Ready o) (list : AsyncSimpleList (AnyPending R))
    (sound : list.Sound) (empty : list.contents = []) (startParentRef : Option ChainedObject)
    (enough : (tree.materialise o get getChildren).size ≤ rounds) :
    (asyncTreePreOrderTraversal o ⟨get, some getChildren⟩ rounds now tree list
        startParentRef).error = none ∧
      (asyncTreePreOrderTraversal o ⟨get, some getChildren⟩ rounds now tree list
        startParentRef).items.map AnyTraversalItem.shown =
      (treePreOrderTraversal list.order now (tree.materialise o get getChildren)
        startParentRef).map TraversalItem.shown := by
  have start : ∀ entry ∈ (list.push ⟨tree, (startParentRef.map ChainedObject.level).getD 0, none,
      startParentRef⟩).contents, entry.treeRef.Ready o := by
    intro entry listed
    rw [list.push_contents, Worklist.Order.mem_push, empty] at listed
    rcases listed with old | new
    · cases old
    · rw [List.mem_singleton.mp new]
      exact ready
  have contents : (list.push ⟨tree, (startParentRef.map ChainedObject.level).getD 0, none,
      startParentRef⟩).contents = [⟨tree, (startParentRef.map ChainedObject.level).getD 0, none,
        startParentRef⟩] := by
    rw [list.push_contents, empty]
    cases list.order <;> rfl
  have visited := asyncVisit_eq getChildren decode rounds _ (list.push_sound _ sound) start
  rw [contents, list.push_order] at visited
  rw [asyncTreePreOrderTraversal, visited, treePreOrderTraversal]
  refine ⟨rfl, ?_⟩
  have inStep := Worklist.visit_map list.order (AnyPending.next o ⟨get, some getChildren⟩)
    Pending.next (AnyPending.materialise o get getChildren) (fun entry => entry.treeRef.Ready o)
    (fun entry entryReady child listed => by
      obtain ⟨found, member, rfl⟩ := List.mem_map.mp listed
      exact entry.treeRef.ready_kids getChildren decode entryReady found member)
    (fun entry entryReady => entry.next_materialise getChildren decode entryReady) rounds
    [⟨tree, (startParentRef.map ChainedObject.level).getD 0, none, startParentRef⟩]
    (fun entry listed => by
      rw [List.mem_singleton.mp listed]
      exact ready)
  have fuel := Worklist.visit_enough list.order Pending.next (fun entry => entry.treeRef.size)
    Pending.size_next (tree.materialise o get getChildren).size rounds
    [startEntry (tree.materialise o get getChildren) startParentRef]
    (by simp [startEntry]) (by simpa [startEntry] using enough)
  have same : Worklist.visit list.order Pending.next (tree.materialise o get getChildren).size
      [startEntry (tree.materialise o get getChildren) startParentRef] =
        (Worklist.visit list.order (AnyPending.next o ⟨get, some getChildren⟩) rounds
          [⟨tree, (startParentRef.map ChainedObject.level).getD 0, none, startParentRef⟩]).map
            (AnyPending.materialise o get getChildren) := fuel.trans inStep
  dsimp only
  rw [List.map_append, List.map_append, same, List.map_filterMap, List.map_filterMap,
    List.filterMap_map]
  congr 1
  · cases startParentRef with
    | none => rfl
    | some ref =>
        exact congrArg (fun value => [(ChainedObject.ofParent ref.key ref.level ref.parentRef, value)])
          (currentSerializedValue_materialise o get getChildren now tree).symm
  · apply List.filterMap_congr
    intro entry _
    exact (shown_item o get getChildren now entry).symm

/-! ## Post-order -/

theorem postOrderEntries_eq (now : ℚ) (node : Option ChainedObject) : ∀ entries : TreeChildren R,
    postOrderEntries now entries node = (entries.filterMap fun (key, child) =>
      child.map fun tree => (key, tree)).flatMap fun (key, tree) =>
        treePostOrderTraversalRecursive now tree node (some key) := by
  intro entries
  induction entries with
  | nil => rfl
  | cons first rest ih =>
      obtain ⟨key, child⟩ := first
      cases child with
      | none => exact ih
      | some tree => exact congrArg (treePostOrderTraversalRecursive now tree node (some key) ++ ·) ih

theorem treePostOrderTraversalRecursive_eq (now : ℚ) (tree : Tree R)
    (parentRef : Option ChainedObject) (key : Option String) :
    treePostOrderTraversalRecursive now tree parentRef key =
      (tree.kids.flatMap fun (nextKey, nextTree) => treePostOrderTraversalRecursive now nextTree
        ((postOrderRef parentRef key).or parentRef) (some nextKey)) ++
      ((postOrderRef parentRef key).map fun ref =>
        ⟨ref, getTreeCurrentSerializedValue tree now, tree⟩).toList := by
  obtain ⟨v, d, children⟩ := tree
  cases children with
  | none => rw [treePostOrderTraversalRecursive]; rfl
  | some entries =>
      rw [treePostOrderTraversalRecursive, postOrderEntries_eq]
      rfl

theorem yieldAll_ok (f : B → Yielded A) : ∀ list : List B, (∀ b ∈ list, (f b).error = none) →
    yieldAll f list = ⟨list.flatMap fun b => (f b).items, none⟩ := by
  intro list
  induction list with
  | nil => exact fun _ => rfl
  | cons b rest ih =>
      intro all
      have later := ih fun b' member => all b' (List.mem_cons_of_mem _ member)
      rw [yieldAll, later, Yielded.append, all b List.mem_cons_self]
      rfl

theorem Tree.height_kid {tree child : Tree R} {key : String} (listed : (key, child) ∈ tree.kids) :
    child.height < tree.height := by
  obtain ⟨⟨key', found⟩, member, made⟩ := List.mem_filterMap.mp listed
  obtain ⟨tree', rfl, same⟩ := Option.map_eq_some_iff.mp made
  obtain ⟨rfl, rfl⟩ := Prod.mk.inj same
  exact Tree.height_child member

theorem Tree.heightEntries_le : ∀ entries : TreeChildren R,
    (∀ key child, (key, some child) ∈ entries → child.height < child.size) →
      Tree.heightEntries entries ≤ Tree.sizeEntries entries := by
  intro entries
  induction entries with
  | nil => exact fun _ => Nat.le_refl _
  | cons first rest ih =>
      intro lower
      have later := ih fun key child member => lower key child (List.mem_cons_of_mem _ member)
      obtain ⟨key, child⟩ := first
      cases child with
      | none => exact later
      | some tree =>
          have here := lower key tree List.mem_cons_self
          rw [Tree.heightEntries, Tree.sizeEntries]
          omega

theorem Tree.height_lt_size (tree : Tree R) : tree.height < tree.size := by
  induction tree using Tree.induct with
  | node v d c ih =>
      cases c with
      | none => exact Nat.zero_lt_one
      | some entries =>
          have bound := Tree.heightEntries_le entries (ih entries rfl)
          rw [Tree.height, Tree.size]
          omega

theorem asyncTreePostOrderTraversalRecursive_kids (storage : ReadStorage R) (now : ℚ) (rounds : Nat)
    (tree : AnyTree R) (parentRef : Option ChainedObject) (key : Option String)
    (quiet : ∀ ref, tree = .async ref → (ref.children o storage).error = none)
    (below : ∀ found ∈ tree.kids o storage, (asyncTreePostOrderTraversalRecursive o storage now
      rounds found.2 ((postOrderRef parentRef key).or parentRef) (some found.1)).error = none) :
    asyncTreePostOrderTraversalRecursive o storage now (rounds + 1) tree parentRef key =
      ⟨(tree.kids o storage).flatMap (fun found => (asyncTreePostOrderTraversalRecursive o storage
          now rounds found.2 ((postOrderRef parentRef key).or parentRef) (some found.1)).items) ++
        ((postOrderRef parentRef key).map fun ref =>
          ⟨ref, tree.currentSerializedValue now, tree⟩).toList, none⟩ := by
  cases tree with
  | async ref =>
      rw [AnyTree.kids] at below
      rw [asyncTreePostOrderTraversalRecursive, yieldAll_ok _ _ below, quiet ref rfl]
      rfl
  | sync tree =>
      have kids : (tree.children.getD []).filterMap (fun (nextKey, nextTree) =>
          nextTree.map fun tree => ((nextKey, .sync tree) : String × AnyTree R)) =
            (AnyTree.sync tree).kids o storage := by
        rw [AnyTree.kids, Tree.kids, List.map_filterMap]
        apply List.filterMap_congr
        intro found _
        obtain ⟨key, child⟩ := found
        cases child <;> rfl
      rw [asyncTreePostOrderTraversalRecursive]
      dsimp only
      rw [kids, yieldAll_ok _ _ below]
      rfl

variable {o get} in
theorem asyncTreePostOrderTraversalRecursive_eq (decode : TreesDecode o get) (now : ℚ) :
    ∀ (rounds : Nat) (tree : AnyTree R) (parentRef : Option ChainedObject) (key : Option String),
      tree.Ready o → (tree.materialise o get getChildren).height < rounds →
      (asyncTreePostOrderTraversalRecursive o ⟨get, some getChildren⟩ now rounds tree parentRef
          key).error = none ∧
        (asyncTreePostOrderTraversalRecursive o ⟨get, some getChildren⟩ now rounds tree parentRef
          key).items.map AnyTraversalItem.shown =
        (treePostOrderTraversalRecursive now (tree.materialise o get getChildren) parentRef
          key).map TraversalItem.shown := by
  intro rounds
  induction rounds with
  | zero => exact fun tree parentRef key _ high => absurd high (Nat.not_lt_zero _)
  | succ rounds ih =>
      intro tree parentRef key ready high
      have kids := tree.kids_materialise getChildren decode ready
      have below : ∀ found ∈ tree.kids o ⟨get, some getChildren⟩, _ := fun found listed =>
        ih found.2 ((postOrderRef parentRef key).or parentRef) (some found.1)
          (tree.ready_kids getChildren decode ready found listed) (by
            have member : (found.1, found.2.materialise o get getChildren) ∈
                (tree.materialise o get getChildren).kids := by
              rw [kids]
              exact List.mem_map_of_mem listed
            have lower := Tree.height_kid member
            omega)
      have quiet : ∀ ref, tree = .async ref →
          (ref.children o ⟨get, some getChildren⟩).error = none := by
        intro ref same
        rw [same] at ready
        rw [AsyncTreeRef.children_eq getChildren decode ref ready]
      rw [asyncTreePostOrderTraversalRecursive_kids o _ now rounds tree parentRef key quiet
        fun found listed => (below found listed).1]
      refine ⟨rfl, ?_⟩
      rw [treePostOrderTraversalRecursive_eq, kids, List.map_append, List.map_append]
      congr 1
      · rw [List.map_flatMap, List.map_flatMap, List.flatMap_map]
        apply List.flatMap_congr
        intro found listed
        exact (below found listed).2
      · cases postOrderRef parentRef key with
        | none => rfl
        | some ref =>
            exact congrArg (fun value => [(ref, value)])
              (currentSerializedValue_materialise o get getChildren now tree).symm

/-! ## The four searches -/

variable {o get} in
theorem Search.async_eq (decode : TreesDecode o get) (rounds : Nat) (now : ℚ) (tree : AnyTree R)
    (ready : tree.Ready o) (parentRef : Option ChainedObject)
    (enough : (tree.materialise o get getChildren).size ≤ rounds) (search : Search) :
    (search.async o ⟨get, some getChildren⟩ rounds now tree parentRef).error = none ∧
      (search.async o ⟨get, some getChildren⟩ rounds now tree parentRef).items.map
          AnyTraversalItem.shown =
        (search.sync now (tree.materialise o get getChildren) parentRef).map TraversalItem.shown := by
  have postOrder : (asyncTreePostOrderTraversal o ⟨get, some getChildren⟩ rounds now tree
        parentRef).error = none ∧
      (asyncTreePostOrderTraversal o ⟨get, some getChildren⟩ rounds now tree parentRef).items.map
          AnyTraversalItem.shown =
        (treePostOrderTraversal now (tree.materialise o get getChildren) parentRef).map
          TraversalItem.shown := by
    have lower := Tree.height_lt_size (tree.materialise o get getChildren)
    obtain ⟨quiet, same⟩ := asyncTreePostOrderTraversalRecursive_eq getChildren decode now rounds tree
      parentRef none ready (by omega)
    rw [asyncTreePostOrderTraversal, Yielded.append, quiet, treePostOrderTraversal]
    refine ⟨rfl, ?_⟩
    dsimp only
    rw [List.map_append, List.map_append, same]
    congr 1
    cases parentRef with
    | none => rfl
    | some ref =>
        exact congrArg (fun value => [(ChainedObject.ofParent ref.key ref.level ref.parentRef, value)])
          (currentSerializedValue_materialise o get getChildren now tree).symm
  cases search with
  | preOrderBreadthFirst =>
      exact asyncTreePreOrderTraversal_eq getChildren decode rounds now tree ready (.queue [] 0)
        ⟨Nat.le_refl _, fun _ member => (nomatch member)⟩ rfl parentRef enough
  | preOrderDepthFirst =>
      exact asyncTreePreOrderTraversal_eq getChildren decode rounds now tree ready (.stack [])
        trivial rfl parentRef enough
  | postOrderBreadthFirst => exact postOrder
  | postOrderDepthFirst => exact postOrder

/-- The value of a key level node; the root has none. -/
def storedAt (base : List String) : Option R := if base = [] then none else get (joinKeys base)

/-- The reference a search over the storage starts from. -/
def baseRef (base : List String) : AsyncTreeRef R := ⟨chainOf base, storedAt get base⟩

/-- The storage below a key level node in one piece: what `getChildren` lists, expanded down to
the last level above the trees, with the decoded trees under it. -/
def storageTree (base : List String) : Tree R :=
  materialised o get getChildren (o.keyLevelNodes - base.length) (chainOf base) (storedAt get base)

theorem baseRef_ready (base : List String) (short : base.length < o.keyLevelNodes) :
    (AnyTree.async (baseRef get base)).Ready o := by
  have level : (baseRef get base).level = base.length := chainOf_level base
  refine ⟨by rw [level]; exact short, ?_⟩
  intro nodeRef found
  have nonempty : base ≠ [] := by
    intro empty
    rw [empty] at found
    cases found
  have same : nodeRef = nodeRefOf base := by
    change chainOf base = some nodeRef at found
    rw [chainOf_eq_some base nonempty] at found
    exact (Option.some.inj found).symm
  rw [same, nodeRefOf_keys base nonempty, nodeRefOf_level base nonempty]

theorem materialise_baseRef (base : List String) :
    (AnyTree.async (baseRef get base)).materialise o get getChildren =
      storageTree o get getChildren base := by
  rw [AnyTree.materialise, AsyncTreeRef.materialise,
    show (baseRef get base).level = base.length from chainOf_level base]
  rfl

variable {o get} in
/-- From a base above the tree level, or from the root when the base is empty, every search over
`AsyncTreeRef` ends without throwing and lists the storage as the same search lists it in one
piece. -/
theorem searches_list_storage_tree (decode : TreesDecode o get) (base : List String)
    (short : base.length < o.keyLevelNodes) (now : ℚ) (search : Search) (rounds : Nat)
    (enough : (storageTree o get getChildren base).size ≤ rounds) :
    (search.async o ⟨get, some getChildren⟩ rounds now (.async (baseRef get base))
        (chainOf base)).error = none ∧
      (search.async o ⟨get, some getChildren⟩ rounds now (.async (baseRef get base))
          (chainOf base)).items.map AnyTraversalItem.shown =
        (search.sync now (storageTree o get getChildren base) (chainOf base)).map
          TraversalItem.shown := by
  have tree : (AnyTree.async (baseRef get base)).materialise o get getChildren =
      storageTree o get getChildren base := by
    rw [AnyTree.materialise, AsyncTreeRef.materialise,
      show (baseRef get base).level = base.length from chainOf_level base]
    rfl
  rw [← tree] at enough ⊢
  exact Search.async_eq getChildren decode rounds now _ (baseRef_ready o get base short)
    (chainOf base) enough search

end

/-! ## The tree as an object

`getChildren` may list names in any order.  A JavaScript object enumerates the names that are
array indices first, in ascending order, and the others as they were added. -/

/-- The array index that a property name spells. -/
def arrayIndex (name : String) : Option Nat :=
  let digits := name.toList
  if digits ≠ [] ∧ digits.all Char.isDigit = true ∧ (digits.head? = some '0' → digits = ['0']) then
    let index := digits.foldl (fun index digit => 10 * index + (digit.toNat - '0'.toNat)) 0
    if index < 2 ^ 32 - 1 then some index else none
  else none

/-- The names as an object enumerates them when they are assigned in the order of the list. -/
def propertyOrder (names : List String) : List String :=
  ((names.filterMap fun name => (arrayIndex name).map fun index => (index, name)).insertionSort
      fun a b => a.1 ≤ b.1).map Prod.snd ++
    names.filter fun name => (arrayIndex name).isNone

example : propertyOrder ["10", "b", "9", "01", "4294967295", "0", "a", ""] =
    ["0", "9", "10", "b", "01", "4294967295", "a", ""] := by decide +kernel

theorem propertyOrder_of_no_index {names : List String}
    (plain : ∀ name ∈ names, arrayIndex name = none) : propertyOrder names = names := by
  have indices : (names.filterMap fun name =>
      (arrayIndex name).map fun index => (index, name)) = [] := by
    rw [List.filterMap_eq_nil_iff]
    intro name listed
    rw [plain name listed]
    rfl
  rw [propertyOrder, indices, List.insertionSort_nil, List.map_nil, List.nil_append,
    List.filter_eq_self]
  intro name listed
  rw [plain name listed]
  rfl

section
variable (o : Options T R) (get : String → Option R) (getChildren : Option String → List String)

/-- The storage below a key level node as one object of objects. -/
def objectTree (base : List String) : Tree R :=
  storageTree o get (fun parent => propertyOrder (getChildren parent)) base

/-- The paths that `getChildren` leads to from `base`. -/
inductive ListedFrom (base : List String) : List String → Prop
  | base : ListedFrom base base
  | child {path : List String} {key : String} :
      ListedFrom base path → key ∈ getChildren ((chainOf path).map buildKey) → ListedFrom base (path ++ [key])

variable {getChildren} in
theorem ListedFrom.trans {base middle path : List String} (first : ListedFrom getChildren base middle)
    (second : ListedFrom getChildren middle path) : ListedFrom getChildren base path := by
  induction second with
  | base => exact first
  | child _ listed ih => exact ih.child listed

/-- Above the tree level, the children below `base` are listed as an object enumerates them. -/
def ListedInOrder (keyLevelNodes : Nat) (base : List String) : Prop :=
  ∀ path, ListedFrom getChildren base path → path.length < keyLevelNodes →
    propertyOrder (getChildren ((chainOf path).map buildKey)) =
      getChildren ((chainOf path).map buildKey)

variable {getChildren} in
theorem materialised_congr {getChildren' : Option String → List String} : ∀ (n : Nat)
    (path : List String) (value : Option R),
    (∀ p, ListedFrom getChildren path p → p.length < path.length + n →
      getChildren' ((chainOf p).map buildKey) = getChildren ((chainOf p).map buildKey)) →
      materialised o get getChildren' n (chainOf path) value =
        materialised o get getChildren n (chainOf path) value := by
  intro n
  induction n with
  | zero => exact fun _ _ _ => rfl
  | succ n ih =>
      intro path value alike
      rw [materialised, materialised, alike path .base (by omega)]
      congr 2
      apply List.filterMap_congr
      intro key listed
      dsimp only
      by_cases last : n = 0
      · rw [if_pos last, if_pos last]
      · rw [if_neg last, if_neg last, chainOf_level, ← chainOf_append_singleton]
        congr 3
        apply ih
        intro p below short
        rw [List.length_append, List.length_singleton] at short
        exact alike p ((ListedFrom.base.child listed).trans below) (by omega)

variable {o get} in
/-- When the children are listed in the order in which an object enumerates them, every search
over `AsyncTreeRef` lists the storage as the same search lists it as an object. -/
theorem searches_list_object_tree (decode : TreesDecode o get) (base : List String)
    (short : base.length < o.keyLevelNodes)
    (inOrder : ListedInOrder getChildren o.keyLevelNodes base) (now : ℚ) (search : Search)
    (rounds : Nat) (enough : (objectTree o get getChildren base).size ≤ rounds) :
    (search.async o ⟨get, some getChildren⟩ rounds now (.async (baseRef get base))
        (chainOf base)).error = none ∧
      (search.async o ⟨get, some getChildren⟩ rounds now (.async (baseRef get base))
          (chainOf base)).items.map AnyTraversalItem.shown =
        (search.sync now (objectTree o get getChildren base) (chainOf base)).map
          TraversalItem.shown := by
  have same : objectTree o get getChildren base = storageTree o get getChildren base :=
    materialised_congr o get _ base _ fun path reached above => inOrder path reached (by omega)
  rw [same] at enough ⊢
  exact searches_list_storage_tree getChildren decode base short now search rounds enough

end

/-- The registry for the node `["a", "b"]`. -/
def oneChild : Option String → List String
  | none => ["a"]
  | some key => if key = "a" then ["b"] else []

theorem treesDecode_oneNode : TreesDecode (Text.plainOptions 2) (oneNode "x") := by
  intro keys _ r stored
  unfold oneNode at stored
  split at stored
  · obtain rfl := Option.some.inj stored
    exact ⟨.mk (some "x") none none, Text.decodeTree_encodeTree (.mk (some "x") none none) rfl⟩
  · cases stored

theorem breadth_first_search_lists_one_node :
    (Search.preOrderBreadthFirst.async (Text.plainOptions 2) ⟨oneNode "x", some oneChild⟩ 3 0
        (.async (baseRef (oneNode "x") [])) none).error = none ∧
      (Search.preOrderBreadthFirst.async (Text.plainOptions 2) ⟨oneNode "x", some oneChild⟩ 3 0
          (.async (baseRef (oneNode "x") [])) none).items.map AnyTraversalItem.shown =
        (Search.preOrderBreadthFirst.sync 0
          (objectTree (Text.plainOptions 2) (oneNode "x") oneChild []) none).map
          TraversalItem.shown := by
  apply searches_list_object_tree oneChild treesDecode_oneNode [] (by decide) _ 0 _ 3
  · decide +kernel
  · intro path _ _
    apply propertyOrder_of_no_index
    cases (chainOf path).map buildKey with
    | none => decide +kernel
    | some key =>
        unfold oneChild
        dsimp only
        split <;> decide +kernel

/-- Two names that are array indices, listed in descending order. -/
def descendingChildren : Option String → List String
  | none => ["2", "1"]
  | some _ => []

theorem searches_reorder_indices :
    2 ≤ (Text.plainOptions 2).keyLevelNodes ∧ TreesDecode (Text.plainOptions 2) (oneNode "x") ∧
      (∀ parent, (descendingChildren parent).Nodup) ∧
      (Search.preOrderBreadthFirst.async (Text.plainOptions 2)
          ⟨oneNode "x", some descendingChildren⟩ 3 0 (.async (baseRef (oneNode "x") [])) none).error =
        none ∧
      (Search.preOrderBreadthFirst.async (Text.plainOptions 2)
          ⟨oneNode "x", some descendingChildren⟩ 3 0 (.async (baseRef (oneNode "x") [])) none).items.map
            AnyTraversalItem.shown ≠
        (Search.preOrderBreadthFirst.sync 0
          (objectTree (Text.plainOptions 2) (oneNode "x") descendingChildren []) none).map
            TraversalItem.shown := by
  refine ⟨by decide, treesDecode_oneNode, fun parent => ?_, by decide +kernel, by decide +kernel⟩
  cases parent with
  | none => decide
  | some key => exact List.nodup_nil

end TreeKeyCache
