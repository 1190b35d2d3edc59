import TreeKeyCache.Traversal
import TreeKeyCache.Lookup

/-! # Traversals over the storage

`treePostOrderTraversal`, `AsyncTreeRef`, `AsyncQueue`, `AsyncStack`, the asynchronous
traversals and the four traversal methods (`utils/graphs/`, `internal/async-tree-ref.ts`,
`getTraversalIterable` and `getTraversalStepsIterable`), in single-version mode, over a storage
that answers with `get` and `getChildren`.  Generators are listed up to where they throw;
`rounds` bounds the iterations of a loop that no argument bounds. -/
set_option autoImplicit false
namespace TreeKeyCache

variable {T R A B : Type}

/-! ## Post-order on a tree in memory -/

/-- The item of a node, unless it is the one the traversal started from. -/
def postOrderRef (parentRef : Option ChainedObject) (key : Option String) : Option ChainedObject :=
  key.map fun key => .ofParent key ((parentRef.map ChainedObject.level).getD 0 + 1) parentRef

mutual
/-- The list that the source fills on the way is never read. -/
def treePostOrderTraversalRecursive (now : ℚ) :
    Tree R → Option ChainedObject → Option String → List (TraversalItem R)
  | .mk v d none, parentRef, key =>
      ((postOrderRef parentRef key).map fun ref =>
        ⟨ref, getTreeCurrentSerializedValue (.mk v d none) now, .mk v d none⟩).toList
  | .mk v d (some entries), parentRef, key =>
      postOrderEntries now entries ((postOrderRef parentRef key).or parentRef) ++
        ((postOrderRef parentRef key).map fun ref =>
          ⟨ref, getTreeCurrentSerializedValue (.mk v d (some entries)) now,
            .mk v d (some entries)⟩).toList

def postOrderEntries (now : ℚ) : TreeChildren R → Option ChainedObject → List (TraversalItem R)
  | [], _ => []
  | (_, none) :: rest, node => postOrderEntries now rest node
  | (nextKey, some nextTree) :: rest, node =>
      treePostOrderTraversalRecursive now nextTree node (some nextKey) ++
        postOrderEntries now rest node
end

def treePostOrderTraversal (now : ℚ) (treeRef : Tree R) (root : Option ChainedObject) :
    List (TraversalItem R) :=
  treePostOrderTraversalRecursive now treeRef root none ++
    (root.map fun ref => createTraversalItem ref.key ref.level ref.parentRef treeRef now).toList

def treePostOrderBreadthFirstSearch (now : ℚ) (tree : Tree R) (parentRef : Option ChainedObject) :
    List (TraversalItem R) :=
  treePostOrderTraversal now tree parentRef

def treePostOrderDepthFirstSearch (now : ℚ) (tree : Tree R) (parentRef : Option ChainedObject) :
    List (TraversalItem R) :=
  treePostOrderTraversal now tree parentRef

/-! ## Generators -/

/-- What a generator yields, and what it then throws. -/
structure Yielded (A : Type) where
  items : List A
  error : Option Err

namespace Yielded

def done : Yielded A := ⟨[], none⟩

def cons (a : A) (later : Yielded A) : Yielded A := ⟨a :: later.items, later.error⟩

def append (first : Yielded A) (later : Yielded A) : Yielded A :=
  match first.error with
  | some e => ⟨first.items, some e⟩
  | none => ⟨first.items ++ later.items, later.error⟩

/-- A loop over items that yields for some of them and may throw. -/
def collect (f : B → Except Err (Option A)) : List B → Yielded A
  | [] => done
  | b :: rest =>
      match f b with
      | .error e => ⟨[], some e⟩
      | .ok none => collect f rest
      | .ok (some a) => cons a (collect f rest)

end Yielded

/-! ## Trees that are read on demand -/

structure AsyncTreeRef (R : Type) where
  nodeRef : Option ChainedObject
  value : Option R

inductive AnyTree (R : Type) where
  | sync (tree : Tree R)
  | async (ref : AsyncTreeRef R)

structure AnyTraversalItem (R : Type) where
  ref : ChainedObject
  value : Option R
  treeRef : AnyTree R

/-- `getTreeCurrentSerializedValue`: an `AsyncTreeRef` has no deadline. -/
def AnyTree.currentSerializedValue (now : ℚ) : AnyTree R → Option R
  | sync tree => getTreeCurrentSerializedValue tree now
  | async ref => ref.value

def createAnyTraversalItem (key : String) (level : Nat) (parentRef : Option ChainedObject)
    (treeRef : AnyTree R) (now : ℚ) : AnyTraversalItem R :=
  ⟨.ofParent key level parentRef, treeRef.currentSerializedValue now, treeRef⟩

/-- The storage as the traversals see it; `getChildren` is optional. -/
structure ReadStorage (R : Type) where
  get : String → Option R
  getChildren : Option (Option String → List String)

namespace AsyncTreeRef

def level (ref : AsyncTreeRef R) : Nat := (ref.nodeRef.map ChainedObject.level).getD 0

def childAt (o : Options T R) (storage : ReadStorage R) (ref : AsyncTreeRef R) (item : String) :
    Except Err (Option (String × AnyTree R)) :=
  let traversalItem := ChainedObject.ofParent item (ref.level + 1) ref.nodeRef
  let value := storage.get (buildKey traversalItem)
  if ref.level + 1 < o.keyLevelNodes then
    .ok (some (item, .async ⟨some traversalItem, value⟩))
  else
    match value with
    | none => .ok none
    | some serialized =>
        if o.keyLevelNodes < ref.level + 1 then .error (.error "Something went wrong")
        else do
          let tree ← o.treeSerializer.deserialize serialized
          pure (some (item, .sync tree))

def children (o : Options T R) (storage : ReadStorage R) (ref : AsyncTreeRef R) :
    Yielded (String × AnyTree R) :=
  match storage.getChildren with
  | none =>
      ⟨[], some (.typeError "This storage does not support DFS or BFS on key level nodes")⟩
  | some getChildren => Yielded.collect (ref.childAt o storage) (getChildren (ref.nodeRef.map buildKey))

end AsyncTreeRef

/-! ## Lists that take iterables -/

/-- A node of an `AsyncQueue`: a value, or an iterator with what is left of it. -/
inductive QueueNode (A : Type) where
  | value (a : A)
  | iterator (rest : Yielded A)

/-- `AsyncQueue`, with its `size`, and `AsyncStack`, last item first. -/
inductive AsyncSimpleList (A : Type) where
  | queue (nodes : List (QueueNode A)) (size : Nat)
  | stack (items : List A)

namespace AsyncSimpleList

def length : AsyncSimpleList A → Nat
  | queue _ size => size
  | stack items => items.length

def push (a : A) : AsyncSimpleList A → AsyncSimpleList A
  | queue nodes size => queue (nodes ++ [.value a]) (size + 1)
  | stack items => stack (a :: items)

def pushIterable (iterable : Yielded A) : AsyncSimpleList A → Except Err (AsyncSimpleList A)
  | queue nodes size => .ok (queue (nodes ++ [.iterator iterable]) (size + 1))
  | stack items =>
      match iterable.error with
      | some e => .error e
      | none => .ok (stack (iterable.items.reverse ++ items))

/-- An item taken from an iterator leaves the iterator in the queue and the size as it is. -/
def popQueue : List (QueueNode A) → Nat → Except Err (Option A × AsyncSimpleList A)
  | [], size => .ok (none, queue [] size)
  | .value a :: nodes, size => .ok (some a, queue nodes (size - 1))
  | .iterator ⟨a :: items, error⟩ :: nodes, size =>
      .ok (some a, queue (.iterator ⟨items, error⟩ :: nodes) size)
  | .iterator ⟨[], some e⟩ :: _, _ => .error e
  | .iterator ⟨[], none⟩ :: nodes, size => popQueue nodes size

def pop : AsyncSimpleList A → Except Err (Option A × AsyncSimpleList A)
  | queue nodes size => popQueue nodes size
  | stack [] => .ok (none, stack [])
  | stack (a :: items) => .ok (some a, stack items)

end AsyncSimpleList

/-! ## The asynchronous traversals -/

def Yielded.map (f : A → B) (generator : Yielded A) : Yielded B :=
  ⟨generator.items.map f, generator.error⟩

/-- An entry of the list the traversal works through.  Only the first one has no key. -/
structure AnyPending (R : Type) where
  treeRef : AnyTree R
  level : Nat
  key : Option String
  parentRef : Option ChainedObject

namespace AnyPending

def node (entry : AnyPending R) : Option ChainedObject :=
  match entry.key with
  | none => entry.parentRef
  | some key => some (.ofParent key entry.level entry.parentRef)

def item (now : ℚ) (entry : AnyPending R) : Option (AnyTraversalItem R) :=
  entry.key.map fun key => createAnyTraversalItem key entry.level entry.parentRef entry.treeRef now

def child (entry : AnyPending R) (found : String × AnyTree R) : AnyPending R :=
  ⟨found.2, entry.level + 1, some found.1, entry.node⟩

/-- The children of a storage node are pushed as one iterable, those of a tree one by one. -/
def pushChildren (o : Options T R) (storage : ReadStorage R) (entry : AnyPending R)
    (list : AsyncSimpleList (AnyPending R)) : Except Err (AsyncSimpleList (AnyPending R)) :=
  match entry.treeRef with
  | .async ref => list.pushIterable ((ref.children o storage).map entry.child)
  | .sync tree => .ok ((tree.children.getD []).foldl (fun list (nextKey, nextValue) =>
      match nextValue with
      | none => list
      | some nextTree => list.push (entry.child (nextKey, .sync nextTree))) list)

end AnyPending

/-- The `while` of `asyncTreePreOrderTraversal`: the entries it handles. -/
def asyncVisit (o : Options T R) (storage : ReadStorage R) :
    Nat → AsyncSimpleList (AnyPending R) → Yielded (AnyPending R)
  | 0, _ => .done
  | rounds + 1, list =>
      if list.length = 0 then .done
      else
        match list.pop with
        | .error e => ⟨[], some e⟩
        | .ok (none, _) => .done
        | .ok (some entry, list) =>
            match entry.pushChildren o storage list with
            | .error e => ⟨[entry], some e⟩
            | .ok list => .cons entry (asyncVisit o storage rounds list)

def asyncTreePreOrderTraversal (o : Options T R) (storage : ReadStorage R) (rounds : Nat) (now : ℚ)
    (root : AnyTree R) (list : AsyncSimpleList (AnyPending R))
    (startParentRef : Option ChainedObject) : Yielded (AnyTraversalItem R) :=
  let start := startParentRef.map fun ref =>
    createAnyTraversalItem ref.key ref.level ref.parentRef root now
  let visited := asyncVisit o storage rounds
    (list.push ⟨root, (startParentRef.map ChainedObject.level).getD 0, none, startParentRef⟩)
  ⟨start.toList ++ visited.items.filterMap (AnyPending.item now), visited.error⟩

def yieldAll (f : B → Yielded A) : List B → Yielded A
  | [] => .done
  | b :: rest => (f b).append (yieldAll f rest)

def asyncTreePostOrderTraversalRecursive (o : Options T R) (storage : ReadStorage R) (now : ℚ) :
    Nat → AnyTree R → Option ChainedObject → Option String → Yielded (AnyTraversalItem R)
  | 0, _, _, _ => .done
  | rounds + 1, treeRef, parentRef, key =>
      let node := postOrderRef parentRef key
      let below (found : String × AnyTree R) :=
        asyncTreePostOrderTraversalRecursive o storage now rounds found.2 (node.or parentRef)
          (some found.1)
      let last : Yielded (AnyTraversalItem R) :=
        ⟨(node.map fun ref => ⟨ref, treeRef.currentSerializedValue now, treeRef⟩).toList, none⟩
      match treeRef with
      | .async ref =>
          let children := ref.children o storage
          (yieldAll below children.items).append
            (match children.error with
            | some e => ⟨[], some e⟩
            | none => last)
      | .sync tree =>
          (yieldAll below ((tree.children.getD []).filterMap fun (nextKey, nextTree) =>
            nextTree.map fun tree => (nextKey, .sync tree))).append last

def asyncTreePostOrderTraversal (o : Options T R) (storage : ReadStorage R) (rounds : Nat) (now : ℚ)
    (treeRef : AnyTree R) (root : Option ChainedObject) : Yielded (AnyTraversalItem R) :=
  (asyncTreePostOrderTraversalRecursive o storage now rounds treeRef root none).append
    ⟨(root.map fun ref =>
      createAnyTraversalItem ref.key ref.level ref.parentRef treeRef now).toList, none⟩

/-! ## The four methods -/

inductive Search where
  | preOrderBreadthFirst
  | preOrderDepthFirst
  | postOrderBreadthFirst
  | postOrderDepthFirst
deriving DecidableEq

def Search.sync (now : ℚ) (tree : Tree R) (parentRef : Option ChainedObject) :
    Search → List (TraversalItem R)
  | preOrderBreadthFirst => treePreOrderBreadthFirstSearch now tree parentRef
  | preOrderDepthFirst => treePreOrderDepthFirstSearch now tree parentRef
  | postOrderBreadthFirst => treePostOrderBreadthFirstSearch now tree parentRef
  | postOrderDepthFirst => treePostOrderDepthFirstSearch now tree parentRef

def Search.async (o : Options T R) (storage : ReadStorage R) (rounds : Nat) (now : ℚ)
    (tree : AnyTree R) (parentRef : Option ChainedObject) : Search → Yielded (AnyTraversalItem R)
  | preOrderBreadthFirst =>
      asyncTreePreOrderTraversal o storage rounds now tree (.queue [] 0) parentRef
  | preOrderDepthFirst =>
      asyncTreePreOrderTraversal o storage rounds now tree (.stack []) parentRef
  | postOrderBreadthFirst => asyncTreePostOrderTraversal o storage rounds now tree parentRef
  | postOrderDepthFirst => asyncTreePostOrderTraversal o storage rounds now tree parentRef

def TraversalItem.any (item : TraversalItem R) : AnyTraversalItem R :=
  ⟨item.ref, item.value, .sync item.treeRef⟩

/-- A tree level node is traversed in memory, any other one in the storage. -/
def getTraversalIterable (o : Options T R) (storage : ReadStorage R) (rounds : Nat) (now : ℚ)
    (search : Search) (nodeRef : Option (TraversalItem R)) : Yielded (AnyTraversalItem R) :=
  let inStorage := search.async o storage rounds now
    (.async ⟨nodeRef.map TraversalItem.ref, nodeRef.bind TraversalItem.value⟩)
    (nodeRef.map TraversalItem.ref)
  match nodeRef with
  | none => inStorage
  | some item =>
      if o.keyLevelNodes ≤ item.ref.level then
        ⟨(search.sync now item.treeRef (some item.ref)).map TraversalItem.any, none⟩
      else inStorage

def AnyTraversalItem.step (o : Options T R) (item : AnyTraversalItem R) : Step T :=
  mountStep item.ref (item.value.bind (deserializeValue o))

/-- The steps of a traversal method.  `getNodeRef` and the traversal read the clock one after
the other. -/
def getTraversalStepsIterable [SerializedForm R] (o : Options T R) (storage : ReadStorage R)
    (rounds : Nat) (lookupTime now : ℚ) (search : Search) (basePath : Option (List String)) :
    Yielded (Step T) :=
  match basePath with
  | none => (getTraversalIterable o storage rounds now search none).map (AnyTraversalItem.step o)
  | some basePath =>
      match getNodeRef o storage.get lookupTime basePath false with
      | .error e => ⟨[], some e⟩
      | .ok none => .done
      | .ok (some nodeRef) =>
          (getTraversalIterable o storage rounds now search (some nodeRef)).map
            (AnyTraversalItem.step o)

end TreeKeyCache
