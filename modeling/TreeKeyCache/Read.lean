import TreeKeyCache.Keys

/-! # Reading

`getStep`, `getNextStorageNode`, `getNextTreeNode`, `getNodeRef`, `getNode` and
`iteratePath` in single-version mode and without a memoizer, over a storage whose
answers are given by `get`.  `getNodeRef` reads the storage once: the chain of key
level nodes is built before that read (`storageNodeRef`) and the decoded tree is
walked after it (`finishNodeRef`). -/
set_option autoImplicit false
namespace TreeKeyCache

variable {T R : Type}

structure TraversalItem (R : Type) where
  ref : ChainedObject
  value : Option R
  treeRef : Tree R

/-- A deadline of zero counts as no deadline. -/
def getTreeCurrentSerializedValue (tree : Tree R) (now : ℚ) : Option R :=
  match tree.deadline with
  | none => tree.value
  | some d => if d = 0 ∨ now < d then tree.value else none

def createTraversalItem (key : String) (level : Nat) (parentRef : Option ChainedObject)
    (treeRef : Tree R) (now : ℚ) : TraversalItem R :=
  ⟨ChainedObject.ofParent key level parentRef, getTreeCurrentSerializedValue treeRef now, treeRef⟩

/-- A value that does not decode is reported by an event and read as undefined. -/
def deserializeValue (o : Options T R) (serialized : R) : Option T :=
  match o.valueSerializer.deserialize serialized with
  | .ok value => value
  | .error _ => none

def deserializeTree (o : Options T R) (serialized : R) : Option (Tree R) :=
  match o.treeSerializer.deserialize serialized with
  | .ok tree => some tree
  | .error _ => none

def mountStep (nodeRef : ChainedObject) (value : Option T) : Step T :=
  ⟨nodeRef.key, value, nodeRef.level, nodeRef⟩

def getStep (o : Options T R) (serializedValue : Option R) (nodeRef : ChainedObject)
    (createValue : Option (CreateValue T)) : Except Err (Step T) :=
  match serializedValue with
  | some serialized => .ok (mountStep nodeRef (deserializeValue o serialized))
  | none =>
      match createValue with
      | none => .ok (mountStep nodeRef none)
      | some create => do
          let value ← create nodeRef
          pure (mountStep nodeRef value)

def getNextStorageNode (path : List String) (level : Nat) (parentRef : Option ChainedObject)
    (treeRef : Tree R) (now : ℚ) : Except Err (TraversalItem R) := do
  let key ← getKey path level
  pure (createTraversalItem key (level + 1) parentRef treeRef now)

/-- A shared inherited object reads like an empty node. -/
def getNextTreeNode (path : List String) (level : Nat) (tree : Tree R)
    (parentRef : Option ChainedObject) (treeRef : Tree R) (now : ℚ) :
    Except Err (Option (TraversalItem R × Tree R)) := do
  let key ← getKey path level
  let item := createTraversalItem key (level + 1) parentRef treeRef now
  match tree.children with
  | none => pure none
  | some entries =>
      match readChild entries key with
      | .own nextTree => pure (some (item, nextTree))
      | .inherited => pure (some (item, Tree.empty))
      | .missing => pure none

section
variable [SerializedForm R]

def truthy? (buffer : Option R) : Option R := buffer.filter SerializedForm.truthy

/-- The `do … while` over the key levels: one item for each of the first `n` keys. -/
def storageNodes (path : List String) (now : ℚ) : Nat → Option (TraversalItem R) →
    Except Err (Option (TraversalItem R))
  | 0, nodeRef => pure nodeRef
  | n + 1, nodeRef => do
      let level := (nodeRef.map fun item => item.ref.level).getD 0
      let next ← getNextStorageNode path level (nodeRef.map TraversalItem.ref) Tree.empty now
      storageNodes path now n (some next)

def storageNodeRef (o : Options T R) (path : List String) (now : ℚ) :
    Except Err (Option (TraversalItem R)) :=
  storageNodes path now (min o.keyLevelNodes path.length) none

/-- The `while` over the tree levels still to go. -/
def walkTree (path : List String) (now : ℚ) : Nat → TraversalItem R → Tree R →
    Except Err (Option (TraversalItem R × Tree R))
  | 0, nodeRef, tree => pure (some (nodeRef, tree))
  | n + 1, nodeRef, tree => do
      match ← getNextTreeNode path nodeRef.ref.level tree (some nodeRef.ref) Tree.empty now with
      | none => pure none
      | some (nextRef, nextTree) => walkTree path now n nextRef nextTree

def finishTreeRef (path : List String) (now : ℚ) (nodeRef : TraversalItem R) (tree : Tree R) :
    Except Err (Option (TraversalItem R)) := do
  match ← walkTree path now (path.length - nodeRef.ref.level) nodeRef tree with
  | none => pure none
  | some (last, tree) =>
      pure (some (createTraversalItem last.ref.key last.ref.level last.ref.parentRef tree now))

/-- With `lastValue` an absent entry ends the lookup and an undecodable one throws;
otherwise both leave the bare node. -/
def finishNodeRef (o : Options T R) (path : List String) (lastValue : Bool) (now : ℚ)
    (nodeRef : TraversalItem R) (buffer : Option R) : Except Err (Option (TraversalItem R)) :=
  if nodeRef.ref.level < o.keyLevelNodes then
    pure (some { nodeRef with value := buffer })
  else if lastValue then
    match truthy? buffer with
    | none => pure none
    | some serialized => do
        let tree ← o.treeSerializer.deserialize serialized
        finishTreeRef path now nodeRef tree
  else
    match (truthy? buffer).bind (deserializeTree o) with
    | none => pure (some nodeRef)
    | some tree => finishTreeRef path now nodeRef tree

def getNodeRef (o : Options T R) (get : String → Option R) (now : ℚ) (path : List String)
    (lastValue : Bool) : Except Err (Option (TraversalItem R)) := do
  match ← storageNodeRef o path now with
  | none => pure none
  | some nodeRef => finishNodeRef o path lastValue now nodeRef (get (buildKey nodeRef.ref))

def getNode (o : Options T R) (get : String → Option R) (now : ℚ) (path : List String) :
    Except Err (Option (Step T)) := do
  match ← getNodeRef o get now path false with
  | none => pure none
  | some nodeRef =>
      match truthy? nodeRef.value with
      | none => pure none
      | some serialized => do
          let step ← getStep o (some serialized) nodeRef.ref none
          pure (some step)

/-- The key level loop of `iteratePath`: the steps it yields and its last node. -/
def iterateKeyLevels (o : Options T R) (get : String → Option R) (path : List String) (now : ℚ) :
    Nat → Option (TraversalItem R) → Except Err (List (Step T) × Option (TraversalItem R))
  | 0, nodeRef => pure ([], nodeRef)
  | n + 1, nodeRef => do
      let level := (nodeRef.map fun item => item.ref.level).getD 0
      let next ← getNextStorageNode path level (nodeRef.map TraversalItem.ref) Tree.empty now
      let here ← match truthy? (get (buildKey next.ref)) with
        | none => pure []
        | some buffer => do
            let step ← getStep o (some buffer) next.ref none
            pure [step]
      let (rest, last) ← iterateKeyLevels o get path now n (some next)
      pure (here ++ rest, last)

def stepsOf (o : Options T R) (tree : Tree R) (now : ℚ) (nodeRef : ChainedObject) :
    Except Err (List (Step T)) :=
  match getTreeCurrentSerializedValue tree now with
  | none => pure []
  | some value => do
      let step ← getStep o (some value) nodeRef none
      pure [step]

/-- The tree level loop of `iteratePath`, with `n` levels to go. -/
def iterateTreeLevels (o : Options T R) (path : List String) (now : ℚ) :
    Nat → TraversalItem R → Tree R → Except Err (List (Step T))
  | 0, nodeRef, tree => stepsOf o tree now nodeRef.ref
  | n + 1, nodeRef, tree => do
      let here ← stepsOf o tree now nodeRef.ref
      match ← getNextTreeNode path nodeRef.ref.level tree (some nodeRef.ref) Tree.empty now with
      | none => pure here
      | some (nextRef, nextTree) => do
          let rest ← iterateTreeLevels o path now n nextRef nextTree
          pure (here ++ rest)

def iteratePath (o : Options T R) (get : String → Option R) (now : ℚ) (path : List String) :
    Except Err (List (Step T)) := do
  let (steps, last) ←
    iterateKeyLevels o get path now (min (o.keyLevelNodes - 1) path.length) none
  match last with
  | none => pure steps
  | some nodeRef =>
      if nodeRef.ref.level < path.length then do
        let treeNode ← getNextStorageNode path nodeRef.ref.level (some nodeRef.ref) Tree.empty now
        match (truthy? (get (buildKey treeNode.ref))).bind (deserializeTree o) with
        | none => pure steps
        | some tree => do
            let rest ← iterateTreeLevels o path now (path.length - treeNode.ref.level) treeNode tree
            pure (steps ++ rest)
      else pure steps

end

end TreeKeyCache
