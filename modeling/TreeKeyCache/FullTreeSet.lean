import TreeKeyCache.Write
import TreeKeyCache.Lookup
import TreeKeyCache.Traversal

/-! # Writing a whole tree

`fullTreeSet`, `registerKeyLevelChildren`, `saveFullTreeValue`, `getFullSetItem` and
`checkFullSetItemChange`.  The nodes of the given tree are walked breadth first down to
the tree level; from there `saveFullTreeValue` walks the rest depth first, next to the
decoded tree, and keeps the stored nodes on the way in an array indexed by level. -/
set_option autoImplicit false
namespace TreeKeyCache

variable {Y T R : Type}

/-- Registers every property of the children object, undefined ones too. -/
def registerChildren (chainedKey : String) : TreeChildren T → Prog Y T R Unit
  | [] => pure ()
  | (key, _) :: rest => do
      Prog.storageRegister (some chainedKey) key
      registerChildren chainedKey rest

def registerKeyLevelChildren (node : TraversalItem T) (chainedKey : String) : Prog Y T R Unit :=
  registerChildren chainedKey (node.treeRef.children.getD [])

/-! ## The objects of one decoded tree -/

def Tree.modifyAt (f : Tree R → Tree R) : List String → Tree R → Tree R
  | [], tree => f tree
  | key :: rest, tree =>
      match tree.child key with
      | some child => tree.withChildren
          (some (Entries.put key (some (child.modifyAt f rest)) (tree.children.getD [])))
      | none => tree

/-- A reference to a node: under the decoded root, or under an object that every children
object inherits. -/
structure Place where
  object : Option String
  path : List String
deriving DecidableEq

def Place.root : Place := ⟨none, []⟩

def Place.child (place : Place) (key : String) : Place := ⟨place.object, place.path ++ [key]⟩

/-- The decoded root, and the inherited objects by name. -/
abbrev Memory (R : Type) := Option String → Tree R

namespace Memory

def start (rootTree : Tree R) : Memory R
  | none => rootTree
  | some _ => Tree.empty

def nodeAt (memory : Memory R) (place : Place) : Tree R :=
  ((memory place.object).sub place.path).getD Tree.empty

def modify (memory : Memory R) (place : Place) (f : Tree R → Tree R) : Memory R :=
  Function.update memory place.object ((memory place.object).modifyAt f place.path)

/-- `children[key] ??= newTree` below a node: the objects then, and the child. -/
def openChild (memory : Memory R) (parent : Place) (key : String) (newTree : Tree R) :
    Memory R × Place :=
  let children := (memory.nodeAt parent).children.getD []
  match readChild children key with
  | .own _ => (memory.modify parent fun tree => tree.withChildren (some children), parent.child key)
  | .inherited => (memory.modify parent fun tree => tree.withChildren (some children), ⟨some key, []⟩)
  | .missing =>
      (memory.modify parent fun tree =>
        tree.withChildren (some (Entries.put key (some newTree) children)), parent.child key)

end Memory

structure Saving (R : Type) where
  memory : Memory R
  currentTree : Place
  stack : Nat → Option Place
  changed : Bool
  maxTtl : Option ℚ

section
variable [SerializedForm R]

def createNode (o : Options T R) (value : Option T) : Except Err (Tree R) :=
  match value with
  | none => pure Tree.empty
  | some value => do
      let serialized ← o.valueSerializer.serialize value
      pure (Tree.empty.withValue (some serialized))

/-- Steps from the stored parent to the stored node of `depthNode`, which is created when
it is missing. -/
def enterChild (o : Options T R) (createValue : CreateValue T) (depthNode : TraversalItem T)
    (st : Saving R) : Except Err (Saving R) :=
  let key := depthNode.ref.key
  let level := depthNode.ref.level
  match st.stack (level - 1) with
  | none => .error (.error "Algorithm error")
  | some parent =>
      let children := (st.memory.nodeAt parent).children.getD []
      let opened := st.memory.modify parent fun tree => tree.withChildren (some children)
      let arrive (memory : Memory R) (place : Place) (created : Bool) : Saving R :=
        { st with
          memory := memory
          currentTree := place
          stack := Function.update st.stack level (some place)
          changed := st.changed || created }
      match readChild children key with
      | .own _ => pure (arrive opened (parent.child key) false)
      | .inherited => pure (arrive opened ⟨some key, []⟩ false)
      | .missing => do
          let value ← createValue depthNode.ref
          let value := o.given value
          let created ← createNode o value
          let memory := st.memory.modify parent fun tree =>
            tree.withChildren (some (Entries.put key (some created) children))
          -- what is in the map now is an object, so 'Persisting error' is never thrown
          pure (arrive memory (parent.child key) value.isSome)

def getFullSetItem (o : Options T R) (currentTree : Tree R) (breadthNode : TraversalItem T)
    (now : ℚ) : FullSetItem T R :=
  let currentSerialized := getTreeCurrentSerializedValue currentTree now
  { key := breadthNode.ref.key
    value := breadthNode.value
    level := breadthNode.ref.level
    nodeRef := breadthNode.ref
    oldValue := (truthy? currentSerialized).bind (deserializeValue o)
    currentSerialized := currentSerialized }

def checkFullSetItemChange (o : Options T R) (item : FullSetItem T R) : Except Err (Option R) :=
  match item.value with
  | none => pure none
  | some value => do
      let serialized ← o.valueSerializer.serialize value
      pure (if differs item.currentSerialized serialized then some serialized else none)

def saveItem (o : Options T R) (createValue : CreateValue T) (ttl : Option (StepTtl T)) (now : ℚ)
    (rootLevel : Nat) (depthNode : TraversalItem T) (st : Saving R) :
    Prog (FullSetItem T R) T R (Saving R) := do
  let st ← Prog.ret
    (if depthNode.ref.level = rootLevel then .ok st else enterChild o createValue depthNode st)
  let item := getFullSetItem o (st.memory.nodeAt st.currentTree) depthNode now
  let value ← Prog.yieldItem item
  let item := { item with value := value }
  match ← Prog.ret (checkFullSetItemChange o item) with
  | none => pure st
  | some serialized =>
      pure { st with
        memory := st.memory.modify st.currentTree fun tree => tree.withValue (some serialized)
        changed := true
        maxTtl := (getTtl ttl item.toStep st.maxTtl).2 }

def saveItems (o : Options T R) (createValue : CreateValue T) (ttl : Option (StepTtl T)) (now : ℚ)
    (rootLevel : Nat) : List (TraversalItem T) → Saving R → Prog (FullSetItem T R) T R (Saving R)
  | [], st => pure st
  | depthNode :: rest, st => do
      let st ← saveItem o createValue ttl now rootLevel depthNode st
      saveItems o createValue ttl now rootLevel rest st

def saveFullTreeValue (o : Options T R) (rootNode : TraversalItem T) (chainedKey : String)
    (createValue : CreateValue T) (ttl : Option (StepTtl T)) :
    Prog (FullSetItem T R) T R Unit := do
  let now ← Prog.now
  let serializedTree ← Prog.storageGet chainedKey
  let rootTree ← Prog.ret (decodeRoot o serializedTree)
  let start : Saving R :=
    ⟨Memory.start rootTree, Place.root,
      Function.update (fun _ => none) rootNode.ref.level (some Place.root), false, none⟩
  let traversalNow ← Prog.now
  let items := treePreOrderDepthFirstSearch traversalNow rootNode.treeRef (some rootNode.ref)
  let last ← saveItems o createValue ttl now rootNode.ref.level items start
  if last.changed then persistTree o chainedKey last.maxTtl (last.memory none) else pure ()

/-- The loop body of `fullTreeSet` above the tree level. -/
def saveKeyLevelValue (o : Options T R) (breadthNode : TraversalItem T) (chainedKey : String)
    (createValue : CreateValue T) (ttl : Option (StepTtl T)) :
    Prog (FullSetItem T R) T R Unit := do
  registerKeyLevelChildren breadthNode chainedKey
  let currentSerialized ← Prog.storageGet chainedKey
  let old ← Prog.ret (getStep o currentSerialized breadthNode.ref (some createValue))
  let step : FullSetItem T R :=
    { old with
      value := o.given breadthNode.value <|> old.value
      oldValue := old.value
      currentSerialized := none }
  let value ← Prog.yieldItem step
  persistStep o { step.toStep with value := value } currentSerialized chainedKey ttl

def fullTreeSetNode (o : Options T R) (createValue : CreateValue T) (minLevelSemaphore : Nat)
    (ttl : Option (StepTtl T)) (breadthNode : TraversalItem T) :
    Prog (FullSetItem T R) T R Unit := do
  let chainedKey := buildKey breadthNode.ref
  let locked := decide (minLevelSemaphore ≤ breadthNode.ref.level)
  if locked then Prog.semaphoreAcquire chainedKey else pure ()
  Prog.tryFinally
    (if breadthNode.ref.level = o.keyLevelNodes then
      saveFullTreeValue o breadthNode chainedKey createValue ttl
    else saveKeyLevelValue o breadthNode chainedKey createValue ttl)
    (if locked then Prog.dontWait chainedKey else pure ())

/-- The loop of `fullTreeSet`, left at the first node below the tree level. -/
def fullTreeSetNodes (o : Options T R) (createValue : CreateValue T) (minLevelSemaphore : Nat)
    (ttl : Option (StepTtl T)) : List (TraversalItem T) → Prog (FullSetItem T R) T R Unit
  | [] => pure ()
  | breadthNode :: rest =>
      if o.keyLevelNodes < breadthNode.ref.level then pure ()
      else do
        fullTreeSetNode o createValue minLevelSemaphore ttl breadthNode
        fullTreeSetNodes o createValue minLevelSemaphore ttl rest

def fullTreeSet (o : Options T R) (tree : Tree T) (createValue : CreateValue T)
    (minLevelSemaphore : Nat) (ttl : Option (StepTtl T)) : Prog (FullSetItem T R) T R Unit := do
  let now ← Prog.now
  fullTreeSetNodes o createValue minLevelSemaphore ttl (treePreOrderBreadthFirstSearch now tree none)

end

end TreeKeyCache
