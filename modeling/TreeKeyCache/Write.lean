import TreeKeyCache.Read
import TreeKeyCache.Program

/-! # Writing along a path

`getTtl`, `persistStep`, `persistTree`, `enrichTree`, `deepTreeSet` and `setNode`.
`deepTreeSet` handles one storage key after the other: each of the first
`keyLevelNodes - 1` levels has a key of its own, and everything below shares the
tree stored under the next one. -/
set_option autoImplicit false
namespace TreeKeyCache

variable {Y T R : Type}

def stepTtl (ttl : Option (StepTtl T)) (step : Step T) : Option ℚ :=
  match ttl with
  | none => none
  | some (.seconds s) => some s
  | some (.perStep f) => f step

def getTtl (ttl : Option (StepTtl T)) (step : Step T) (maxTtl : Option ℚ) :
    Option ℚ × Option ℚ :=
  match stepTtl ttl step with
  | none => (none, maxTtl)
  | some current =>
      if current ≠ 0 ∧ (truthyNumber maxTtl = false ∨ maxTtl.getD 0 < current) then
        (some current, some current)
      else (some current, maxTtl)

section
variable [SerializedForm R]

def differs (currentSerialized : Option R) (serialized : R) : Bool :=
  match currentSerialized with
  | none => true
  | some current => !SerializedForm.same current serialized

def persistStep (o : Options T R) (step : Step T) (currentSerialized : Option R)
    (chainedKey : String) (ttl : Option (StepTtl T)) : Prog Y T R Unit :=
  match o.given step.value with
  | none => pure ()
  | some value => do
      let serialized ← Prog.ret (o.valueSerializer.serialize value)
      if differs currentSerialized serialized then
        Prog.storageSet chainedKey serialized (getTtl ttl step none).1
      else pure ()

def persistTree (o : Options T R) (chainedKey : String) (ttl : Option ℚ) (tree : Tree R) :
    Prog Y T R Unit := do
  let maxTtl ←
    if truthyNumber ttl then do
      let currentTtl ← Prog.storageTtl chainedKey
      pure (match currentTtl with
        | none => ttl
        | some current => ttl.map (max current))
    else pure none
  let serialized ← Prog.ret (o.treeSerializer.serialize tree)
  Prog.storageSet chainedKey serialized maxTtl

structure Enriched (R : Type) where
  tree : Tree R
  changed : Bool
  maxTtl : Option ℚ

def enrichTree (o : Options T R) (step : Step T) (currentSerialized : Option R)
    (currentTree : Tree R) (ttl : Option (StepTtl T)) (now : ℚ) (maxTtl : Option ℚ) :
    Except Err (Enriched R) :=
  match o.given step.value with
  | none => pure ⟨currentTree, false, maxTtl⟩
  | some value => do
      let serialized ← o.valueSerializer.serialize value
      if differs currentSerialized serialized then
        let (currentTtl, newMax) := getTtl ttl step maxTtl
        let valued := currentTree.withValue (some serialized)
        if truthyNumber currentTtl then
          pure ⟨valued.withDeadline (currentTtl.map fun s => now + s * 1000), true, newMax⟩
        else if truthyNumber currentTree.deadline then
          pure ⟨valued.withDeadline none, true, newMax⟩
        else pure ⟨valued, true, newMax⟩
      else pure ⟨currentTree, false, maxTtl⟩

structure Cursor where
  currentLevel : Nat
  chainedKey : Option String
  nodeRef : Option ChainedObject

/-- The body of the key level loop. -/
def keyLevel (o : Options T R) (path : List String) (createValue : Option (CreateValue T))
    (ttl : Option (StepTtl T)) (minLevelSemaphore : Nat) (cursor : Cursor) :
    Prog (Step T) T R Cursor := do
  let (chainedKey, key) ← Prog.ret (getChainedKey path cursor.currentLevel cursor.chainedKey)
  Prog.storageRegister cursor.chainedKey key
  let locked := decide (minLevelSemaphore ≤ cursor.currentLevel)
  if locked then Prog.semaphoreAcquire chainedKey else pure ()
  Prog.tryFinally (do
      let currentSerialized ← Prog.storageGet chainedKey
      let nodeRef := ChainedObject.ofParent key (cursor.currentLevel + 1) cursor.nodeRef
      let step ← Prog.ret (getStep o currentSerialized nodeRef createValue)
      let value ← Prog.yieldItem step
      persistStep o { step with value := value } currentSerialized chainedKey ttl
      pure ⟨cursor.currentLevel + 1, some chainedKey, some nodeRef⟩)
    (if locked then Prog.dontWait chainedKey else pure ())

def keyLevels (o : Options T R) (path : List String) (createValue : Option (CreateValue T))
    (ttl : Option (StepTtl T)) (minLevelSemaphore : Nat) :
    Nat → Cursor → Prog (Step T) T R Cursor
  | 0, cursor => pure cursor
  | n + 1, cursor => do
      let next ← keyLevel o path createValue ttl minLevelSemaphore cursor
      keyLevels o path createValue ttl minLevelSemaphore n next

/-- The node at `currentLevel` of a decoded tree: it is presented to the consumer,
and what the consumer left in the step is written to it. -/
def treeNode (o : Options T R) (createValue : Option (CreateValue T)) (now : ℚ)
    (nodeRef : ChainedObject) (currentTree : Tree R) :
    Prog (Step T) T R (Step T × Option R) := do
  let currentSerialized := getTreeCurrentSerializedValue currentTree now
  let step ← Prog.ret (getStep o currentSerialized nodeRef createValue)
  let value ← Prog.yieldItem step
  pure ({ step with value := value }, currentSerialized)

/-- The tree level loop with `n` nodes before the last one.  Inner nodes are
enriched without a ttl.  A child found through the prototype chain is written to,
but is no part of the tree. -/
def treeLevels (o : Options T R) (path : List String) (createValue : Option (CreateValue T))
    (ttl : Option (StepTtl T)) (now : ℚ) :
    Nat → Nat → String → Option ChainedObject → Tree R → Option ℚ →
      Prog (Step T) T R (Enriched R)
  | 0, currentLevel, key, parentRef, currentTree, maxTtl => do
      let nodeRef := ChainedObject.ofParent key currentLevel parentRef
      let (step, currentSerialized) ← treeNode o createValue now nodeRef currentTree
      let (currentTtl, maxTtl) := getTtl ttl step maxTtl
      Prog.ret (enrichTree o step currentSerialized currentTree (currentTtl.map .seconds) now
        maxTtl)
  | n + 1, currentLevel, key, parentRef, currentTree, maxTtl => do
      let nodeRef := ChainedObject.ofParent key currentLevel parentRef
      let (step, currentSerialized) ← treeNode o createValue now nodeRef currentTree
      let here ← Prog.ret (enrichTree o step currentSerialized currentTree none now maxTtl)
      let nextKey ← Prog.ret (getKey path currentLevel)
      let entries := here.tree.children.getD []
      match readChild entries nextKey with
      | .own nextTree => do
          let below ← treeLevels o path createValue ttl now n (currentLevel + 1) nextKey
            (some nodeRef) nextTree here.maxTtl
          pure ⟨here.tree.withChildren (some (Entries.put nextKey (some below.tree) entries)),
            here.changed || below.changed, below.maxTtl⟩
      | .missing => do
          let below ← treeLevels o path createValue ttl now n (currentLevel + 1) nextKey
            (some nodeRef) Tree.empty here.maxTtl
          pure ⟨here.tree.withChildren (some (Entries.put nextKey (some below.tree) entries)),
            true, below.maxTtl⟩
      | .inherited => do
          let below ← treeLevels o path createValue ttl now n (currentLevel + 1) nextKey
            (some nodeRef) Tree.empty here.maxTtl
          pure ⟨here.tree.withChildren (some entries), here.changed || below.changed,
            below.maxTtl⟩

/-- `buffer ? deserialize(buffer) : {}`. -/
def decodeRoot (o : Options T R) (buffer : Option R) : Except Err (Tree R) :=
  match truthy? buffer with
  | none => .ok Tree.empty
  | some serialized => o.treeSerializer.deserialize serialized

/-- The part of `deepTreeSet` that rewrites the tree stored under one key. -/
def treeLevel (o : Options T R) (path : List String) (createValue : Option (CreateValue T))
    (ttl : Option (StepTtl T)) (minLevelSemaphore : Nat) (now : ℚ) (cursor : Cursor) :
    Prog (Step T) T R Unit := do
  let (chainedKey, key) ← Prog.ret (getChainedKey path cursor.currentLevel cursor.chainedKey)
  let currentLevel := cursor.currentLevel + 1
  let locked := decide (minLevelSemaphore ≤ currentLevel)
  if locked then Prog.semaphoreAcquire chainedKey else pure ()
  Prog.tryFinally (do
      let buffer ← Prog.storageGet chainedKey
      let rootTree ← Prog.ret (decodeRoot o buffer)
      let result ← treeLevels o path createValue ttl now (path.length - currentLevel) currentLevel
        key cursor.nodeRef rootTree none
      if result.changed then persistTree o chainedKey result.maxTtl result.tree else pure ())
    (if locked then Prog.dontWait chainedKey else pure ())

def deepTreeSet (o : Options T R) (path : List String) (createValue : Option (CreateValue T))
    (ttl : Option (StepTtl T)) (previousKeys : List String) (minLevelSemaphore : Nat) :
    Prog (Step T) T R Unit := do
  let now ← Prog.now
  let upTo := min (o.keyLevelNodes - 1) path.length
  let chainedKey := if 0 < previousKeys.length then some (joinKeys previousKeys) else none
  let cursor ← keyLevels o path createValue ttl minLevelSemaphore (upTo - previousKeys.length)
    ⟨previousKeys.length, chainedKey, none⟩
  if cursor.currentLevel < path.length then
    if (cursor.chainedKey.getD "") = "" then
      Prog.ret (.error (.typeError "Non consistent storage"))
    else treeLevel o path createValue ttl minLevelSemaphore now cursor
  else pure ()

/-- The second argument of `setNode`: a value, or a callback with what it resolves
to. -/
inductive NodeValue (T : Type) where
  | value (v : T)
  | callback (result : Except Err (Option T))

def NodeValue.isNull (o : Options T R) : NodeValue T → Bool
  | value v => o.isNull v
  | callback _ => false

/-- `for await (const item of generator) { … }` around a body that may assign to
`item.value` or throw; a throwing body ends the generator. -/
def forAwait {A : Type} (body : Y → Except Err (Option T)) : Prog Y T R A → Prog Y T R A
  | .ret result => .ret result
  | .dateNow k => .dateNow fun t => forAwait body (k t)
  | .get key k => .get key fun r => forAwait body (k r)
  | .set key v ttl k => .set key v ttl fun r => forAwait body (k r)
  | .getCurrentTtl key k => .getCurrentTtl key fun r => forAwait body (k r)
  | .registerChild p c k => .registerChild p c fun r => forAwait body (k r)
  | .acquire key k => .acquire key fun r => forAwait body (k r)
  | .release key k => .release key (forAwait body k)
  | .yield y k => forAwait body (k (body y))

def assignAt (length : Nat) (value : NodeValue T) (item : Step T) : Except Err (Option T) :=
  if item.level = length then
    match value with
    | .value v => .ok (some v)
    | .callback result => result
  else .ok item.value

def setNode (o : Options T R) (path : List String) (value : Option (NodeValue T))
    (ttl : Option (StepTtl T)) : Prog (Step T) T R Unit :=
  match value.filter fun value => !value.isNull o with
  | none => pure ()
  | some value =>
      forAwait (assignAt path.length value)
        (deepTreeSet o path (some fun _ => .ok none) ttl [] path.length)

@[simp] theorem NodeValue.isNull_eq (o : LawfulOptions T R) (value : NodeValue T) :
    value.isNull o.toOptions = false := by
  cases value with
  | value v => exact o.not_null v
  | callback result => rfl

theorem setNode_some (o : LawfulOptions T R) (path : List String) (value : NodeValue T)
    (ttl : Option (StepTtl T)) : setNode o.toOptions path (some value) ttl =
      forAwait (assignAt path.length value)
        (deepTreeSet o.toOptions path (some fun _ => .ok none) ttl [] path.length) := by
  simp only [setNode, Option.filter_some, NodeValue.isNull_eq, Bool.not_false, if_true]

end

end TreeKeyCache
