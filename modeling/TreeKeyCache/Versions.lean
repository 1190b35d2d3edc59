import TreeKeyCache.AsyncTraversal
import TreeKeyCache.TextSerializers

/-! # Reading a storage with history

Where `getHistory` is implemented, the read operations get an iterable of versions for a key
instead of one entry (`internal/get-read-storage-function.ts`).  `MultiTreeRef` and the
functions around it (`internal/multi-tree-ref.ts`, `get-multi-value-from-trees.ts`,
`get-multi-value-from-async-iterable.ts`) put several versions together.

The read operations are the same code in both modes, with `SerializedValue` in the place of the
serialized form.  What they do with an iterable depends on the place: `inPath` is how
`getMemoizedStep` and `getMemoizedTree` decode it, `inTraversal` is how `AsyncTreeRef` does. -/
set_option autoImplicit false
namespace TreeKeyCache

variable {T R : Type}

/-- `SerializedValue`: one serialized value, a `MultiTreeValue`, or an `AsyncIterable`. -/
inductive SerializedValue (R : Type) where
  | single (serialized : R)
  | multi (values : List R)
  | iterable (versions : List (Option R))

/-- The last two are objects. -/
instance [SerializedForm R] : SerializedForm (SerializedValue R) where
  truthy
    | .single r => SerializedForm.truthy r
    | _ => true
  same
    | .single a, .single b => SerializedForm.same a b
    | _, _ => false
  same_eq := by
    intro a b same
    cases a with
    | single a =>
        cases b with
        | single b => exact congrArg SerializedValue.single (SerializedForm.same_eq a b same)
        | multi _ => cases same
        | iterable _ => cases same
    | multi _ => cases same
    | iterable _ => cases same

/-! ## Several versions of a tree -/

section
variable [SerializedForm R]

/-- `filter()`. -/
def truthyVersions (versions : List (Option R)) : List R := versions.filterMap truthy?

def getMultiTreeValueFromTrees (trees : List (Tree R)) (now : ℚ) : List R :=
  truthyVersions (trees.map fun tree => getTreeCurrentSerializedValue tree now)

def versionChildren (trees : List (Tree R)) : List (String × Tree R) :=
  trees.flatMap fun tree => (tree.children.getD []).filterMap fun (key, child) =>
    child.map fun child => (key, child)

def distinctKeys (children : List (String × Tree R)) : List (String × List (Tree R)) :=
  children.foldl (fun groups (key, tree) =>
    Entries.put key ((groups.lookup key).getD [] ++ [tree]) groups) []

/-- A `MultiTreeRef` down to `n` levels: its children are made when they are read. -/
def multiTreeRefTo (now : ℚ) : Nat → List (Tree R) → Tree (SerializedValue R)
  | 0, trees => .mk (some (.multi (getMultiTreeValueFromTrees trees now))) none (some [])
  | n + 1, trees =>
      .mk (some (.multi (getMultiTreeValueFromTrees trees now))) none
        (some ((distinctKeys (versionChildren trees)).map fun (key, versions) =>
          (key, some (multiTreeRefTo now n versions))))

/-- `MultiTreeRef`: no version has more levels than it has nodes. -/
def multiTreeRef (trees : List (Tree R)) (now : ℚ) : Tree (SerializedValue R) :=
  multiTreeRefTo now (trees.map Tree.size).sum trees

end

theorem distinctKeys_unique (children : List (String × Tree R)) :
    Entries.Unique (distinctKeys children) := by
  have steps : ∀ (children : List (String × Tree R)) (groups : List (String × List (Tree R))),
      Entries.Unique groups → Entries.Unique (children.foldl (fun groups (key, tree) =>
        Entries.put key ((groups.lookup key).getD [] ++ [tree]) groups) groups) := by
    intro children
    induction children with
    | nil => exact fun groups unique => unique
    | cons child children ih =>
        intro groups unique
        exact ih _ (Entries.unique_put _ _ groups unique)
  exact steps children [] List.nodup_nil

theorem multiTreeRefTo_wellFormed [SerializedForm R] (now : ℚ) : ∀ (n : Nat) (trees : List (Tree R)),
    (multiTreeRefTo now n trees).wellFormed = true := by
  intro n
  induction n with
  | zero => exact fun trees => rfl
  | succ n ih =>
      intro trees
      rw [multiTreeRefTo, Tree.wellFormed_iff]
      intro entries listed
      obtain rfl := Option.some.inj listed
      constructor
      · rw [Entries.Unique, List.map_map]
        exact distinctKeys_unique (versionChildren trees)
      · intro key tree member
        obtain ⟨group, _, same⟩ := List.mem_map.mp member
        obtain ⟨_, child⟩ := Prod.mk.inj same
        rw [← Option.some.inj child]
        exact ih group.2

/-! ## Decoding -/

structure HistoryOptions (T R : Type) extends Options T R where
  deserializeList : List R → Except Err (Option T)
  deserializeAsyncList : List (Option R) → Except Err (Option T)
  multiTreeSelector : List (Option R) → List R

namespace HistoryOptions
variable [SerializedForm R] (o : HistoryOptions T R)

/-- The versions of `deserializeTreeFromList`: one that throws makes the whole list throw. -/
def treesFromList (versions : List (Option R)) : Except Err (List (Tree R)) :=
  (truthyVersions versions).mapM o.treeSerializer.deserialize

def getTreeListFromAsyncIterable (versions : List (Option R)) : List (Tree R) :=
  (truthyVersions versions).filterMap (deserializeTree o.toOptions)

/-- Trees that are put together from the versions of a key.  They are never written. -/
def treeReader (decode : List (Option R) → Except Err (List (Tree R))) (now : ℚ) :
    TreeSerializer (SerializedValue R) where
  serialize _ := .error (.thrown "MultiTreeRef")
  deserialize
    | .iterable versions => do
        let trees ← decode versions
        pure (multiTreeRef trees now)
    | _ => .error (.thrown "MultiTreeRef")
  deserialize_wellFormed := by
    intro content tree decoded
    cases content with
    | single _ => cases decoded
    | multi _ => cases decoded
    | iterable versions =>
        simp only [bind, Except.bind] at decoded
        split at decoded
        · cases decoded
        · rename_i trees _
          obtain rfl := Except.ok.inj decoded
          exact multiTreeRefTo_wellFormed now _ trees

def valueReader (decode : List (Option R) → Except Err (Option T)) :
    ValueSerializer T (SerializedValue R) where
  serialize value := do
    let serialized ← o.valueSerializer.serialize value
    pure (.single serialized)
  deserialize
    | .single serialized => o.valueSerializer.deserialize serialized
    | .multi values => o.deserializeList values
    | .iterable versions => decode versions

def deserializeValue (value : SerializedValue R) : Option T :=
  match (o.valueReader o.deserializeAsyncList).deserialize value with
  | .ok value => value
  | .error _ => none

def inPath (now : ℚ) : Options T (SerializedValue R) where
  keyLevelNodes := o.keyLevelNodes
  valueSerializer := o.valueReader o.deserializeAsyncList
  treeSerializer := treeReader o.treesFromList now
  isNull := o.isNull

/-- How `AsyncTreeRef` decodes a history: the values of a key level node are selected first, and
the trees are those that decode. -/
def inTraversal (now : ℚ) : Options T (SerializedValue R) where
  keyLevelNodes := o.keyLevelNodes
  valueSerializer := o.valueReader fun versions => o.deserializeList (o.multiTreeSelector versions)
  treeSerializer := treeReader (fun versions => .ok (o.getTreeListFromAsyncIterable versions)) now
  isNull := o.isNull

end HistoryOptions

/-! ## The read operations -/

structure HistoryStorage (R : Type) where
  getHistory : String → List (Option R)
  getChildren : Option (Option String → List String)

namespace HistoryStorage

def read (storage : HistoryStorage R) (key : String) : Option (SerializedValue R) :=
  some (.iterable (storage.getHistory key))

def readStorage (storage : HistoryStorage R) : ReadStorage (SerializedValue R) :=
  ⟨storage.read, storage.getChildren⟩

end HistoryStorage

section
variable [SerializedForm R] (o : HistoryOptions T R) (storage : HistoryStorage R)

def SerializedValue.gathered : SerializedValue R → SerializedValue R
  | .iterable versions => .multi (truthyVersions versions)
  | value => value

/-- `getNodeRef` with `lastValue` false: the history of a key level node is gathered. -/
def historyNodeRef (now : ℚ) (path : List String) :
    Except Err (Option (TraversalItem (SerializedValue R))) := do
  let nodeRef ← getNodeRef (o.inPath now) storage.read now path false
  pure (nodeRef.map fun item => { item with value := item.value.map .gathered })

def historyGetNode (now : ℚ) (path : List String) : Except Err (Option (Step T)) := do
  match ← historyNodeRef o storage now path with
  | none => pure none
  | some nodeRef =>
      match truthy? nodeRef.value with
      | none => pure none
      | some serialized => do
          let step ← getStep (o.inPath now) (some serialized) nodeRef.ref none
          pure (some step)

def historyIteratePath (now : ℚ) (path : List String) : Except Err (List (Step T)) :=
  iteratePath (o.inPath now) storage.read now path

def historyTraversalStepsIterable (rounds : Nat) (lookupTime now : ℚ) (search : Search)
    (basePath : Option (List String)) : Yielded (Step T) :=
  match basePath with
  | none => (getTraversalIterable (o.inTraversal now) storage.readStorage rounds now search none).map
      (AnyTraversalItem.step (o.inTraversal now))
  | some basePath =>
      match historyNodeRef o storage lookupTime basePath with
      | .error e => ⟨[], some e⟩
      | .ok none => .done
      | .ok (some nodeRef) =>
          (getTraversalIterable (o.inTraversal now) storage.readStorage rounds now search
            (some nodeRef)).map (AnyTraversalItem.step (o.inTraversal now))

end

namespace Text

/-- The first version is the current one. -/
def historyOptions (keyLevelNodes : Nat) (multiTreeSelector : List (Option String) → List String) :
    HistoryOptions Nat String where
  toOptions := (options keyLevelNodes).toOptions
  deserializeList values := (values.head?.map decodeNat).getD (.ok none)
  deserializeAsyncList versions := ((truthyVersions versions).head?.map decodeNat).getD (.ok none)
  multiTreeSelector := multiTreeSelector

end Text

end TreeKeyCache
