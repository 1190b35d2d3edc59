import TreeKeyCache.Read
import Mathlib.Data.List.Induction

/-! # What the readers return

`getNode` and `iteratePath` walk the storage with different helpers and different
level bounds.  Both are determined by one function of the path: `serializedAt`, the
serialized value the cache holds for it.  `getNode` further drops a value that is
falsy. -/
set_option autoImplicit false
namespace TreeKeyCache

variable {T R : Type}

/-! ## Node references of a path -/

def chainOf (path : List String) : Option ChainedObject :=
  path.foldl (fun parent key =>
    some (ChainedObject.ofParent key ((parent.map ChainedObject.level).getD 0 + 1) parent)) none

/-- The node reference of a non-empty path. -/
def nodeRefOf (path : List String) : ChainedObject := (chainOf path).getD (.top "" 0)

theorem chainOf_level (path : List String) :
    ((chainOf path).map ChainedObject.level).getD 0 = path.length := by
  induction path using List.reverseRecOn with
  | nil => rfl
  | append_singleton front key ih => simp [chainOf] at ih ⊢; exact ih

theorem chainOf_append_singleton (path : List String) (key : String) :
    chainOf (path ++ [key]) = some (.ofParent key (path.length + 1) (chainOf path)) := by
  have level := chainOf_level path
  simp only [chainOf, List.foldl_append, List.foldl_cons, List.foldl_nil] at level ⊢
  rw [level]

theorem nodeRefOf_append_singleton (path : List String) (key : String) :
    nodeRefOf (path ++ [key]) = .ofParent key (path.length + 1) (chainOf path) := by
  rw [nodeRefOf, chainOf_append_singleton, Option.getD_some]

theorem chainOf_eq_some (path : List String) (nonempty : path ≠ []) :
    chainOf path = some (nodeRefOf path) := by
  obtain ⟨front, last, rfl⟩ := exists_append_singleton path nonempty
  rw [nodeRefOf_append_singleton, chainOf_append_singleton]

theorem take_succ_of_getElem? (path : List String) (n : Nat) (key : String)
    (found : path[n]? = some key) : path.take (n + 1) = path.take n ++ [key] := by
  rw [List.take_add_one, found]
  rfl

theorem nodeRefOf_take_succ (path : List String) (n : Nat) (key : String)
    (found : path[n]? = some key) :
    nodeRefOf (path.take (n + 1)) = .ofParent key (n + 1) (chainOf (path.take n)) := by
  have bound : n < path.length := (List.getElem?_eq_some_iff.mp found).1
  have taken : (path.take n).length = n := List.length_take_of_le (by omega)
  rw [take_succ_of_getElem? path n key found, nodeRefOf_append_singleton, taken]

theorem nodeRefOf_level (path : List String) (nonempty : path ≠ []) :
    (nodeRefOf path).level = path.length := by
  have level := chainOf_level path
  rw [chainOf_eq_some path nonempty] at level
  simpa using level

theorem nodeRefOf_keys (path : List String) (nonempty : path ≠ []) :
    (nodeRefOf path).keys = path := by
  induction path using List.reverseRecOn with
  | nil => exact absurd rfl nonempty
  | append_singleton front key ih =>
      rw [nodeRefOf_append_singleton]
      by_cases hfront : front = []
      · subst hfront
        rfl
      · rw [chainOf_eq_some front hfront]
        simp [ChainedObject.ofParent, ChainedObject.keys, ih hfront]

theorem buildKey_nodeRefOf (path : List String) (nonempty : path ≠ []) :
    buildKey (nodeRefOf path) = joinKeys path := by
  rw [buildKey_eq, nodeRefOf_keys path nonempty]

/-! ## Nodes of a tree -/

namespace Tree

def valueAt (tree : Tree R) (now : ℚ) (keys : List String) : Option R :=
  (tree.sub keys).bind fun node => getTreeCurrentSerializedValue node now

theorem sub_append (tree : Tree R) (p q : List String) :
    tree.sub (p ++ q) = (tree.sub p).bind fun node => node.sub q := by
  induction p generalizing tree with
  | nil => rfl
  | cons key p ih =>
      rw [List.cons_append, sub_cons, sub_cons, Option.bind_assoc]
      exact congrArg _ (funext fun node => ih node)

theorem valueAt_nil (tree : Tree R) (now : ℚ) :
    tree.valueAt now [] = getTreeCurrentSerializedValue tree now := rfl

theorem valueAt_cons (tree : Tree R) (now : ℚ) (key : String) (rest : List String) :
    tree.valueAt now (key :: rest) = (tree.child key).bind fun next => next.valueAt now rest := by
  simp only [valueAt, sub_cons, Option.bind_assoc]

theorem valueAt_empty (now : ℚ) (keys : List String) :
    (empty : Tree R).valueAt now keys = none := by
  cases keys with
  | nil => rfl
  | cons key rest => simp [valueAt_cons]

end Tree

/-- No key on a path into the tree is a name that every object inherits. -/
def OrdinaryKeys (tree : Tree R) : Prop :=
  ∀ q node, tree.sub q = some node → ∀ key ∈ q, key ∉ inheritedNames

theorem OrdinaryKeys.sub {tree node : Tree R} (ordinary : OrdinaryKeys tree) {base : List String}
    (found : tree.sub base = some node) : OrdinaryKeys node := by
  intro q lower below key member
  apply ordinary (base ++ q) lower _ key (List.mem_append_right _ member)
  rw [Tree.sub_append, found]
  exact below

theorem readChild_of_not_inherited (entries : TreeChildren R) (key : String)
    (plain : key ∉ inheritedNames) :
    readChild entries key = match (entries.lookup key).join with
      | some tree => .own tree
      | none => .missing := by
  unfold readChild
  cases found : entries.lookup key with
  | none => simp [plain]
  | some child => cases child <;> simp

namespace Tree

/-- The node a reader goes to under `key`: an inherited object looks like an empty node. -/
def next (tree : Tree R) (key : String) : Option (Tree R) :=
  tree.children.bind fun entries => match readChild entries key with
    | .own child => some child
    | .inherited => some empty
    | .missing => none

/-- The node a reader arrives at. -/
def reach : Tree R → List String → Option (Tree R)
  | tree, [] => some tree
  | tree, key :: rest => (tree.next key).bind fun next => next.reach rest

theorem valueAt_next (tree : Tree R) (now : ℚ) (key : String) (rest : List String) :
    tree.valueAt now (key :: rest) = (tree.next key).bind fun next => next.valueAt now rest := by
  rw [valueAt_cons, child, next]
  cases tree.children with
  | none => rfl
  | some entries =>
      simp only [Option.bind_some, readChild]
      cases found : entries.lookup key with
      | some child => cases child <;> rfl
      | none =>
          by_cases inherited : key ∈ inheritedNames
          · simp [inherited, valueAt_empty]
          · simp [inherited]

theorem reach_value (now : ℚ) : ∀ (keys : List String) (tree : Tree R),
    ((tree.reach keys).bind fun node => getTreeCurrentSerializedValue node now) =
      tree.valueAt now keys := by
  intro keys
  induction keys with
  | nil => intro tree; rfl
  | cons key rest ih =>
      intro tree
      rw [valueAt_next, reach]
      cases tree.next key with
      | none => rfl
      | some child => exact ih child

end Tree

theorem getNextTreeNode_eq (path : List String) (level : Nat) (tree : Tree R)
    (parentRef : Option ChainedObject) (now : ℚ) (key : String) (found : path[level]? = some key) :
    getNextTreeNode path level tree parentRef Tree.empty now =
      .ok ((tree.next key).map fun next =>
        (⟨.ofParent key (level + 1) parentRef, none, Tree.empty⟩, next)) := by
  have getKey_ok : getKey path level = .ok key := by simp [getKey, found]
  simp only [getNextTreeNode, getKey_ok, bind, Except.bind, Tree.next]
  cases tree.children with
  | none => rfl
  | some entries =>
      simp only [Option.bind_some]
      cases readChild entries key <;> rfl

/-! ## The storage levels of a path -/

/-- The item of a node of which only the position is known. -/
def bareItem (path : List String) : TraversalItem R := ⟨nodeRefOf path, none, Tree.empty⟩

theorem getNextStorageNode_eq (path : List String) (n : Nat) (now : ℚ) (bound : n < path.length) :
    getNextStorageNode path n (chainOf (path.take n)) (Tree.empty : Tree R) now =
      .ok (bareItem (path.take (n + 1))) := by
  have found : path[n]? = some path[n] := List.getElem?_eq_getElem bound
  have getKey_ok : getKey path n = .ok path[n] := by simp [getKey, found]
  simp only [getNextStorageNode, getKey_ok, bind, Except.bind, pure, Except.pure, bareItem,
    nodeRefOf_take_succ path n _ found]
  rfl

/-- The item the key level loops hold after `n` levels. -/
def itemAfter (path : List String) : Nat → Option (TraversalItem R)
  | 0 => none
  | n + 1 => some (bareItem (path.take (n + 1)))

theorem itemAfter_level (path : List String) (n : Nat) (bound : n ≤ path.length) :
    ((itemAfter path n : Option (TraversalItem R)).map fun item => item.ref.level).getD 0 = n := by
  cases n with
  | zero => rfl
  | succ n =>
      have listed : path.take (n + 1) ≠ [] := by
        intro h
        have := congrArg List.length h
        rw [List.length_take_of_le bound] at this
        simp at this
      simp [itemAfter, bareItem, nodeRefOf_level _ listed, List.length_take_of_le bound]

theorem itemAfter_ref (path : List String) (n : Nat) (bound : n ≤ path.length) :
    (itemAfter path n : Option (TraversalItem R)).map TraversalItem.ref = chainOf (path.take n) := by
  cases n with
  | zero => rfl
  | succ n =>
      have listed : path.take (n + 1) ≠ [] := by
        intro h
        have := congrArg List.length h
        rw [List.length_take_of_le bound] at this
        simp at this
      simp [itemAfter, bareItem, chainOf_eq_some _ listed]

theorem nextStorageNode_itemAfter (path : List String) (n : Nat) (now : ℚ)
    (bound : n < path.length) :
    getNextStorageNode path
        (((itemAfter path n : Option (TraversalItem R)).map fun item => item.ref.level).getD 0)
        ((itemAfter path n : Option (TraversalItem R)).map TraversalItem.ref) (Tree.empty : Tree R)
        now = .ok (bareItem (path.take (n + 1))) := by
  rw [itemAfter_level path n (by omega), itemAfter_ref path n (by omega)]
  exact getNextStorageNode_eq path n now bound

theorem storageNodes_eq (path : List String) (now : ℚ) : ∀ (n done : Nat),
    done + n ≤ path.length →
      storageNodes path now n (itemAfter path done : Option (TraversalItem R)) =
        .ok (itemAfter path (done + n)) := by
  intro n
  induction n with
  | zero => intro done _; rfl
  | succ n ih =>
      intro done bound
      have step := nextStorageNode_itemAfter (R := R) path done now (by omega)
      have rest := ih (done + 1) (by omega)
      simp only [storageNodes, step, bind, Except.bind]
      rw [show some (bareItem (path.take (done + 1))) =
        (itemAfter path (done + 1) : Option (TraversalItem R)) from rfl, rest]
      congr 2
      omega

/-! ## The tree levels of a path -/

theorem take_ne_nil (path : List String) (n : Nat) (bound : n < path.length) :
    path.take (n + 1) ≠ [] := by
  intro h
  have := congrArg List.length h
  rw [List.length_take_of_le (by omega)] at this
  simp at this

theorem bareItem_level (path : List String) (n : Nat) (bound : n < path.length) :
    (bareItem (path.take (n + 1)) : TraversalItem R).ref.level = n + 1 := by
  have := nodeRefOf_level _ (take_ne_nil path n bound)
  rw [List.length_take_of_le (by omega)] at this
  exact this

theorem buildKey_bareItem (path : List String) (n : Nat) (bound : n < path.length) :
    buildKey (bareItem (path.take (n + 1)) : TraversalItem R).ref = joinKeys (path.take (n + 1)) :=
  buildKey_nodeRefOf _ (take_ne_nil path n bound)

/-- One step down the tree from the node after `done` levels. -/
theorem getNextTreeNode_bareItem (path : List String) (done : Nat) (tree : Tree R) (now : ℚ)
    (started : 0 < done) (bound : done < path.length) :
    getNextTreeNode path (bareItem (path.take done) : TraversalItem R).ref.level tree
        (some (bareItem (path.take done) : TraversalItem R).ref) Tree.empty now =
      .ok ((tree.next path[done]).map fun next => (bareItem (path.take (done + 1)), next)) := by
  obtain ⟨prior, rfl⟩ : ∃ prior, done = prior + 1 := ⟨done - 1, by omega⟩
  have found : path[prior + 1]? = some path[prior + 1] := List.getElem?_eq_getElem bound
  have level := bareItem_level (R := R) path prior (by omega)
  rw [level, getNextTreeNode_eq path (prior + 1) tree _ now _ found]
  have here : bareItem (path.take (prior + 1 + 1)) =
      (⟨.ofParent path[prior + 1] (prior + 1 + 1)
        (some (bareItem (path.take (prior + 1)) : TraversalItem R).ref), none, Tree.empty⟩ :
        TraversalItem R) := by
    simp only [bareItem]
    rw [nodeRefOf_take_succ path (prior + 1) _ found,
      chainOf_eq_some _ (take_ne_nil path prior (by omega))]
  rw [here]

theorem drop_take_succ (path : List String) (done n : Nat) (bound : done < path.length) :
    (path.drop done).take (n + 1) = path[done] :: (path.drop (done + 1)).take n := by
  rw [List.drop_eq_getElem_cons bound, List.take_succ_cons]

theorem walkTree_eq (path : List String) (now : ℚ) :
    ∀ (n done : Nat) (tree : Tree R), 0 < done → done + n ≤ path.length →
      walkTree path now n (bareItem (path.take done)) tree =
        .ok ((tree.reach ((path.drop done).take n)).map fun last =>
          (bareItem (path.take (done + n)), last)) := by
  intro n
  induction n with
  | zero => intro done tree _ _; simp [walkTree, Tree.reach, pure, Except.pure]
  | succ n ih =>
      intro done tree started bound
      have next := getNextTreeNode_bareItem path done tree now started (by omega)
      simp only [walkTree, next, bind, Except.bind, drop_take_succ path done n (by omega),
        Tree.reach]
      cases tree.next path[done] with
      | none => rfl
      | some child =>
          simp only [Option.map_some, Option.bind_some]
          rw [ih (done + 1) child (by omega) (by omega), show done + 1 + n = done + (n + 1) by omega]

theorem createTraversalItem_bareItem (path : List String) (tree : Tree R) (now : ℚ) :
    createTraversalItem (bareItem path : TraversalItem R).ref.key
        (bareItem path : TraversalItem R).ref.level
        (bareItem path : TraversalItem R).ref.parentRef tree now =
      ⟨nodeRefOf path, getTreeCurrentSerializedValue tree now, tree⟩ := by
  simp only [createTraversalItem, bareItem]
  congr 1
  cases nodeRefOf path <;> rfl

theorem finishTreeRef_eq (path : List String) (now : ℚ) (done : Nat) (tree : Tree R)
    (started : 0 < done) (bound : done ≤ path.length) :
    finishTreeRef path now (bareItem (path.take done)) tree =
      .ok ((tree.reach (path.drop done)).map fun last =>
        ⟨nodeRefOf path, getTreeCurrentSerializedValue last now, last⟩) := by
  obtain ⟨prior, rfl⟩ : ∃ prior, done = prior + 1 := ⟨done - 1, by omega⟩
  have level := bareItem_level (R := R) path prior (by omega)
  have walk := walkTree_eq path now (path.length - (prior + 1)) (prior + 1) tree started
    (by omega)
  have all : (path.drop (prior + 1)).take (path.length - (prior + 1)) = path.drop (prior + 1) :=
    List.take_of_length_le (by simp)
  have full : path.take (prior + 1 + (path.length - (prior + 1))) = path :=
    List.take_of_length_le (by omega)
  simp only [finishTreeRef, level, walk, all, full, bind, Except.bind]
  cases tree.reach (path.drop (prior + 1)) with
  | none => rfl
  | some last =>
      simp only [Option.map_some, createTraversalItem_bareItem]
      rfl

/-! ## The value of a path -/

section
variable [SerializedForm R]

/-- The tree stored under the first `keyLevelNodes` keys of a path. -/
def treeAt (o : Options T R) (get : String → Option R) (path : List String) : Option (Tree R) :=
  (truthy? (get (joinKeys (path.take o.keyLevelNodes)))).bind (deserializeTree o)

def serializedAt (o : Options T R) (get : String → Option R) (now : ℚ) (path : List String) :
    Option R :=
  if path.length < o.keyLevelNodes then truthy? (get (joinKeys path))
  else (treeAt o get path).bind fun tree => tree.valueAt now (path.drop o.keyLevelNodes)

/-- The step for the node at `path` that holds `serialized`. -/
def stepFor (o : Options T R) (path : List String) (serialized : R) : Step T :=
  mountStep (nodeRefOf path) (deserializeValue o serialized)

theorem getNodeRef_eq (o : Options T R) (get : String → Option R) (now : ℚ) (path : List String)
    (positive : 1 ≤ o.keyLevelNodes) (nonempty : path ≠ []) :
    getNodeRef o get now path false =
      if path.length < o.keyLevelNodes then
        .ok (some ⟨nodeRefOf path, get (joinKeys path), Tree.empty⟩)
      else match treeAt o get path with
        | none => .ok (some (bareItem (path.take o.keyLevelNodes)))
        | some tree => .ok ((tree.reach (path.drop o.keyLevelNodes)).map fun last =>
            ⟨nodeRefOf path, getTreeCurrentSerializedValue last now, last⟩) := by
  have pathPositive : 0 < path.length := List.length_pos_iff.mpr nonempty
  have nodes := storageNodes_eq (R := R) path now (min o.keyLevelNodes path.length) 0 (by omega)
  obtain ⟨m, upTo⟩ : ∃ m, min o.keyLevelNodes path.length = m + 1 :=
    ⟨min o.keyLevelNodes path.length - 1, by omega⟩
  have mBound : m < path.length := by omega
  rw [upTo, Nat.zero_add] at nodes
  simp only [getNodeRef, storageNodeRef, upTo]
  rw [show (none : Option (TraversalItem R)) = itemAfter path 0 from rfl, nodes]
  simp only [itemAfter, bind, Except.bind, buildKey_bareItem path m mBound, finishNodeRef,
    bareItem_level path m mBound]
  by_cases short : path.length < o.keyLevelNodes
  · have whole : m + 1 = path.length := by omega
    rw [if_pos short, if_pos (by omega), whole, List.take_of_length_le (le_refl _)]
    rfl
  · have level : m + 1 = o.keyLevelNodes := by omega
    rw [if_neg short, if_neg (by omega), level]
    simp only [Bool.false_eq_true, if_false, treeAt]
    cases (truthy? (get (joinKeys (path.take o.keyLevelNodes)))).bind (deserializeTree o) with
    | none => rfl
    | some tree =>
        simp only
        exact finishTreeRef_eq path now o.keyLevelNodes tree (by omega) (by omega)

theorem truthy?_truthy? (r : Option R) : truthy? (truthy? r) = truthy? r := by
  cases r with
  | none => rfl
  | some r => cases h : SerializedForm.truthy r <;> simp [truthy?, Option.filter, h]

/-- `getNode` answers with the value of the path, unless it is falsy. -/
theorem getNode_eq (o : Options T R) (get : String → Option R) (now : ℚ) (path : List String)
    (positive : 1 ≤ o.keyLevelNodes) (nonempty : path ≠ []) :
    getNode o get now path = .ok ((truthy? (serializedAt o get now path)).map (stepFor o path)) := by
  simp only [getNode, getNodeRef_eq o get now path positive nonempty, serializedAt]
  by_cases short : path.length < o.keyLevelNodes
  · simp only [if_pos short, bind, Except.bind, truthy?_truthy?]
    cases truthy? (get (joinKeys path)) <;> rfl
  · simp only [if_neg short, bind, Except.bind]
    cases treeAt o get path with
    | none => rfl
    | some tree =>
        simp only [Option.bind_some, ← Tree.reach_value]
        cases tree.reach (path.drop o.keyLevelNodes) with
        | none => rfl
        | some last =>
            simp only [Option.map_some, Option.bind_some]
            cases truthy? (getTreeCurrentSerializedValue last now) <;> rfl

theorem getNode_nil (o : Options T R) (get : String → Option R) (now : ℚ) :
    getNode o get now [] = .ok none := by
  simp [getNode, getNodeRef, storageNodeRef, storageNodes, pure, Except.pure, bind, Except.bind]

/-- The `n` prefixes of a path after its first `done` keys, shortest first. -/
def prefixesFrom (path : List String) (done n : Nat) : List (List String) :=
  (List.range' (done + 1) n).map fun m => path.take m

def nonemptyPrefixes (path : List String) : List (List String) := prefixesFrom path 0 path.length

theorem prefixesFrom_succ (path : List String) (done n : Nat) :
    prefixesFrom path done (n + 1) = path.take (done + 1) :: prefixesFrom path (done + 1) n := by
  simp [prefixesFrom, List.range'_succ]

theorem prefixesFrom_add (path : List String) (done m n : Nat) :
    prefixesFrom path done (m + n) = prefixesFrom path done m ++ prefixesFrom path (done + m) n := by
  rw [prefixesFrom, ← List.range'_append_1, List.map_append, prefixesFrom, prefixesFrom,
    Nat.add_right_comm]

theorem length_of_mem_prefixesFrom (path : List String) (done n : Nat) (q : List String)
    (bound : done + n ≤ path.length) (member : q ∈ prefixesFrom path done n) :
    done < q.length ∧ q.length ≤ done + n ∧ q = path.take q.length := by
  obtain ⟨m, mMember, rfl⟩ := List.mem_map.mp member
  have := List.mem_range'_1.mp mMember
  have length : (path.take m).length = m := List.length_take_of_le (by omega)
  refine ⟨by omega, by omega, by rw [length]⟩

def stepAt (o : Options T R) (get : String → Option R) (now : ℚ) (path : List String) :
    Option (Step T) := (serializedAt o get now path).map (stepFor o path)

theorem iterateKeyLevels_eq (o : Options T R) (get : String → Option R) (path : List String)
    (now : ℚ) : ∀ n done : Nat, done + n ≤ path.length → done + n < o.keyLevelNodes →
      iterateKeyLevels o get path now n (itemAfter path done) =
        .ok ((prefixesFrom path done n).filterMap (stepAt o get now),
          itemAfter path (done + n)) := by
  intro n
  induction n with
  | zero => intro done _ _; rfl
  | succ n ih =>
      intro done bound keyLevel
      have next := nextStorageNode_itemAfter (R := R) path done now (by omega)
      have rest := ih (done + 1) (by omega) (by omega)
      have length : (path.take (done + 1)).length = done + 1 := List.length_take_of_le (by omega)
      have here : serializedAt o get now (path.take (done + 1)) =
          truthy? (get (joinKeys (path.take (done + 1)))) := by
        rw [serializedAt, if_pos (by omega)]
      rw [show itemAfter path (done + 1) =
        some (bareItem (path.take (done + 1)) : TraversalItem R) from rfl] at rest
      simp only [iterateKeyLevels, next, bind, Except.bind, rest,
        buildKey_bareItem path done (by omega)]
      rw [prefixesFrom_succ, List.filterMap_cons, stepAt, here, Nat.add_right_comm done 1 n]
      cases truthy? (get (joinKeys (path.take (done + 1)))) <;> rfl

omit [SerializedForm R] in
theorem stepsOf_eq (o : Options T R) (tree : Tree R) (now : ℚ) (path : List String) :
    stepsOf o tree now (nodeRefOf path) =
      .ok ((getTreeCurrentSerializedValue tree now).map (stepFor o path)).toList := by
  unfold stepsOf
  cases getTreeCurrentSerializedValue tree now <;> rfl

/-- The steps for the nodes of `tree` on the way along `keys`, the root included. -/
def treeSteps (o : Options T R) (now : ℚ) (path : List String) (tree : Tree R) (done n : Nat) :
    List (Step T) :=
  (List.range (n + 1)).filterMap fun j =>
    (tree.valueAt now ((path.drop done).take j)).map (stepFor o (path.take (done + j)))

omit [SerializedForm R] in
theorem treeSteps_succ (o : Options T R) (now : ℚ) (path : List String) (tree : Tree R)
    (done n : Nat) (bound : done < path.length) :
    treeSteps o now path tree done (n + 1) =
      ((getTreeCurrentSerializedValue tree now).map (stepFor o (path.take done))).toList ++
        ((tree.next path[done]).map fun next =>
          treeSteps o now path next (done + 1) n).getD [] := by
  have shift : ∀ j, (path.drop done).take (j + 1) = path[done] :: (path.drop (done + 1)).take j :=
    fun j => drop_take_succ path done j bound
  rw [treeSteps, List.range_succ_eq_map, List.filterMap_cons, List.filterMap_map]
  simp only [List.take_zero, Tree.valueAt_nil, Nat.add_zero, Function.comp_def, shift,
    Tree.valueAt_next, Nat.succ_eq_add_one]
  cases tree.next path[done] with
  | none =>
      cases getTreeCurrentSerializedValue tree now <;> simp
  | some next =>
      have rest : (fun j => (next.valueAt now ((path.drop (done + 1)).take j)).map
          (stepFor o (path.take (done + (j + 1))))) = fun j =>
          (next.valueAt now ((path.drop (done + 1)).take j)).map
            (stepFor o (path.take (done + 1 + j))) := by
        funext j
        rw [show done + (j + 1) = done + 1 + j by omega]
      simp only [Option.bind_some, rest, Option.map_some, Option.getD_some, treeSteps]
      cases getTreeCurrentSerializedValue tree now <;> simp

omit [SerializedForm R] in
theorem iterateTreeLevels_eq (o : Options T R) (path : List String) (now : ℚ) :
    ∀ (n done : Nat) (tree : Tree R), 0 < done → done + n = path.length →
      iterateTreeLevels o path now n (bareItem (path.take done)) tree =
        .ok (treeSteps o now path tree done n) := by
  intro n
  induction n with
  | zero =>
      intro done tree _ _
      simp only [iterateTreeLevels, bareItem, stepsOf_eq, treeSteps]
      cases h : getTreeCurrentSerializedValue tree now <;> simp [Tree.valueAt_nil, h]
  | succ n ih =>
      intro done tree started bound
      have next := getNextTreeNode_bareItem path done tree now started (by omega)
      have here : stepsOf o tree now (bareItem (path.take done) : TraversalItem R).ref =
          .ok ((getTreeCurrentSerializedValue tree now).map (stepFor o (path.take done))).toList :=
        stepsOf_eq o tree now (path.take done)
      simp only [iterateTreeLevels, here, next, bind, Except.bind,
        treeSteps_succ o now path tree done n (by omega)]
      cases tree.next path[done] with
      | none => simp [pure, Except.pure]
      | some child =>
          simp only [Option.map_some, Option.getD_some, ih (done + 1) child (by omega) (by omega)]
          rfl

theorem treeAt_take (o : Options T R) (get : String → Option R) (path : List String) (m : Nat)
    (deep : o.keyLevelNodes ≤ m) : treeAt o get (path.take m) = treeAt o get path := by
  rw [treeAt, treeAt, List.take_take, Nat.min_eq_left deep]

theorem treeSteps_eq (o : Options T R) (get : String → Option R) (now : ℚ) (path : List String)
    (done n : Nat) (level : o.keyLevelNodes = done + 1) (bound : done + 1 + n = path.length) :
    ((treeAt o get path).map fun tree => treeSteps o now path tree (done + 1) n).getD [] =
      (prefixesFrom path done (n + 1)).filterMap (stepAt o get now) := by
  have entry : ∀ j ∈ List.range (n + 1), stepAt o get now (path.take (done + 1 + j)) =
      ((treeAt o get path).bind fun tree =>
        tree.valueAt now ((path.drop (done + 1)).take j)).map
          (stepFor o (path.take (done + 1 + j))) := by
    intro j member
    have jBound : j < n + 1 := List.mem_range.mp member
    have length : (path.take (done + 1 + j)).length = done + 1 + j :=
      List.length_take_of_le (by omega)
    rw [stepAt, serializedAt, if_neg (by omega), treeAt_take o get path _ (by omega), level,
      List.drop_take, show done + 1 + j - (done + 1) = j by omega]
  have listed : prefixesFrom path done (n + 1) =
      (List.range (n + 1)).map fun j => path.take (done + 1 + j) := by
    rw [prefixesFrom, List.range'_eq_map_range, List.map_map]
    rfl
  rw [listed, List.filterMap_map]
  rw [List.filterMap_congr (f := stepAt o get now ∘ fun j => path.take (done + 1 + j)) entry]
  cases treeAt o get path with
  | none => simp
  | some tree => rfl

/-- `iteratePath` yields the value of every prefix that has one, shortest first. -/
theorem iteratePath_eq (o : Options T R) (get : String → Option R) (now : ℚ) (path : List String)
    (twoLevels : 2 ≤ o.keyLevelNodes) :
    iteratePath o get now path =
      .ok ((nonemptyPrefixes path).filterMap (stepAt o get now)) := by
  have keyPart := iterateKeyLevels_eq o get path now (min (o.keyLevelNodes - 1) path.length) 0
    (by omega) (by omega)
  rw [Nat.zero_add] at keyPart
  simp only [iteratePath]
  rw [show (none : Option (TraversalItem R)) = itemAfter path 0 from rfl, keyPart]
  simp only [bind, Except.bind]
  by_cases short : path.length < o.keyLevelNodes
  · have whole : min (o.keyLevelNodes - 1) path.length = path.length := by omega
    rw [whole, nonemptyPrefixes]
    cases hlen : path.length with
    | zero => rfl
    | succ m =>
        have level := bareItem_level (R := R) path m (by omega)
        simp only [itemAfter, level]
        rw [if_neg (by omega)]
        rfl
  · obtain ⟨m, level⟩ : ∃ m, o.keyLevelNodes = m + 2 := ⟨o.keyLevelNodes - 2, by omega⟩
    have upTo : min (o.keyLevelNodes - 1) path.length = m + 1 := by omega
    have itemLevel := bareItem_level (R := R) path m (by omega)
    have treeLevel := bareItem_level (R := R) path (m + 1) (by omega)
    have next : getNextStorageNode path (m + 1)
        (some (bareItem (path.take (m + 1)) : TraversalItem R).ref) (Tree.empty : Tree R) now =
          .ok (bareItem (path.take (m + 1 + 1))) := by
      rw [← getNextStorageNode_eq path (m + 1) now (by omega),
        chainOf_eq_some _ (take_ne_nil path m (by omega))]
      rfl
    have rest := treeSteps_eq o get now path (m + 1) (path.length - (m + 2)) level (by omega)
    have split : path.length = m + 1 + (path.length - (m + 2) + 1) := by omega
    have whole : nonemptyPrefixes path = prefixesFrom path 0 (m + 1) ++
        prefixesFrom path (m + 1) (path.length - (m + 2) + 1) := by
      rw [nonemptyPrefixes]
      nth_rewrite 1 [split]
      rw [prefixesFrom_add, Nat.zero_add]
    rw [upTo, whole, List.filterMap_append, ← rest]
    simp only [itemAfter, itemLevel]
    rw [if_pos (by omega), next]
    simp only [buildKey_bareItem path (m + 1) (by omega), treeLevel, treeAt, level]
    cases (truthy? (get (joinKeys (path.take (m + 1 + 1))))).bind (deserializeTree o) with
    | none => simp [pure, Except.pure]
    | some tree =>
        simp only [iterateTreeLevels_eq o path now (path.length - (m + 1 + 1)) (m + 1 + 1)
          tree (by omega) (by omega)]
        rfl

end

end TreeKeyCache
