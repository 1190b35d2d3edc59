import TreeKeyCache.Lib.MemoTable
import TreeKeyCache.Presence

/-! # The memoizer

`getMemoized`, `getMemoizedStep` and `getMemoizedTree`, and `iteratePath` and `getNode` as they
use them.  Steps and trees are kept in one table under the chained key; what is found there is
taken for what was looked for, whatever it is. -/
set_option autoImplicit false
namespace TreeKeyCache

open MemoTable

variable {T R : Type} [SerializedForm R]

inductive MemoValue (T R : Type) where
  | step (found : Option (Step T))
  | tree (found : Option (Tree R))

namespace MemoValue

/-- What is yielded when the value is taken for a step. -/
def asStep : MemoValue T R → Option (Step T ⊕ Tree R)
  | step found => found.map Sum.inl
  | tree found => found.map Sum.inr

/-- A step read as a tree has neither a value, nor a deadline, nor children. -/
def asTree : MemoValue T R → Option (Tree R)
  | step found => found.map fun _ => Tree.empty
  | tree found => found

end MemoValue

/-- A reader: `iteratePath` yields steps, `getNode` returns one. -/
abbrev Reader (T R : Type) :=
  Asking String (MemoValue T R) (Step T ⊕ Tree R) (Except Err (Option (Step T)))

section
variable (o : Options T R) (get : String → Option R)

/-- The callback of `getMemoizedStep`. -/
def readStep (chainedKey : String) (nodeRef : ChainedObject) : Option (Step T) :=
  (truthy? (get chainedKey)).bind fun buffer => (getStep o (some buffer) nodeRef none).toOption

/-- The callback of `getMemoizedTree`. -/
def readTree (key : String) : Option (Tree R) := (truthy? (get key)).bind (deserializeTree o)

/-- What `getNode` makes of the node it found. -/
def nodeStep (nodeRef : Option (TraversalItem R)) : Except Err (Option (Step T)) := do
  match nodeRef with
  | none => pure none
  | some nodeRef =>
      match truthy? nodeRef.value with
      | none => pure none
      | some serialized => do
          let step ← getStep o (some serialized) nodeRef.ref none
          pure (some step)

end

/-- What readers are made of.  `ask` goes through the memoizer, `look` past it. -/
structure Asks (T R P : Type) where
  ret : Except Err (Option (Step T)) → P
  ask : String → ((String → Option R) → MemoValue T R) → (MemoValue T R → P) → P
  look : ((String → Option R) → Except Err (Option (Step T))) → P
  yield : Step T ⊕ Tree R → P → P

@[reducible] def Asks.reading (get : String → Option R) : Asks T R (Reader T R) where
  ret := .ret
  ask key own rest := .ask key (own get) rest
  look read := .ret (read get)
  yield := .yield

section
variable {P : Type} (asks : Asks T R P) (o : Options T R)

def getMemoizedStep (chainedKey : String) (nodeRef : ChainedObject) (rest : MemoValue T R → P) : P :=
  asks.ask chainedKey (fun get => .step (readStep o get chainedKey nodeRef)) rest

def getMemoizedTree (key : String) (rest : MemoValue T R → P) : P :=
  asks.ask key (fun get => .tree (readTree o get key)) rest

omit [SerializedForm R] in
def yieldFound (found : Option (Step T ⊕ Tree R)) (rest : P) : P :=
  match found with
  | none => rest
  | some item => asks.yield item rest

def yieldSteps (steps : List (Step T)) (rest : P) : P :=
  steps.foldr (fun step rest => asks.yield (.inl step) rest) rest

/-- The key level loop of `iteratePath`. -/
def memoizedKeyLevels (path : List String) (now : ℚ) (rest : Option (TraversalItem R) → P) :
    Nat → Option (TraversalItem R) → P
  | 0, nodeRef => rest nodeRef
  | n + 1, nodeRef =>
      let level := (nodeRef.map fun item => item.ref.level).getD 0
      match getNextStorageNode path level (nodeRef.map TraversalItem.ref) Tree.empty now with
      | .error e => asks.ret (.error e)
      | .ok next => getMemoizedStep asks o (buildKey next.ref) next.ref fun found =>
          yieldFound asks found.asStep (memoizedKeyLevels path now rest n (some next))

/-- What `iteratePath` does after the key levels. -/
def memoizedTreeLevels (path : List String) (now : ℚ) (last : Option (TraversalItem R)) : P :=
  match last with
  | none => asks.ret (.ok none)
  | some nodeRef =>
      if nodeRef.ref.level < path.length then
        match getNextStorageNode path nodeRef.ref.level (some nodeRef.ref) Tree.empty now with
        | .error e => asks.ret (.error e)
        | .ok treeNode => getMemoizedTree asks o (buildKey treeNode.ref) fun found =>
            match found.asTree with
            | none => asks.ret (.ok none)
            | some tree =>
                match iterateTreeLevels o path now (path.length - treeNode.ref.level) treeNode
                  tree with
                | .error e => asks.ret (.error e)
                | .ok steps => yieldSteps asks steps (asks.ret (.ok none))
      else asks.ret (.ok none)

def memoizedIteratePath (now : ℚ) (path : List String) : P :=
  memoizedKeyLevels asks o path now (memoizedTreeLevels asks o path now)
    (min (o.keyLevelNodes - 1) path.length) none

/-- `getNode` with a memoizer: only trees are memoized here. -/
def memoizedGetNode (now : ℚ) (path : List String) : P :=
  match storageNodeRef o path now with
  | .error e => asks.ret (.error e)
  | .ok none => asks.ret (.ok none)
  | .ok (some nodeRef) =>
      if nodeRef.ref.level < o.keyLevelNodes then
        asks.look fun get => nodeStep o (some { nodeRef with value := get (buildKey nodeRef.ref) })
      else getMemoizedTree asks o (buildKey nodeRef.ref) fun found =>
        match found.asTree with
        | none => asks.ret (nodeStep o (some nodeRef))
        | some tree =>
            asks.ret (do
              let last ← finishTreeRef path now nodeRef tree
              nodeStep o last)

end

section
variable (o : Options T R) (get : String → Option R)

/-! ## Without the memoizer -/

omit [SerializedForm R] in
theorem alone_yieldSteps (steps : List (Step T)) (rest : Reader T R) :
    (yieldSteps (.reading get) steps rest).alone =
      (steps.map Sum.inl ++ rest.alone.1, rest.alone.2) := by
  induction steps with
  | nil => rfl
  | cons step steps ih =>
      change (_ :: (yieldSteps (.reading get) steps rest).alone.1,
        (yieldSteps (.reading get) steps rest).alone.2) = _
      rw [ih]
      rfl

theorem getNode_eq_nodeStep (now : ℚ) (path : List String) :
    getNode o get now path = (do
      let nodeRef ← getNodeRef o get now path false
      nodeStep o nodeRef) := rfl

theorem memoizedGetNode_alone (now : ℚ) (path : List String) :
    (memoizedGetNode (.reading get) o now path).alone = ([], getNode o get now path) := by
  rw [getNode_eq_nodeStep, memoizedGetNode, getNodeRef]
  cases storageNodeRef o path now with
  | error e => rfl
  | ok nodeRef =>
      cases nodeRef with
      | none => rfl
      | some nodeRef =>
          simp only [bind, Except.bind, finishNodeRef, Bool.false_eq_true, if_false]
          by_cases keyLevel : nodeRef.ref.level < o.keyLevelNodes
          · rw [if_pos keyLevel, if_pos keyLevel]
            rfl
          · rw [if_neg keyLevel, if_neg keyLevel, getMemoizedTree, Asking.alone]
            change Asking.alone (match readTree o get _ with | none => _ | some tree => _) = _
            rw [readTree]
            cases (truthy? (get (buildKey nodeRef.ref))).bind (deserializeTree o) with
            | none => rfl
            | some tree => rfl

theorem readStep_eq (now : ℚ) (path : List String) (keyLevel : path.length < o.keyLevelNodes) :
    readStep o get (joinKeys path) (nodeRefOf path) = stepAt o get now path := by
  rw [readStep, stepAt, serializedAt, if_pos keyLevel]
  cases truthy? (get (joinKeys path)) <;> rfl

theorem memoizedKeyLevels_succ (path : List String) (now : ℚ)
    (rest : Option (TraversalItem R) → Reader T R) (n done : Nat) (bound : done < path.length)
    (keyLevel : done + 1 < o.keyLevelNodes) :
    memoizedKeyLevels (.reading get) o path now rest (n + 1) (itemAfter path done) =
      .ask (joinKeys (path.take (done + 1))) (.step (stepAt o get now (path.take (done + 1))))
        fun found => yieldFound (.reading get) found.asStep
          (memoizedKeyLevels (.reading get) o path now rest n (itemAfter path (done + 1))) := by
  have next := nextStorageNode_itemAfter (R := R) path done now bound
  have length : (path.take (done + 1)).length = done + 1 := List.length_take_of_le (by omega)
  have own := readStep_eq o get now (path.take (done + 1)) (by omega)
  rw [memoizedKeyLevels, next]
  dsimp only
  rw [getMemoizedStep, buildKey_bareItem path done bound,
    show (bareItem (path.take (done + 1)) : TraversalItem R).ref = nodeRefOf _ from rfl]
  dsimp only
  rw [own]
  rfl

omit [SerializedForm R] in
theorem alone_yieldFound (found : Option (Step T)) (rest : Reader T R) :
    (yieldFound (.reading get) (found.map Sum.inl) rest).alone =
      (found.toList.map Sum.inl ++ rest.alone.1, rest.alone.2) := by
  cases found <;> rfl

theorem memoizedKeyLevels_alone (path : List String) (now : ℚ)
    (rest : Option (TraversalItem R) → Reader T R) : ∀ n done : Nat, done + n ≤ path.length →
      done + n < o.keyLevelNodes →
        (memoizedKeyLevels (.reading get) o path now rest n (itemAfter path done)).alone =
          (((prefixesFrom path done n).filterMap (stepAt o get now)).map Sum.inl ++
            (rest (itemAfter path (done + n))).alone.1,
          (rest (itemAfter path (done + n))).alone.2) := by
  intro n
  induction n with
  | zero => intro done _ _; rfl
  | succ n ih =>
      intro done bound keyLevel
      have later := ih (done + 1) (by omega) (by omega)
      rw [memoizedKeyLevels_succ o get path now rest n done (by omega) (by omega), Asking.alone]
      change (yieldFound (.reading get)
        ((stepAt o get now (path.take (done + 1))).map Sum.inl) _).alone = _
      rw [alone_yieldFound, later, prefixesFrom_succ, List.filterMap_cons,
        Nat.add_right_comm done 1 n]
      cases stepAt o get now (path.take (done + 1)) <;> rfl

theorem memoizedTreeLevels_eq (path : List String) (now : ℚ) (m : Nat)
    (level : o.keyLevelNodes = m + 2) (bound : m + 1 < path.length) :
    memoizedTreeLevels (.reading get) o path now (itemAfter path (m + 1)) =
      .ask (joinKeys (path.take (m + 2))) (.tree (treeAt o get path)) fun found =>
        match found.asTree with
        | none => .ret (.ok none)
        | some tree => yieldSteps (.reading get)
            (treeSteps o now path tree (m + 2) (path.length - (m + 2))) (.ret (.ok none)) := by
  have itemLevel := bareItem_level (R := R) path m (by omega)
  have treeLevel := bareItem_level (R := R) path (m + 1) (by omega)
  have next : getNextStorageNode path (m + 1)
      (some (bareItem (path.take (m + 1)) : TraversalItem R).ref) (Tree.empty : Tree R) now =
        .ok (bareItem (path.take (m + 1 + 1))) := by
    rw [← getNextStorageNode_eq path (m + 1) now bound,
      chainOf_eq_some _ (take_ne_nil path m (by omega))]
    rfl
  have steps : ∀ tree : Tree R, iterateTreeLevels o path now (path.length - (m + 1 + 1))
      (bareItem (path.take (m + 1 + 1))) tree = _ := fun tree =>
    iterateTreeLevels_eq o path now (path.length - (m + 2)) (m + 2) tree (by omega) (by omega)
  rw [itemAfter, memoizedTreeLevels, itemLevel, if_pos bound, next]
  dsimp only
  rw [getMemoizedTree, buildKey_bareItem path (m + 1) bound, treeLevel]
  simp only [readTree, treeAt, level, steps]

theorem memoizedTreeLevels_end (now : ℚ) (path : List String) :
    memoizedTreeLevels (.reading get) o path now (itemAfter path path.length) =
      (.ret (.ok none) : Reader T R) := by
  cases hlen : path.length with
  | zero => rfl
  | succ m =>
      have level := bareItem_level (R := R) path m (by omega)
      rw [itemAfter, memoizedTreeLevels, level, if_neg (by omega)]

theorem memoizedIteratePath_alone (now : ℚ) (path : List String) (twoLevels : 2 ≤ o.keyLevelNodes) :
    (memoizedIteratePath (.reading get) o now path).alone =
      (((nonemptyPrefixes path).filterMap (stepAt o get now)).map Sum.inl, .ok none) := by
  have keyPart := memoizedKeyLevels_alone o get path now (memoizedTreeLevels (.reading get) o path now)
    (min (o.keyLevelNodes - 1) path.length) 0 (by omega) (by omega)
  rw [memoizedIteratePath]
  change (memoizedKeyLevels (.reading get) o path now _ _ (itemAfter path 0)).alone = _
  rw [keyPart, Nat.zero_add]
  by_cases short : path.length < o.keyLevelNodes
  · have whole : min (o.keyLevelNodes - 1) path.length = path.length := by omega
    rw [whole, memoizedTreeLevels_end o get now path, nonemptyPrefixes, Asking.alone, List.append_nil]
  · obtain ⟨m, level⟩ : ∃ m, o.keyLevelNodes = m + 2 := ⟨o.keyLevelNodes - 2, by omega⟩
    have upTo : min (o.keyLevelNodes - 1) path.length = m + 1 := by omega
    have rest := treeSteps_eq o get now path (m + 1) (path.length - (m + 2)) level (by omega)
    have whole : nonemptyPrefixes path = prefixesFrom path 0 (m + 1) ++
        prefixesFrom path (m + 1) (path.length - (m + 2) + 1) := by
      have split : path.length = m + 1 + (path.length - (m + 2) + 1) := by omega
      rw [nonemptyPrefixes]
      nth_rewrite 1 [split]
      rw [prefixesFrom_add, Nat.zero_add]
    rw [upTo, memoizedTreeLevels_eq o get path now m level (by omega), whole,
      List.filterMap_append, List.map_append, ← rest, Asking.alone]
    cases treeAt o get path with
    | none => rfl
    | some tree =>
        change (_ ++ (yieldSteps (.reading get) _ _).alone.1,
          (yieldSteps (.reading get) _ _).alone.2) = _
        rw [alone_yieldSteps, Asking.alone, List.append_nil]
        rfl

/-! ## Steps and trees never meet -/

/-- What any reader finds under a chained key: fewer than `keyLevelNodes` keys lead to a step,
the others to a tree. -/
def memoized (key : String) : MemoValue T R :=
  if (splitKey key).length < o.keyLevelNodes then
    .step (readStep o get key (nodeRefOf (splitKey key)))
  else .tree (readTree o get key)

theorem memoized_step (now : ℚ) (path : List String) (nonempty : path ≠ [])
    (colonFree : ∀ key ∈ path, ColonFree key) (keyLevel : path.length < o.keyLevelNodes) :
    memoized o get (joinKeys path) = .step (stepAt o get now path) := by
  rw [memoized, splitKey_joinKeys path nonempty colonFree, if_pos keyLevel,
    readStep_eq o get now path keyLevel]

theorem memoized_tree (path : List String) (positive : 1 ≤ o.keyLevelNodes)
    (colonFree : ∀ key ∈ path, ColonFree key) (deep : o.keyLevelNodes ≤ path.length) :
    memoized o get (joinKeys (path.take o.keyLevelNodes)) = .tree (treeAt o get path) := by
  have length : (path.take o.keyLevelNodes).length = o.keyLevelNodes := List.length_take_of_le deep
  have nonempty : path.take o.keyLevelNodes ≠ [] := by
    intro h
    rw [h, List.length_nil] at length
    omega
  have free : ∀ key ∈ path.take o.keyLevelNodes, ColonFree key :=
    fun key member => colonFree key (List.mem_of_mem_take member)
  rw [memoized, splitKey_joinKeys _ nonempty free, if_neg (by omega)]
  rfl

omit [SerializedForm R] in
theorem consistent_yieldSteps (answer : String → MemoValue T R) (steps : List (Step T))
    (result : Except Err (Option (Step T))) :
    (yieldSteps (.reading get) steps (.ret result) : Reader T R).Consistent answer := by
  induction steps with
  | nil => trivial
  | cons step steps ih => exact ih

omit [SerializedForm R] in
theorem consistent_yieldFound (answer : String → MemoValue T R)
    (found : Option (Step T ⊕ Tree R)) (rest : Reader T R) (consistent : rest.Consistent answer) :
    (yieldFound (.reading get) found rest).Consistent answer := by
  cases found <;> exact consistent

theorem memoizedKeyLevels_consistent (path : List String) (now : ℚ)
    (colonFree : ∀ key ∈ path, ColonFree key) (rest : Option (TraversalItem R) → Reader T R) :
    ∀ n done : Nat, done + n ≤ path.length → done + n < o.keyLevelNodes →
      (rest (itemAfter path (done + n))).Consistent (memoized o get) →
        (memoizedKeyLevels (.reading get) o path now rest n (itemAfter path done)).Consistent
          (memoized o get) := by
  intro n
  induction n with
  | zero => intro done _ _ consistent; exact consistent
  | succ n ih =>
      intro done bound keyLevel consistent
      have length : (path.take (done + 1)).length = done + 1 := List.length_take_of_le (by omega)
      rw [memoizedKeyLevels_succ o get path now rest n done (by omega) (by omega)]
      constructor
      · exact (memoized_step o get now _ (take_ne_nil path done (by omega))
          (fun key member => colonFree key (List.mem_of_mem_take member)) (by omega)).symm
      · apply consistent_yieldFound
        apply ih (done + 1) (by omega) (by omega)
        rw [Nat.add_right_comm done 1 n]
        exact consistent

theorem memoizedIteratePath_consistent (now : ℚ) (path : List String)
    (colonFree : ∀ key ∈ path, ColonFree key) (twoLevels : 2 ≤ o.keyLevelNodes) :
    (memoizedIteratePath (.reading get) o now path).Consistent (memoized o get) := by
  have keyPart := memoizedKeyLevels_consistent o get path now colonFree
    (memoizedTreeLevels (.reading get) o path now) (min (o.keyLevelNodes - 1) path.length) 0 (by omega)
    (by omega)
  rw [Nat.zero_add] at keyPart
  apply keyPart
  by_cases short : path.length < o.keyLevelNodes
  · have whole : min (o.keyLevelNodes - 1) path.length = path.length := by omega
    rw [whole, memoizedTreeLevels_end o get now path]
    trivial
  · obtain ⟨m, level⟩ : ∃ m, o.keyLevelNodes = m + 2 := ⟨o.keyLevelNodes - 2, by omega⟩
    have upTo : min (o.keyLevelNodes - 1) path.length = m + 1 := by omega
    have own := memoized_tree o get path (by omega) colonFree (by omega)
    rw [level] at own
    rw [upTo, memoizedTreeLevels_eq o get path now m level (by omega)]
    refine ⟨own.symm, ?_⟩
    cases treeAt o get path with
    | none => trivial
    | some tree => exact consistent_yieldSteps get _ _ _

theorem memoizedGetNode_consistent (now : ℚ) (path : List String)
    (colonFree : ∀ key ∈ path, ColonFree key) (positive : 1 ≤ o.keyLevelNodes) :
    (memoizedGetNode (.reading get) o now path).Consistent (memoized o get) := by
  rw [memoizedGetNode, storageNodeRef]
  have nodes := storageNodes_eq (R := R) path now (min o.keyLevelNodes path.length) 0 (by omega)
  rw [Nat.zero_add] at nodes
  rw [show (none : Option (TraversalItem R)) = itemAfter path 0 from rfl, nodes]
  cases upTo : min o.keyLevelNodes path.length with
  | zero => trivial
  | succ m =>
      have level := bareItem_level (R := R) path m (by omega)
      rw [itemAfter]
      dsimp only
      rw [level]
      by_cases keyLevel : m + 1 < o.keyLevelNodes
      · rw [if_pos keyLevel]
        trivial
      · have deep : m + 1 = o.keyLevelNodes := by omega
        have own := memoized_tree o get path positive colonFree (by omega)
        rw [if_neg keyLevel, getMemoizedTree, buildKey_bareItem path m (by omega), deep]
        refine ⟨own.symm, ?_⟩
        dsimp only
        split <;> trivial

/-! ## Calls in any order -/

inductive ReadCall where
  | iteratePath (now : ℚ) (path : List String)
  | getNode (now : ℚ) (path : List String)

namespace ReadCall

def path : ReadCall → List String
  | iteratePath _ path => path
  | getNode _ path => path

def memoized : ReadCall → Reader T R
  | iteratePath now path => memoizedIteratePath (.reading get) o now path
  | getNode now path => memoizedGetNode (.reading get) o now path

/-- What the call yields and returns when there is no memoizer. -/
def direct : ReadCall → List (Step T) × Except Err (Option (Step T))
  | iteratePath now path =>
      match TreeKeyCache.iteratePath o get now path with
      | .error e => ([], .error e)
      | .ok steps => (steps, .ok none)
  | getNode now path => ([], TreeKeyCache.getNode o get now path)

theorem memoized_alone (call : ReadCall) (twoLevels : 2 ≤ o.keyLevelNodes) :
    (call.memoized o get).alone =
      ((call.direct o get).1.map Sum.inl, (call.direct o get).2) := by
  cases call with
  | iteratePath now path =>
      rw [memoized, direct, iteratePath_eq o get now path twoLevels]
      exact memoizedIteratePath_alone o get now path twoLevels
  | getNode now path => exact memoizedGetNode_alone o get now path

theorem memoized_consistent (call : ReadCall) (twoLevels : 2 ≤ o.keyLevelNodes)
    (colonFree : ∀ key ∈ call.path, ColonFree key) :
    (call.memoized o get).Consistent (TreeKeyCache.memoized o get) := by
  cases call with
  | iteratePath now path => exact memoizedIteratePath_consistent o get now path colonFree twoLevels
  | getNode now path => exact memoizedGetNode_consistent o get now path colonFree (by omega)

end ReadCall

/-- What happens to the calls: one is made, a promise is settled, a call goes on. -/
inductive ReadEvent where
  | start (call : ReadCall)
  | settle (promise : Nat)
  | advance (call : Nat)

namespace ReadEvent

def made : ReadEvent → Option ReadCall
  | start call => some call
  | _ => none

def action : ReadEvent →
    MemoTable.Action String (MemoValue T R) (Step T ⊕ Tree R) (Except Err (Option (Step T)))
  | start call => .start (call.memoized o get)
  | settle promise => .settle promise
  | advance call => .advance call

theorem started_action (event : ReadEvent) :
    (event.action o get).started = event.made.map (ReadCall.memoized o get) := by
  cases event <;> rfl

theorem started_actions (events : List ReadEvent) :
    (events.map (action o get)).filterMap MemoTable.Action.started =
      (events.filterMap made).map (ReadCall.memoized o get) := by
  rw [List.filterMap_map, List.map_filterMap]
  apply List.filterMap_congr
  intro event _
  exact started_action o get event

def quiet : MemoTable.Action String (MemoValue T R) (Step T ⊕ Tree R) (Except Err (Option (Step T))) →
    Option ReadEvent
  | .start _ => none
  | .settle promise => some (settle promise)
  | .advance call => some (advance call)

omit [SerializedForm R] in
theorem made_quiet (actions : List (MemoTable.Action String (MemoValue T R) (Step T ⊕ Tree R)
    (Except Err (Option (Step T))))) : (actions.filterMap quiet).filterMap made = [] := by
  rw [List.filterMap_filterMap, List.filterMap_eq_nil_iff]
  intro action _
  cases action <;> rfl

theorem action_quiet (actions : List (MemoTable.Action String (MemoValue T R) (Step T ⊕ Tree R)
    (Except Err (Option (Step T))))) (started : MemoTable.Quiet actions) :
    (actions.filterMap quiet).map (action o get) = actions := by
  induction actions with
  | nil => rfl
  | cons first actions ih =>
      rw [MemoTable.Quiet, List.filterMap_cons] at started
      cases first with
      | start program => cases started
      | settle promise => exact congrArg _ (ih started)
      | advance call => exact congrArg _ (ih started)

end ReadEvent

/-- The memoizer, its promises and the calls after the events, from an empty memoizer. -/
def readTable (events : List ReadEvent) :
    Table String (MemoValue T R) (Step T ⊕ Tree R) (Except Err (Option (Step T))) :=
  Table.empty.run (events.map (ReadEvent.action o get))

/-- The calls of any schedule yield and return what they would without the memoizer, every
promise a call waits for holds what the call asked for, and no call is ever stuck. -/
theorem memoizer_transparent (twoLevels : 2 ≤ o.keyLevelNodes) (events : List ReadEvent)
    (colonFree : ∀ call ∈ events.filterMap ReadEvent.made, ∀ key ∈ call.path, ColonFree key)
    (i : Nat) (made : ReadCall) (listed : (events.filterMap ReadEvent.made)[i]? = some made) :
    ∃ call, (readTable o get events).calls[i]? = some call ∧
      call.yielded <+: (made.direct o get).1.map Sum.inl ∧
      (∀ result, call.Returned result →
        call.yielded = (made.direct o get).1.map Sum.inl ∧ result = (made.direct o get).2) ∧
      (∀ promise own rest, call.phase = .awaiting promise own rest →
        ∃ settled, (readTable o get events).promises[promise]? = some ⟨own, settled⟩) ∧
      ∃ more : List ReadEvent, more.filterMap ReadEvent.made = [] ∧
        ∃ call' result, (readTable o get (events ++ more)).calls[i]? = some call' ∧
          call'.Returned result ∧ call'.yielded = (made.direct o get).1.map Sum.inl ∧
            result = (made.direct o get).2 := by
  have consistent : ∀ program ∈ (events.map (ReadEvent.action o get)).filterMap MemoTable.Action.started,
      program.Consistent (memoized o get) := by
    intro program member
    rw [ReadEvent.started_actions] at member
    obtain ⟨call, callMember, rfl⟩ := List.mem_map.mp member
    exact call.memoized_consistent o get twoLevels (colonFree call callMember)
  have program : ((events.map (ReadEvent.action o get)).filterMap MemoTable.Action.started)[i]? =
      some (made.memoized o get) := by
    rw [ReadEvent.started_actions, List.getElem?_map, listed]
    rfl
  have alone := made.memoized_alone o get twoLevels
  obtain ⟨call, found, yielded, returned, promised, more, quiet, call', result, found', ended, same⟩ :=
    transparent _ consistent i _ program
  rw [alone] at yielded same
  refine ⟨call, found, yielded, ?_, promised, ?_⟩
  · intro result ended
    have same := returned result ended
    rw [alone] at same
    exact ⟨(congrArg Prod.fst same).symm, (congrArg Prod.snd same).symm⟩
  · refine ⟨more.filterMap ReadEvent.quiet, ReadEvent.made_quiet more, call', result, ?_, ended,
      (congrArg Prod.fst same).symm, (congrArg Prod.snd same).symm⟩
    rw [readTable, List.map_append, ReadEvent.action_quiet o get more quiet]
    exact found'

end

/-- `getNode` has asked for the tree of `"a:b"`, and `iteratePath` asks for it before it is there. -/
def pendingTree : List ReadEvent :=
  [.start (.getNode 0 ["a", "b"]), .start (.iteratePath 1 ["a", "b"]), .advance 0, .advance 1,
    .settle 1, .advance 1, .advance 1]

theorem memoizer_transparent_while_pending :
    (readTable (Text.plainOptions 2) (oneNode "x") pendingTree).promises.map Promise.settled =
        [false, true] ∧
      ∃ more : List ReadEvent, ∃ call result,
        (readTable (Text.plainOptions 2) (oneNode "x") (pendingTree ++ more)).calls[1]? = some call ∧
          call.Returned result ∧ call.yielded.length = 1 := by
  refine ⟨by decide +kernel, ?_⟩
  have colonFree : ∀ call ∈ pendingTree.filterMap ReadEvent.made, ∀ key ∈ call.path, ColonFree key := by
    decide
  obtain ⟨_, _, _, _, _, more, _, call, result, found, ended, yielded, _⟩ :=
    memoizer_transparent (Text.plainOptions 2) (oneNode "x") (by decide) pendingTree colonFree 1
      (.iteratePath 1 ["a", "b"]) rfl
  have one : ((ReadCall.iteratePath 1 ["a", "b"]).direct (Text.plainOptions 2)
      (oneNode "x")).1.length = 1 := by decide +kernel
  refine ⟨more, call, result, found, ended, ?_⟩
  rw [yielded, List.length_map, one]

end TreeKeyCache
