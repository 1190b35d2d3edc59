import TreeKeyCache.Lookup
import TreeKeyCache.Monitors
import TreeKeyCache.FullTreeSet
import TreeKeyCache.TextSerializers

/-! # The children registry

Writers pass pairs of a parent key and a key to `registerChild`, so that traversals can
find the stored keys again.  The registry is complete when it holds a pair for every
split of every stored key.  The key level loop of `deepTreeSet` registers the keys above
the tree level, `fullTreeSet` registers the children of the nodes above the tree level;
none of them registers the step to a tree level key on a path, or the first level of a
whole tree. -/
set_option autoImplicit false
namespace TreeKeyCache

variable {T R : Type}

abbrev Registry := List (Option String × String)

/-- The key of the parent that the keys `front` lead to. -/
def parentKey : List String → Option String
  | [] => none
  | key :: rest => some (joinKeys (key :: rest))

/-- There is a pair for every split of the path. -/
def PathRegistered (registry : Registry) (path : List String) : Prop :=
  ∀ front next rest, path = front ++ next :: rest → (parentKey front, next) ∈ registry

def Registered (registry : Registry) (key : String) : Prop := PathRegistered registry (splitKey key)

def RegistryComplete (w : World R) : Prop := ∀ key, w.store key ≠ none → Registered w.registry key

theorem pathRegistered_nil (registry : Registry) : PathRegistered registry [] := by
  intro front next rest split
  exact absurd split (by simp)

theorem PathRegistered.snoc {registry : Registry} {path : List String}
    (registered : PathRegistered registry path) (key : String)
    (listed : (parentKey path, key) ∈ registry) : PathRegistered registry (path ++ [key]) := by
  intro front next rest split
  by_cases atEnd : rest = []
  · rw [atEnd] at split
    obtain ⟨rfl, last⟩ := List.append_inj' split rfl
    rw [List.singleton_inj.mp last] at listed
    exact listed
  · obtain ⟨shorter, last, rfl⟩ := exists_append_singleton rest atEnd
    refine registered front next shorter ?_
    have cut : path ++ [key] = (front ++ next :: shorter) ++ [last] := by
      rw [split, List.append_assoc, List.cons_append]
    exact (List.append_inj' cut rfl).1

theorem PathRegistered.mono {registry registry' : Registry} {path : List String}
    (registered : PathRegistered registry path) (more : ∀ pair ∈ registry, pair ∈ registry') :
    PathRegistered registry' path :=
  fun front next rest split => more _ (registered front next rest split)

theorem registered_joinKeys {registry : Registry} {path : List String}
    (registered : PathRegistered registry path) (nonempty : path ≠ [])
    (proper : ∀ key ∈ path, ProperKey key) : Registered registry (joinKeys path) := by
  rw [Registered, splitKey_joinKeys path nonempty fun key member => (proper key member).2]
  exact registered

theorem prefixKey_eq_parentKey (path : List String) (n : Nat) (bound : n ≤ path.length) :
    prefixKey path n = parentKey (path.take n) := by
  cases n with
  | zero => rfl
  | succ n =>
      cases path with
      | nil => exact absurd bound (by simp)
      | cons key rest => rfl

/-! ## The monitor -/

/-- Stores are permitted under keys that can be found. -/
def registryMonitor : Monitor Registry R where
  permits registry event := match event with
    | .stored key _ _ => Registered registry key
    | _ => True
  after registry event := match event with
    | .registered parent child => registry ++ [(parent, child)]
    | _ => registry

theorem registryMonitor_lockBlind : Prog.LockBlind (registryMonitor (R := R)) :=
  ⟨fun _ _ => trivial, fun _ _ => trivial, fun _ _ => rfl, fun _ _ => rfl⟩

theorem registryMonitor_tracks : Prog.Tracks (registryMonitor (R := R))
    fun w registry => w.registry = registry ∧ RegistryComplete w where
  stored w registry key value ttl related permitted := by
    refine ⟨related.1, fun other stored => ?_⟩
    by_cases same : other = key
    · rw [same, World.write_registry, related.1]
      exact permitted
    · refine related.2 other ?_
      have untouched : (w.write key value ttl).store other = w.store other :=
        Function.update_of_ne same _ _
      rwa [untouched] at stored
  registered w registry parent child related _ := by
    refine ⟨?_, fun key stored => (related.2 key stored).mono fun pair => List.mem_append_left _⟩
    rw [← related.1]
    rfl
  acquired _ _ _ related := related
  released _ _ _ related := related

/-- The registry only grows. -/
def Extends (registry registry' : Registry) : Prop := ∀ pair ∈ registry, pair ∈ registry'

theorem Extends.refl (registry : Registry) : Extends registry registry := fun _ member => member

theorem Extends.trans {a b c : Registry} (first : Extends a b) (second : Extends b c) :
    Extends a c := fun pair member => second pair (first pair member)

open Prog

section
variable {Y : Type} {registry : Registry}

theorem persistTree_obeys (o : Options T R) (key : String) (ttl : Option ℚ) (tree : Tree R)
    (known : Registered registry key) :
    (persistTree o key ttl tree : Prog Y T R Unit).Obeys registryMonitor
      (onOk fun after _ => after = registry) registry := by
  have store : ∀ maxTtl : Option ℚ, (Prog.ret (o.treeSerializer.serialize tree) >>= fun serialized =>
      Prog.storageSet key serialized maxTtl : Prog Y T R Unit).Obeys registryMonitor
        (onOk fun after _ => after = registry) registry :=
    fun maxTtl => (quiet_ret _).thenOk fun _ => obeys_storageSet known rfl
  unfold persistTree
  by_cases timed : truthyNumber ttl = true
  · simp only [if_pos timed, Prog.pure_eq, Prog.ret_ok_bind]
    exact (quiet_storageTtl key).thenOk fun _ => store _
  · simp only [if_neg timed, Prog.pure_eq, Prog.ret_ok_bind]
    exact store none

variable [SerializedForm R]

theorem persistStep_obeys (o : Options T R) (step : Step T) (current : Option R) (key : String)
    (ttl : Option (StepTtl T)) (known : Registered registry key) :
    (persistStep o step current key ttl : Prog Y T R Unit).Obeys registryMonitor
      (onOk fun after _ => after = registry) registry := by
  unfold persistStep
  cases o.given step.value with
  | none => exact obeys_pure rfl
  | some value =>
      refine (quiet_ret _).thenOk fun serialized => ?_
      split
      · exact obeys_storageSet known rfl
      · exact obeys_pure rfl

end

/-! ## Writing along a path -/

section
variable [SerializedForm R] {registry : Registry} (o : Options T R)
  (createValue : Option (CreateValue T)) (ttl : Option (StepTtl T)) (minLevelSemaphore : Nat)
  {path : List String}

/-- The cursor is `n` levels down the path, and they are registered. -/
structure Descended (path : List String) (n : Nat) (cursor : Cursor) (before after : Registry) :
    Prop where
  level : cursor.currentLevel = n
  chained : cursor.chainedKey = prefixKey path n
  grown : Extends before after
  known : PathRegistered after (path.take n)

theorem keyLevel_obeys (proper : ∀ key ∈ path, ProperKey key) (n : Nat) (bound : n < path.length)
    (before : Registry) (cursor : Cursor) (at_n : Descended path n cursor before registry) :
    (keyLevel o path createValue ttl minLevelSemaphore cursor).Obeys registryMonitor
      (onOk fun after next => Descended path (n + 1) next before after) registry := by
  have found : path[n]? = some path[n] := List.getElem?_eq_getElem bound
  have chained := getChainedKey_prefix path n path[n] (fun key member => (proper key member).1) found
  have taken : path.take (n + 1) = path.take n ++ [path[n]] := by
    rw [List.take_add_one, found]
    rfl
  let after : Registry := registry ++ [(prefixKey path n, path[n])]
  have grown : Extends registry after := fun _ member => List.mem_append_left _ member
  have known : PathRegistered after (path.take (n + 1)) := by
    rw [taken]
    refine (at_n.known.mono grown).snoc _ ?_
    rw [← prefixKey_eq_parentKey path n (by omega)]
    exact List.mem_append_right _ (List.mem_singleton.mpr rfl)
  have keyKnown : Registered after (joinKeys (path.take (n + 1))) :=
    registered_joinKeys known (take_ne_nil path n bound) fun key member =>
      proper key (List.mem_of_mem_take member)
  unfold keyLevel
  rw [at_n.level, at_n.chained, chained]
  simp only [Prog.ret_ok_bind]
  refine Obeys.bindOk (fun s _ => s = after) (obeys_storageRegister trivial rfl) ?_
  rintro _ _ rfl
  apply registryMonitor_lockBlind.acquire
  apply registryMonitor_lockBlind.tryFinally
  refine (quiet_storageGet _).thenOk fun currentSerialized => ?_
  refine (quiet_ret _).thenOk fun step => ?_
  refine (quiet_yieldItem _).thenOk fun value => ?_
  refine Obeys.bindOk (fun s _ => s = after) (persistStep_obeys o _ _ _ ttl keyKnown) ?_
  rintro _ _ rfl
  exact obeys_pure ⟨rfl, rfl, at_n.grown.trans grown, known⟩

theorem keyLevels_obeys (proper : ∀ key ∈ path, ProperKey key) (before : Registry) :
    ∀ (count n : Nat) (cursor : Cursor) (registry : Registry), n + count ≤ path.length →
      Descended path n cursor before registry →
      (keyLevels o path createValue ttl minLevelSemaphore count cursor).Obeys registryMonitor
        (onOk fun after next => Descended path (n + count) next before after) registry := by
  intro count
  induction count with
  | zero =>
      intro n cursor registry _ at_n
      exact obeys_pure at_n
  | succ count ih =>
      intro n cursor registry bound at_n
      refine Obeys.bindOk (fun after next => Descended path (n + 1) next before after)
        (keyLevel_obeys o createValue ttl minLevelSemaphore proper n (by omega) before cursor at_n) ?_
      intro after next descended
      have rest := ih (n + 1) next after (by omega) descended
      rwa [Nat.add_right_comm, Nat.add_assoc] at rest

theorem treeLevels_quiet (now : ℚ) : ∀ (n level : Nat) (key : String)
    (parentRef : Option ChainedObject) (tree : Tree R) (maxTtl : Option ℚ),
      (treeLevels o path createValue ttl now n level key parentRef tree maxTtl).Quiet := by
  intro n
  have node : ∀ nodeRef (tree : Tree R), (treeNode o createValue now nodeRef tree).Quiet := by
    intro nodeRef tree
    unfold treeNode
    exact (quiet_ret _).bind fun step => (quiet_yieldItem _).bind fun value => quiet_ret _
  induction n with
  | zero =>
      intro level key parentRef tree maxTtl
      unfold treeLevels
      exact (node _ _).bind fun found => quiet_ret _
  | succ n ih =>
      intro level key parentRef tree maxTtl
      unfold treeLevels
      refine (node _ _).bind fun found => ?_
      refine (quiet_ret _).bind fun here => ?_
      refine (quiet_ret _).bind fun nextKey => ?_
      dsimp only
      split
      · exact (ih _ _ _ _ _).bind fun below => quiet_ret _
      · exact (ih _ _ _ _ _).bind fun below => quiet_ret _
      · exact (ih _ _ _ _ _).bind fun below => quiet_ret _

theorem treeLevel_obeys (proper : ∀ key ∈ path, ProperKey key) (n : Nat) (bound : n < path.length)
    (now : ℚ) (before : Registry) (cursor : Cursor) (at_n : Descended path n cursor before registry)
    (anchored : (prefixKey path n, path.getD n "") ∈ before) :
    (treeLevel o path createValue ttl minLevelSemaphore now cursor).Obeys registryMonitor
      (onOk fun after _ => after = registry) registry := by
  have found : path[n]? = some path[n] := List.getElem?_eq_getElem bound
  have chained := getChainedKey_prefix path n path[n] (fun key member => (proper key member).1) found
  have taken : path.take (n + 1) = path.take n ++ [path[n]] := by
    rw [List.take_add_one, found]
    rfl
  have keyKnown : Registered registry (joinKeys (path.take (n + 1))) := by
    refine registered_joinKeys ?_ (take_ne_nil path n bound) fun key member =>
      proper key (List.mem_of_mem_take member)
    rw [taken]
    refine at_n.known.snoc _ ?_
    rw [List.getD_eq_getElem?_getD, found, prefixKey_eq_parentKey path n (by omega)] at anchored
    exact at_n.grown _ anchored
  unfold treeLevel
  rw [at_n.level, at_n.chained, chained]
  simp only [Prog.ret_ok_bind]
  apply registryMonitor_lockBlind.acquire
  apply registryMonitor_lockBlind.tryFinally
  refine (quiet_storageGet _).thenOk fun buffer => ?_
  refine (quiet_ret _).thenOk fun rootTree => ?_
  refine (treeLevels_quiet o createValue ttl now _ _ _ _ _ _).thenOk fun result => ?_
  split
  · exact persistTree_obeys o _ _ _ keyKnown
  · exact obeys_pure rfl

/-- The step from the key levels to the tree level key of the path has been registered. -/
def Anchored (keyLevelNodes : Nat) (registry : Registry) (path : List String) : Prop :=
  keyLevelNodes ≤ path.length →
    (prefixKey path (keyLevelNodes - 1), path.getD (keyLevelNodes - 1) "") ∈ registry

theorem deepTreeSet_obeys (twoLevels : 2 ≤ o.keyLevelNodes) (proper : ∀ key ∈ path, ProperKey key)
    (anchored : Anchored o.keyLevelNodes registry path) :
    (deepTreeSet o path createValue ttl [] minLevelSemaphore).Obeys registryMonitor
      (onOk fun _ _ => True) registry := by
  unfold deepTreeSet
  refine quiet_now.thenOk fun now => ?_
  refine Obeys.bindOk (fun after cursor =>
    Descended path (min (o.keyLevelNodes - 1) path.length) cursor registry after) ?_ ?_
  · have levels := keyLevels_obeys o createValue ttl minLevelSemaphore proper registry
      (min (o.keyLevelNodes - 1) path.length) 0 ⟨0, none, none⟩ registry (by omega)
      ⟨rfl, rfl, Extends.refl registry, pathRegistered_nil registry⟩
    rw [Nat.zero_add] at levels
    exact levels
  · intro after cursor descended
    by_cases deep : cursor.currentLevel < path.length
    · rw [if_pos deep]
      rw [descended.level] at deep
      have level : min (o.keyLevelNodes - 1) path.length = o.keyLevelNodes - 1 := by omega
      rw [level] at descended
      split
      · exact obeys_ret fun _ failed => (nomatch failed)
      · exact (treeLevel_obeys o createValue ttl minLevelSemaphore proper (o.keyLevelNodes - 1)
          (by omega) now registry cursor descended (anchored (by omega))).monoOk fun _ _ _ => trivial
    · rw [if_neg deep]
      exact obeys_pure trivial

theorem setNode_obeys (twoLevels : 2 ≤ o.keyLevelNodes) (proper : ∀ key ∈ path, ProperKey key)
    (anchored : Anchored o.keyLevelNodes registry path) (value : Option (NodeValue T)) :
    (setNode o path value ttl).Obeys registryMonitor (onOk fun _ _ => True) registry := by
  unfold setNode
  cases value.filter fun value => !value.isNull o with
  | none => exact obeys_pure trivial
  | some value =>
      apply Obeys.forAwait
      exact deepTreeSet_obeys o _ ttl path.length twoLevels proper anchored

end

/-! ## Writing a whole tree -/

section
variable {registry : Registry}

theorem registerChildren_obeys {Y : Type} (chainedKey : String) :
    ∀ (children : TreeChildren T) (registry : Registry),
      (registerChildren chainedKey children : Prog Y T R Unit).Obeys registryMonitor
        (onOk fun after _ => Extends registry after ∧
          ∀ key child, (key, child) ∈ children → (some chainedKey, key) ∈ after) registry := by
  intro children
  induction children with
  | nil =>
      intro registry
      exact obeys_pure ⟨Extends.refl registry, fun key child member => (nomatch member)⟩
  | cons first rest ih =>
      intro registry
      obtain ⟨key, child⟩ := first
      refine Obeys.bindOk (fun after _ => after = registry ++ [(some chainedKey, key)])
        (obeys_storageRegister trivial rfl) ?_
      rintro _ _ rfl
      refine (ih _).monoOk fun after _ reached => ⟨fun pair member => ?_, fun key' child' member => ?_⟩
      · exact reached.1 pair (List.mem_append_left _ member)
      · rcases List.mem_cons.mp member with same | later
        · rw [(Prod.mk.inj same).1]
          exact reached.1 _ (List.mem_append_right _ (List.mem_singleton.mpr rfl))
        · exact reached.2 key' child' later

variable [SerializedForm R] (o : Options T R) (createValue : CreateValue T)
  (ttl : Option (StepTtl T)) (minLevelSemaphore : Nat)

theorem saveItems_quiet (now : ℚ) (rootLevel : Nat) : ∀ (items : List (TraversalItem T))
    (st : Saving R), (saveItems o createValue ttl now rootLevel items st).Quiet := by
  intro items
  induction items with
  | nil => exact fun st => quiet_ret _
  | cons item rest ih =>
      intro st
      refine Quiet.bind ?_ fun next => ih next
      unfold saveItem
      refine (quiet_ret _).bind fun entered => ?_
      refine (quiet_yieldItem _).bind fun value => ?_
      refine (quiet_ret _).bind fun changed => ?_
      cases changed with
      | none => exact quiet_ret _
      | some serialized => exact quiet_ret _

theorem saveFullTreeValue_obeys (node : TraversalItem T) (key : String)
    (known : Registered registry key) :
    (saveFullTreeValue o node key createValue ttl).Obeys registryMonitor
      (onOk fun after _ => after = registry) registry := by
  unfold saveFullTreeValue
  refine quiet_now.thenOk fun now => ?_
  refine (quiet_storageGet _).thenOk fun buffer => ?_
  refine (quiet_ret _).thenOk fun rootTree => ?_
  refine quiet_now.thenOk fun traversalNow => ?_
  refine (saveItems_quiet o createValue ttl now _ _ _).thenOk fun last => ?_
  split
  · exact persistTree_obeys o _ _ _ known
  · exact obeys_pure rfl

theorem saveKeyLevelValue_obeys (node : TraversalItem T) (key : String)
    (known : Registered registry key) :
    (saveKeyLevelValue o node key createValue ttl).Obeys registryMonitor
      (onOk fun after _ => Extends registry after ∧
        ∀ child tree, (child, tree) ∈ node.treeRef.children.getD [] → (some key, child) ∈ after)
      registry := by
  unfold saveKeyLevelValue
  refine Obeys.bindOk _ (registerChildren_obeys key _ registry) ?_
  intro after _ registered
  refine (quiet_storageGet _).thenOk fun currentSerialized => ?_
  refine (quiet_ret _).thenOk fun old => ?_
  refine (quiet_yieldItem _).thenOk fun value => ?_
  refine (persistStep_obeys o _ _ _ ttl (known.mono registered.1)).monoOk fun s _ same => ?_
  rw [same]
  exact registered

theorem registered_buildKey {depth : Nat} {item : TraversalItem T}
    (spelled : item.Spelled properTest depth) (known : PathRegistered registry item.ref.keys) :
    Registered registry (buildKey item.ref) := by
  rw [buildKey_eq]
  exact registered_joinKeys known item.ref.keys_ne_nil fun key member =>
    of_decide_eq_true (spelled.keys key member)

/-- The children of the node are registered, where they have keys of their own. -/
def ChildrenRegistered (keyLevelNodes : Nat) (registry : Registry) (item : TraversalItem T) : Prop :=
  item.ref.level < keyLevelNodes →
    ∀ key child, (key, child) ∈ item.treeRef.children.getD [] → (some (buildKey item.ref), key) ∈ registry

theorem pathRegistered_top {tree : Tree T} {item : TraversalItem T} (top : item.Top tree)
    (known : ∀ key child, (key, some child) ∈ tree.children.getD [] → (none, key) ∈ registry) :
    PathRegistered registry item.ref.keys := by
  obtain ⟨key, listed, ref⟩ := top
  rw [ref]
  exact (pathRegistered_nil registry).snoc key (known key _ listed)

theorem pathRegistered_under {keyLevelNodes : Nat} {parent item : TraversalItem T}
    (known : PathRegistered registry parent.ref.keys)
    (children : ChildrenRegistered keyLevelNodes registry parent) (under : parent.Under item)
    (bound : item.ref.level ≤ keyLevelNodes) : PathRegistered registry item.ref.keys := by
  obtain ⟨key, listed, ref⟩ := under
  have level : item.ref.level = parent.ref.level + 1 := by
    rw [ref]
    rfl
  rw [ref]
  refine known.snoc key ?_
  have above := children (by omega) key _ listed
  rw [buildKey_eq] at above
  cases path : parent.ref.keys with
  | nil => exact absurd path parent.ref.keys_ne_nil
  | cons first rest =>
      rw [path] at above
      exact above

theorem fullTreeSetNode_obeys (item : TraversalItem T)
    (known : Registered registry (buildKey item.ref)) :
    (fullTreeSetNode o createValue minLevelSemaphore ttl item).Obeys registryMonitor
      (onOk fun after _ => Extends registry after ∧
        ChildrenRegistered o.keyLevelNodes after item) registry := by
  unfold fullTreeSetNode
  simp only [Prog.pure_eq]
  apply registryMonitor_lockBlind.acquire
  apply registryMonitor_lockBlind.tryFinally
  split
  · rename_i treeLevel
    refine (saveFullTreeValue_obeys o createValue ttl item _ known).monoOk ?_
    rintro _ _ rfl
    exact ⟨Extends.refl _, fun above => absurd treeLevel (Nat.ne_of_lt above)⟩
  · refine (saveKeyLevelValue_obeys o createValue ttl item _ known).monoOk ?_
    intro after _ reached
    exact ⟨reached.1, fun _ => reached.2⟩

theorem fullTreeSetNodes_obeys (now : ℚ) (tree : Tree T) (proper : tree.allKeys properTest = true) :
    ∀ (rest handled : List (TraversalItem T)) (registry : Registry),
      treePreOrderBreadthFirstSearch now tree none = handled ++ rest →
      (∀ key child, (key, some child) ∈ tree.children.getD [] → (none, key) ∈ registry) →
      (∀ item ∈ handled, PathRegistered registry item.ref.keys ∧
        ChildrenRegistered o.keyLevelNodes registry item) →
      (fullTreeSetNodes o createValue minLevelSemaphore ttl rest).Obeys registryMonitor
        (onOk fun _ _ => True) registry := by
  intro rest
  induction rest with
  | nil =>
      intro handled registry _ _ _
      exact obeys_pure trivial
  | cons item rest ih =>
      intro handled registry split firstLevel settled
      unfold fullTreeSetNodes
      by_cases below : o.keyLevelNodes < item.ref.level
      · rw [if_pos below]
        exact obeys_pure trivial
      · rw [if_neg below]
        have spelled := treePreOrderTraversal_spelled .fifo now tree properTest proper item (by
          have listed : item ∈ handled ++ item :: rest :=
            List.mem_append_right _ List.mem_cons_self
          rwa [← split] at listed)
        have known : PathRegistered registry item.ref.keys := by
          rcases treePreOrderTraversal_origin .fifo now tree handled item rest split with
            top | ⟨parent, listed, under⟩
          · exact pathRegistered_top top firstLevel
          · exact pathRegistered_under (settled parent listed).1 (settled parent listed).2 under
              (by omega)
        refine Obeys.bindOk _ (fullTreeSetNode_obeys o createValue ttl minLevelSemaphore item
          (registered_buildKey spelled known)) ?_
        intro after _ reached
        refine ih (handled ++ [item]) after ?_ ?_ ?_
        · rw [split, List.append_assoc, List.singleton_append]
        · exact fun key child member => reached.1 _ (firstLevel key child member)
        · intro other member
          rcases List.mem_append.mp member with earlier | here
          · obtain ⟨otherKnown, children⟩ := settled other earlier
            exact ⟨otherKnown.mono reached.1, fun above key child listed =>
              reached.1 _ (children above key child listed)⟩
          · rw [List.mem_singleton.mp here]
            exact ⟨known.mono reached.1, reached.2⟩

theorem fullTreeSet_obeys (tree : Tree T) (proper : tree.allKeys properTest = true)
    (firstLevel : ∀ key child, (key, some child) ∈ tree.children.getD [] → (none, key) ∈ registry) :
    (fullTreeSet o tree createValue minLevelSemaphore ttl).Obeys registryMonitor
      (onOk fun _ _ => True) registry := by
  unfold fullTreeSet
  refine quiet_now.thenOk fun now => ?_
  exact fullTreeSetNodes_obeys o createValue ttl minLevelSemaphore now tree proper _ [] registry rfl
    firstLevel fun item member => (nomatch member)

end

/-! ## Sequences of calls -/

/-- A call with its consumer, which may throw as well as the other callbacks. -/
inductive WriterCall (T R : Type) where
  | setNode (path : List String) (value : Option (NodeValue T)) (ttl : Option (StepTtl T))
  | deepTreeSet (path : List String) (createValue : Option (CreateValue T))
      (ttl : Option (StepTtl T)) (minLevelSemaphore : Nat)
      (consumer : Step T → Except Err (Option T))
  | fullTreeSet (tree : Tree T) (createValue : CreateValue T) (minLevelSemaphore : Nat)
      (ttl : Option (StepTtl T)) (consumer : FullSetItem T R → Except Err (Option T))

namespace WriterCall

def ProperKeys : WriterCall T R → Prop
  | setNode path _ _ => ∀ key ∈ path, ProperKey key
  | deepTreeSet path _ _ _ _ => ∀ key ∈ path, ProperKey key
  | fullTreeSet tree _ _ _ _ => tree.allKeys properTest = true

/-- The pair that the call does not register itself is in the registry. -/
def Meets (keyLevelNodes : Nat) (registry : Registry) : WriterCall T R → Prop
  | setNode path _ _ => Anchored keyLevelNodes registry path
  | deepTreeSet path _ _ _ _ => Anchored keyLevelNodes registry path
  | fullTreeSet tree _ _ _ _ =>
      ∀ key child, (key, some child) ∈ tree.children.getD [] → (none, key) ∈ registry

variable [SerializedForm R]

def run (o : Options T R) (w : World R) : WriterCall T R → World R
  | setNode path value ttl => ((TreeKeyCache.setNode o path value ttl).run Step.value w).world
  | deepTreeSet path createValue ttl minLevelSemaphore consumer =>
      ((forAwait consumer (TreeKeyCache.deepTreeSet o path createValue ttl [] minLevelSemaphore)).run
        Step.value w).world
  | fullTreeSet tree createValue minLevelSemaphore ttl consumer =>
      ((forAwait consumer (TreeKeyCache.fullTreeSet o tree createValue minLevelSemaphore ttl)).run
        (fun item => item.value) w).world

theorem run_registryComplete (o : Options T R) (twoLevels : 2 ≤ o.keyLevelNodes) (w : World R)
    (call : WriterCall T R) (proper : call.ProperKeys) (meets : call.Meets o.keyLevelNodes w.registry)
    (complete : RegistryComplete w) : RegistryComplete (call.run o w) := by
  cases call with
  | setNode path value ttl =>
      obtain ⟨_, _, complete'⟩ := registryMonitor_tracks.run Step.value
        (setNode_obeys o ttl twoLevels proper meets value) ⟨rfl, complete⟩
      exact complete'
  | deepTreeSet path createValue ttl minLevelSemaphore consumer =>
      have obeys := deepTreeSet_obeys o createValue ttl minLevelSemaphore twoLevels proper meets
      obtain ⟨_, _, complete'⟩ := registryMonitor_tracks.run Step.value (obeys.forAwait _)
        ⟨rfl, complete⟩
      exact complete'
  | fullTreeSet tree createValue minLevelSemaphore ttl consumer =>
      have obeys := fullTreeSet_obeys o createValue ttl minLevelSemaphore tree proper meets
      obtain ⟨_, _, complete'⟩ := registryMonitor_tracks.run (fun item => item.value)
        (obeys.forAwait _) ⟨rfl, complete⟩
      exact complete'

end WriterCall

section
variable [SerializedForm R] (o : Options T R)

/-- The calls one after another, each at its own time. -/
def runWriters : List (ℚ × WriterCall T R) → World R → World R
  | [], w => w
  | (t, call) :: rest, w => runWriters rest (call.run o { w with clock := t })

/-- Every call meets its condition in the state before it. -/
def AllMeet : List (ℚ × WriterCall T R) → World R → Prop
  | [], _ => True
  | (t, call) :: rest, w =>
      call.Meets o.keyLevelNodes w.registry ∧ AllMeet rest (call.run o { w with clock := t })

theorem runWriters_registryComplete (twoLevels : 2 ≤ o.keyLevelNodes) :
    ∀ (calls : List (ℚ × WriterCall T R)) (w : World R), (∀ call ∈ calls, call.2.ProperKeys) →
      AllMeet o calls w → RegistryComplete w → RegistryComplete (runWriters o calls w) := by
  intro calls
  induction calls with
  | nil => exact fun w _ _ complete => complete
  | cons first rest ih =>
      intro w proper meets complete
      obtain ⟨t, call⟩ := first
      refine ih _ (fun other member => proper other (List.mem_cons_of_mem _ member)) meets.2 ?_
      exact call.run_registryComplete o twoLevels _ (proper _ List.mem_cons_self) meets.1 complete

/-- From the empty storage and registry, as long as every call finds the one step registered
that it does not register itself, every stored key can be found. -/
theorem registry_complete (twoLevels : 2 ≤ o.keyLevelNodes) (t : ℚ)
    (calls : List (ℚ × WriterCall T R)) (proper : ∀ call ∈ calls, call.2.ProperKeys)
    (meets : AllMeet o calls (World.emptyAt t)) :
    RegistryComplete (runWriters o calls (World.emptyAt t)) :=
  runWriters_registryComplete o twoLevels calls _ proper meets fun _ stored => absurd rfl stored

end

/-- The first call registers `a`, the second one `b` below it, and the third one needs both. -/
def registeringCalls : List (ℚ × WriterCall Nat String) :=
  [(0, .setNode ["a"] (some (.value 1)) none),
    (1, .fullTreeSet (.mk none none (some [("a", some (.mk none none
      (some [("b", some (.mk (some 2) none none))])))])) (fun _ => .ok (some 0)) 0 none
      fun item => .ok item.value),
    (2, .setNode ["a", "b", "x"] (some (.value 3)) none)]

theorem registry_complete_registeringCalls :
    RegistryComplete (runWriters (Text.options 2).toOptions registeringCalls (World.emptyAt 0)) ∧
      (runWriters (Text.options 2).toOptions registeringCalls (World.emptyAt 0)).registry =
        [(none, "a"), (some "a", "b"), (none, "a")] := by
  refine ⟨registry_complete (Text.options 2).toOptions (by decide) 0 registeringCalls ?_ ?_,
    by decide +kernel⟩
  · intro call member
    simp only [registeringCalls, List.mem_cons, List.not_mem_nil, or_false] at member
    rcases member with rfl | rfl | rfl
    · intro key listed
      rw [List.mem_singleton.mp listed]
      decide
    · unfold WriterCall.ProperKeys
      decide +kernel
    · intro key listed
      simp only [List.mem_cons, List.not_mem_nil, or_false] at listed
      rcases listed with rfl | rfl | rfl <;> decide
  · refine ⟨fun deep => absurd deep (by decide), fun key child listed => ?_, fun _ => ?_, trivial⟩
    · obtain ⟨rfl, _⟩ := Prod.mk.inj (List.mem_singleton.mp listed)
      decide +kernel
    · decide +kernel

/-- The key `a:b` is stored and ("a", "b") is not registered; and whole trees do not even
register their first level. -/
theorem registry_incomplete :
    ¬ RegistryComplete (runWriters (Text.options 2).toOptions
        [(0, .setNode ["a", "b"] (some (.value 1)) none)] (World.emptyAt 0)) ∧
      ¬ RegistryComplete (runWriters (Text.options 2).toOptions
        [(0, .fullTreeSet (.mk none none (some [("a", some (.mk (some 1) none none))]))
          (fun _ => .ok (some 0)) 0 none fun item => .ok item.value)] (World.emptyAt 0)) := by
  constructor
  · intro complete
    have listed := complete "a:b" (by decide +kernel) ["a"] "b" [] (by decide +kernel)
    exact absurd listed (by decide +kernel)
  · intro complete
    have listed := complete "a" (by decide +kernel) [] "a" [] (by decide +kernel)
    exact absurd listed (by decide +kernel)

end TreeKeyCache
