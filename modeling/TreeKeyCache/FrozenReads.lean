import TreeKeyCache.Lib.ChangingTable
import TreeKeyCache.Memoizer

/-! # The memoizer over a changing storage

`iteratePath` and `getNode` with a memoizer, while anybody writes to the storage.  The callback of a
memoized read reads its key once, so all readers see the key as it was then.  Only `getNode` above the
tree level reads past the memoizer. -/
set_option autoImplicit false
namespace TreeKeyCache

open MemoTable

variable {T R : Type} [SerializedForm R]

/-- A reader, and what it reads from the storage of the moment. -/
abbrev LiveReader (T R : Type) :=
  Watching (String → Option R) String (MemoValue T R) (Step T ⊕ Tree R) (Except Err (Option (Step T)))

/-- Readers of a storage that changes. -/
@[reducible] def Asks.watching : Asks T R (LiveReader T R) where
  ret := .ret
  ask := .ask
  look read := .look fun get => .ret (read get)
  yield := .yield

namespace Live

section
variable (o : Options T R)

/-! ## Over a storage that stands still -/

omit [SerializedForm R] in
theorem still_yieldFound (get : String → Option R) (found : Option (Step T ⊕ Tree R))
    (rest : LiveReader T R) :
    (yieldFound .watching found rest).still get = yieldFound (.reading get) found (rest.still get) := by
  cases found <;> rfl

omit [SerializedForm R] in
theorem still_yieldSteps (get : String → Option R) (steps : List (Step T)) (rest : LiveReader T R) :
    (yieldSteps .watching steps rest).still get = yieldSteps (.reading get) steps (rest.still get) := by
  induction steps with
  | nil => rfl
  | cons step steps ih => exact congrArg (Asking.yield (.inl step)) ih

theorem still_keyLevels (get : String → Option R) (path : List String) (now : ℚ)
    (rest : Option (TraversalItem R) → LiveReader T R) : ∀ (n : Nat) (nodeRef : Option (TraversalItem R)),
      (memoizedKeyLevels .watching o path now rest n nodeRef).still get =
        memoizedKeyLevels (.reading get) o path now (fun last => (rest last).still get) n nodeRef := by
  intro n
  induction n with
  | zero => exact fun _ => rfl
  | succ n ih =>
      intro nodeRef
      rw [memoizedKeyLevels, memoizedKeyLevels]
      cases getNextStorageNode path ((nodeRef.map fun item => item.ref.level).getD 0)
          (nodeRef.map TraversalItem.ref) Tree.empty now with
      | error e => rfl
      | ok next =>
          refine congrArg (Asking.ask _ _) (funext fun found => ?_)
          rw [still_yieldFound, ih]

theorem still_treeLevels (get : String → Option R) (path : List String) (now : ℚ)
    (last : Option (TraversalItem R)) :
    (memoizedTreeLevels .watching o path now last).still get =
      memoizedTreeLevels (.reading get) o path now last := by
  cases last with
  | none => rfl
  | some nodeRef =>
      rw [memoizedTreeLevels, memoizedTreeLevels]
      by_cases below : nodeRef.ref.level < path.length
      · rw [if_pos below, if_pos below]
        cases getNextStorageNode path nodeRef.ref.level (some nodeRef.ref) (Tree.empty : Tree R) now with
        | error e => rfl
        | ok treeNode =>
            refine congrArg (Asking.ask _ _) (funext fun found => ?_)
            dsimp only
            cases found.asTree with
            | none => rfl
            | some tree =>
                dsimp only
                cases iterateTreeLevels o path now (path.length - treeNode.ref.level) treeNode tree with
                | error e => rfl
                | ok steps => exact still_yieldSteps get steps _
      · rw [if_neg below, if_neg below]
        rfl

theorem still_iteratePath (get : String → Option R) (now : ℚ) (path : List String) :
    (memoizedIteratePath .watching o now path).still get =
      memoizedIteratePath (.reading get) o now path := by
  rw [memoizedIteratePath, still_keyLevels, memoizedIteratePath]
  exact congrArg (fun rest => memoizedKeyLevels (.reading get) o path now rest _ none)
    (funext (still_treeLevels o get path now))

theorem still_getNode (get : String → Option R) (now : ℚ) (path : List String) :
    (memoizedGetNode .watching o now path).still get = memoizedGetNode (.reading get) o now path := by
  rw [memoizedGetNode, memoizedGetNode]
  cases storageNodeRef o path now with
  | error e => rfl
  | ok nodeRef =>
      cases nodeRef with
      | none => rfl
      | some nodeRef =>
          dsimp only
          by_cases keyLevel : nodeRef.ref.level < o.keyLevelNodes
          · rw [if_pos keyLevel, if_pos keyLevel]
            rfl
          · rw [if_neg keyLevel, if_neg keyLevel]
            refine congrArg (Asking.ask _ _) (funext fun found => ?_)
            dsimp only
            cases found.asTree <;> rfl

/-! ## What is asked -/

/-- What is found under a key depends on nothing but its content. -/
theorem memoized_congr (key : String) (get get' : String → Option R) (same : get key = get' key) :
    memoized o get key = memoized (T := T) o get' key := by
  rw [memoized, memoized, readStep, readStep, readTree, readTree, same]

theorem memoized_short (path : List String) (nonempty : path ≠ [])
    (colonFree : ∀ key ∈ path, ColonFree key) (keyLevel : path.length < o.keyLevelNodes) :
    (fun get => .step (readStep o get (joinKeys path) (nodeRefOf path))) =
      fun get => memoized (T := T) o get (joinKeys path) := by
  funext get
  rw [memoized, splitKey_joinKeys path nonempty colonFree, if_pos keyLevel]

theorem memoized_deep (path : List String) (positive : 1 ≤ o.keyLevelNodes)
    (colonFree : ∀ key ∈ path, ColonFree key) (deep : o.keyLevelNodes ≤ path.length) :
    (fun get => .tree (readTree o get (joinKeys (path.take o.keyLevelNodes)))) =
      fun get => memoized (T := T) o get (joinKeys (path.take o.keyLevelNodes)) := by
  funext get
  rw [memoized_tree o get path positive colonFree deep]
  rfl

variable {compute : String → (String → Option R) → MemoValue T R}

omit [SerializedForm R] in
theorem yieldFound_memoizes (found : Option (Step T ⊕ Tree R)) (rest : LiveReader T R)
    (memoizes : rest.Memoizes compute) : (yieldFound .watching found rest).Memoizes compute := by
  cases found <;> exact memoizes

omit [SerializedForm R] in
theorem yieldSteps_memoizes (steps : List (Step T)) (result : Except Err (Option (Step T))) :
    (yieldSteps .watching steps (.ret result) : LiveReader T R).Memoizes compute := by
  induction steps with
  | nil => trivial
  | cons step steps ih => exact ih

theorem keyLevels_memoizes (path : List String) (now : ℚ) (colonFree : ∀ key ∈ path, ColonFree key)
    (rest : Option (TraversalItem R) → LiveReader T R) :
    ∀ n done : Nat, done + n ≤ path.length → done + n < o.keyLevelNodes →
      (rest (itemAfter path (done + n))).Memoizes (fun key get => memoized o get key) →
        (memoizedKeyLevels .watching o path now rest n (itemAfter path done)).Memoizes
          (fun key get => memoized o get key) := by
  intro n
  induction n with
  | zero => intro done _ _ memoizes; exact memoizes
  | succ n ih =>
      intro done bound keyLevel memoizes
      have next := nextStorageNode_itemAfter (R := R) path done now (by omega)
      have length : (path.take (done + 1)).length = done + 1 := List.length_take_of_le (by omega)
      rw [memoizedKeyLevels, next]
      dsimp only
      rw [getMemoizedStep, buildKey_bareItem path done (by omega)]
      refine ⟨memoized_short o _ (take_ne_nil path done (by omega))
        (fun key member => colonFree key (List.mem_of_mem_take member)) (by omega), fun found => ?_⟩
      apply yieldFound_memoizes
      apply ih (done + 1) (by omega) (by omega)
      rw [Nat.add_right_comm done 1 n]
      exact memoizes

theorem treeLevels_memoizes (path : List String) (now : ℚ) (colonFree : ∀ key ∈ path, ColonFree key)
    (m : Nat) (level : o.keyLevelNodes = m + 2) (bound : m + 1 < path.length) :
    (memoizedTreeLevels .watching o path now (itemAfter path (m + 1))).Memoizes
      (fun key get => memoized o get key) := by
  have itemLevel := bareItem_level (R := R) path m (by omega)
  have next : getNextStorageNode path (m + 1)
      (some (bareItem (path.take (m + 1)) : TraversalItem R).ref) (Tree.empty : Tree R) now =
        .ok (bareItem (path.take (m + 1 + 1))) := by
    rw [← getNextStorageNode_eq path (m + 1) now bound,
      chainOf_eq_some _ (take_ne_nil path m (by omega))]
    rfl
  have own := memoized_deep (T := T) o path (by omega) colonFree (by omega)
  rw [level] at own
  rw [itemAfter, memoizedTreeLevels, itemLevel, if_pos bound, next]
  dsimp only
  rw [getMemoizedTree, buildKey_bareItem path (m + 1) bound]
  refine ⟨own, fun found => ?_⟩
  dsimp only
  cases found.asTree with
  | none => trivial
  | some tree =>
      dsimp only
      cases iterateTreeLevels o path now _ (bareItem (path.take (m + 1 + 1))) tree with
      | error e => trivial
      | ok steps => exact yieldSteps_memoizes steps _

/-- After the last key of the path there is no tree to read. -/
theorem treeLevels_end (now : ℚ) (path : List String) :
    memoizedTreeLevels .watching o path now (itemAfter path path.length) =
      (.ret (.ok none) : LiveReader T R) := by
  cases hlen : path.length with
  | zero => rfl
  | succ m =>
      have level := bareItem_level (R := R) path m (by omega)
      rw [itemAfter, memoizedTreeLevels, level, if_neg (by omega)]

theorem iteratePath_memoizes (now : ℚ) (path : List String) (colonFree : ∀ key ∈ path, ColonFree key)
    (twoLevels : 2 ≤ o.keyLevelNodes) :
    (memoizedIteratePath .watching o now path).Memoizes (fun key get => memoized o get key) := by
  have keyPart := keyLevels_memoizes o path now colonFree (memoizedTreeLevels .watching o path now)
    (min (o.keyLevelNodes - 1) path.length) 0 (by omega) (by omega)
  rw [Nat.zero_add] at keyPart
  apply keyPart
  by_cases short : path.length < o.keyLevelNodes
  · rw [show min (o.keyLevelNodes - 1) path.length = path.length by omega, treeLevels_end o now path]
    trivial
  · obtain ⟨m, level⟩ : ∃ m, o.keyLevelNodes = m + 2 := ⟨o.keyLevelNodes - 2, by omega⟩
    rw [show min (o.keyLevelNodes - 1) path.length = m + 1 by omega]
    exact treeLevels_memoizes o path now colonFree m level (by omega)

theorem getNode_memoizes (now : ℚ) (path : List String) (colonFree : ∀ key ∈ path, ColonFree key)
    (positive : 1 ≤ o.keyLevelNodes) (deep : o.keyLevelNodes ≤ path.length) :
    (memoizedGetNode .watching o now path).Memoizes (fun key get => memoized o get key) := by
  obtain ⟨m, level⟩ : ∃ m, o.keyLevelNodes = m + 1 := ⟨o.keyLevelNodes - 1, by omega⟩
  have nodes := storageNodes_eq (R := R) path now (min o.keyLevelNodes path.length) 0 (by omega)
  have own := memoized_deep (T := T) o path positive colonFree deep
  rw [Nat.zero_add, show min o.keyLevelNodes path.length = m + 1 by omega] at nodes
  rw [level] at own
  rw [memoizedGetNode, storageNodeRef, show min o.keyLevelNodes path.length = m + 1 by omega,
    show (none : Option (TraversalItem R)) = itemAfter path 0 from rfl, nodes, itemAfter]
  dsimp only
  rw [bareItem_level (R := R) path m (by omega), if_neg (by omega), getMemoizedTree,
    buildKey_bareItem path m (by omega)]
  refine ⟨own, fun found => ?_⟩
  dsimp only
  split <;> trivial

theorem getNode_nil (now : ℚ) :
    memoizedGetNode .watching o now [] = (.ret (.ok none) : LiveReader T R) := by
  rw [memoizedGetNode, storageNodeRef, show min o.keyLevelNodes ([] : List String).length = 0 by simp]
  rfl

/-- Above the tree level it reads the storage at one moment. -/
theorem getNode_looks (now : ℚ) (path : List String) (nonempty : path ≠ [])
    (keyLevel : path.length < o.keyLevelNodes) :
    ∃ read : (String → Option R) → Except Err (Option (Step T)),
      memoizedGetNode .watching o now path = .look fun get => .ret (read get) := by
  obtain ⟨m, length⟩ : ∃ m, path.length = m + 1 :=
    ⟨path.length - 1, by have := List.length_pos_iff.mpr nonempty; omega⟩
  have nodes := storageNodes_eq (R := R) path now (min o.keyLevelNodes path.length) 0 (by omega)
  rw [Nat.zero_add, show min o.keyLevelNodes path.length = m + 1 by omega] at nodes
  rw [memoizedGetNode, storageNodeRef, show min o.keyLevelNodes path.length = m + 1 by omega,
    show (none : Option (TraversalItem R)) = itemAfter path 0 from rfl, nodes, itemAfter]
  dsimp only
  rw [bareItem_level (R := R) path m (by omega), if_pos (by omega)]
  exact ⟨_, rfl⟩

end

end Live

/-! ## Calls while the storage changes -/

section
variable (o : Options T R)

namespace ReadCall

def live : ReadCall → LiveReader T R
  | iteratePath now path => memoizedIteratePath .watching o now path
  | getNode now path => memoizedGetNode .watching o now path

/-- The call reads nothing past the memoizer. -/
def Memoizes : ReadCall → Prop
  | iteratePath _ _ => True
  | getNode _ path => o.keyLevelNodes ≤ path.length

theorem still_live (call : ReadCall) (get : String → Option R) :
    (call.live o).still get = call.memoized o get := by
  cases call with
  | iteratePath now path => exact Live.still_iteratePath o get now path
  | getNode now path => exact Live.still_getNode o get now path

theorem live_memoizes (call : ReadCall) (twoLevels : 2 ≤ o.keyLevelNodes)
    (colonFree : ∀ key ∈ call.path, ColonFree key) (memoizes : call.Memoizes o) :
    (call.live o).Memoizes (fun key get => TreeKeyCache.memoized o get key) := by
  cases call with
  | iteratePath now path => exact Live.iteratePath_memoizes o now path colonFree twoLevels
  | getNode now path => exact Live.getNode_memoizes o now path colonFree (by omega) memoizes

theorem live_computes (call : ReadCall) (twoLevels : 2 ≤ o.keyLevelNodes)
    (colonFree : ∀ key ∈ call.path, ColonFree key) :
    (call.live o).Computes (fun key get => TreeKeyCache.memoized o get key) := by
  by_cases memoizes : call.Memoizes o
  · exact (call.live_memoizes o twoLevels colonFree memoizes).computes
  · cases call with
    | iteratePath now path => exact absurd trivial memoizes
    | getNode now path =>
        have keyLevel : path.length < o.keyLevelNodes := Nat.not_le.mp memoizes
        by_cases nonempty : path = []
        · rw [live, nonempty, Live.getNode_nil]
          trivial
        · obtain ⟨read, looks⟩ := Live.getNode_looks o now path nonempty keyLevel
          rw [live, looks]
          exact fun _ => trivial

end ReadCall

/-- What happens: a call is made, the storage is written or an entry of it expires, a promise is
settled, a call goes on. -/
inductive LiveEvent (R : Type) where
  | start (call : ReadCall)
  | change (get : String → Option R)
  | settle (promise : Nat)
  | advance (call : Nat)

namespace LiveEvent

def made : LiveEvent R → Option ReadCall
  | start call => some call
  | _ => none

def changed : LiveEvent R → Option (String → Option R)
  | change get => some get
  | _ => none

def action : LiveEvent R → WatchAction (String → Option R) String (MemoValue T R) (Step T ⊕ Tree R)
    (Except Err (Option (Step T)))
  | start call => .start (call.live o)
  | change get => .change get
  | settle promise => .settle promise
  | advance call => .advance call

theorem started_actions (events : List (LiveEvent R)) :
    (events.map (action o)).filterMap WatchAction.started =
      (events.filterMap made).map (ReadCall.live (T := T) o) := by
  rw [List.filterMap_map, List.map_filterMap]
  apply List.filterMap_congr
  intro event _
  cases event <;> rfl

theorem changed_actions (events : List (LiveEvent R)) :
    (events.map (action (T := T) o)).filterMap WatchAction.changed = events.filterMap changed := by
  rw [List.filterMap_map]
  apply List.filterMap_congr
  intro event _
  cases event <;> rfl

/-- The event of an action that starts and changes nothing. -/
def completing : WatchAction (String → Option R) String (MemoValue T R) (Step T ⊕ Tree R)
    (Except Err (Option (Step T))) → Option (LiveEvent R)
  | .start _ => none
  | .change _ => none
  | .settle promise => some (settle promise)
  | .advance call => some (advance call)

theorem action_completing (actions : List (WatchAction (String → Option R) String (MemoValue T R)
    (Step T ⊕ Tree R) (Except Err (Option (Step T))))) (completes : WatchTable.Completes actions) :
    (actions.filterMap completing).map (action o) = actions := by
  induction actions with
  | nil => rfl
  | cons first actions ih =>
      obtain ⟨⟨started, changed⟩, rest⟩ := List.forall_mem_cons.mp completes
      cases first with
      | start program => cases started
      | change get => cases changed
      | settle promise => exact congrArg _ (ih rest)
      | advance call => exact congrArg _ (ih rest)

omit [SerializedForm R] in
theorem quiet_completing (actions : List (WatchAction (String → Option R) String (MemoValue T R)
    (Step T ⊕ Tree R) (Except Err (Option (Step T))))) :
    (actions.filterMap completing).filterMap made = [] ∧
      (actions.filterMap completing).filterMap changed = [] := by
  rw [List.filterMap_filterMap, List.filterMap_filterMap, List.filterMap_eq_nil_iff,
    List.filterMap_eq_nil_iff]
  constructor
  · intro action _
    cases action <;> rfl
  · intro action _
    cases action <;> rfl

end LiveEvent

/-- The memoizer, its promises and the calls after the events, from an empty memoizer. -/
def liveTable (get : String → Option R) (events : List (LiveEvent R)) :
    WatchTable (String → Option R) String (MemoValue T R) (Step T ⊕ Tree R)
      (Except Err (Option (Step T))) :=
  (WatchTable.empty get).run (events.map (LiveEvent.action o))

def storageMoments (get : String → Option R) (events : List (LiveEvent R)) :
    List (String → Option R) :=
  get :: events.filterMap LiveEvent.changed

/-- What a call has yielded and returned is what it reads from `shown`, without a memoizer; a
`getNode` above the tree level reads from the storage of some moment. -/
structure ReadsFrom (shown : String → Option R) (moments : List (String → Option R)) (made : ReadCall)
    (call : WatchCall (String → Option R) String (MemoValue T R) (Step T ⊕ Tree R)
      (Except Err (Option (Step T)))) : Prop where
  yielded : made.Memoizes o → call.yielded <+: (made.direct o shown).1.map Sum.inl
  returned : made.Memoizes o → ∀ result, call.Returned result →
    call.yielded = (made.direct o shown).1.map Sum.inl ∧ result = (made.direct o shown).2
  unmemoized : ¬ made.Memoizes o → call.yielded = [] ∧ ∀ result, call.Returned result →
    ∃ moment ∈ moments, result = (made.direct o moment).2

variable {o}

theorem readsFrom_of_reaches {shown : String → Option R} {moments : List (String → Option R)}
    {made : ReadCall} (twoLevels : 2 ≤ o.keyLevelNodes) (colonFree : ∀ key ∈ made.path, ColonFree key)
    (inhabited : ∃ moment, moment ∈ moments)
    {call : WatchCall (String → Option R) String (MemoValue T R) (Step T ⊕ Tree R)
      (Except Err (Option (Step T)))} {left : LiveReader T R}
    (ended : ∀ result, call.Returned result → left = .ret result)
    (reaches : (made.live o).Reaches (fun key v => v = memoized o shown key) (· ∈ moments)
      call.yielded left) : ReadsFrom o shown moments made call := by
  have direct := fun get => made.memoized_alone o get twoLevels
  constructor
  · intro memoizes
    have alone := reaches.alone (made.live_memoizes o twoLevels colonFree memoizes) fun _ _ same => same
    rw [made.still_live, direct] at alone
    rw [(Prod.mk.inj alone).1]
    exact List.prefix_append _ _
  · intro memoizes result returned
    have alone := reaches.alone (made.live_memoizes o twoLevels colonFree memoizes) fun _ _ same => same
    rw [made.still_live, direct, ended result returned] at alone
    obtain ⟨items, last⟩ := Prod.mk.inj alone
    refine ⟨?_, last.symm⟩
    rw [items]
    exact (List.append_nil _).symm
  · intro unmemoized
    cases made with
    | iteratePath now path => exact absurd trivial unmemoized
    | getNode now path =>
        have keyLevel : path.length < o.keyLevelNodes := Nat.not_le.mp unmemoized
        have still := fun get => congrArg (fun program => program.alone.2)
          ((ReadCall.getNode now path).still_live (T := T) o get)
        by_cases nonempty : path = []
        · subst nonempty
          rw [ReadCall.live, Live.getNode_nil] at reaches
          obtain ⟨none, last⟩ := reaches.of_ret
          refine ⟨none, fun result returned => ?_⟩
          obtain ⟨moment, member⟩ := inhabited
          refine ⟨moment, member, ?_⟩
          have same := still moment
          rw [ReadCall.live, Live.getNode_nil, direct] at same
          rw [← same]
          have finished := last.symm.trans (ended result returned)
          cases finished
          rfl
        · obtain ⟨read, looks⟩ := Live.getNode_looks (T := T) o now path nonempty keyLevel
          rw [ReadCall.live, looks] at reaches
          obtain ⟨none, last⟩ := reaches.of_look
          refine ⟨none, fun result returned => ?_⟩
          rw [ended result returned] at last
          rcases last with impossible | ⟨moment, member, same⟩
          · cases impossible
          · refine ⟨moment, member, ?_⟩
            have again := still moment
            rw [ReadCall.live, looks, direct] at again
            rw [← again]
            cases same
            rfl

/-- All calls over one memoizer read from one and the same storage, however the storage changes
meanwhile: the content that they see of a key is what the key held at one moment since the memoizer
was empty.  No call is ever stuck. -/
theorem memoizer_shows_one_storage (o : Options T R) (twoLevels : 2 ≤ o.keyLevelNodes)
    (get : String → Option R) (events : List (LiveEvent R))
    (colonFree : ∀ call ∈ events.filterMap LiveEvent.made, ∀ key ∈ call.path, ColonFree key) :
    ∃ shown : String → Option R,
      (∀ key, ∃ moment ∈ storageMoments get events, shown key = moment key) ∧
      ∀ (i : Nat) made call, (events.filterMap LiveEvent.made)[i]? = some made →
        (liveTable o get events).calls[i]? = some call →
          ReadsFrom o shown (storageMoments get events) made call ∧
          ∃ more : List (LiveEvent R), more.filterMap LiveEvent.made = [] ∧
            more.filterMap LiveEvent.changed = [] ∧ ∃ call' result,
              (liveTable o get (events ++ more)).calls[i]? = some call' ∧ call'.Returned result := by
  have computes : ∀ program ∈ (events.map (LiveEvent.action o)).filterMap WatchAction.started,
      program.Computes (fun key get => memoized o get key) := by
    intro program member
    rw [LiveEvent.started_actions] at member
    obtain ⟨call, listed, rfl⟩ := List.mem_map.mp member
    exact call.live_computes o twoLevels (colonFree call listed)
  obtain ⟨shown, past, reads⟩ := one_state_shown (fun key get => memoized o get key)
    (fun key get get' same => Live.memoized_congr o key get get' same) get _ computes
  rw [LiveEvent.changed_actions] at past reads
  refine ⟨shown, past, fun i made call listed found => ?_⟩
  have program : ((events.map (LiveEvent.action o)).filterMap WatchAction.started)[i]? =
      some (made.live o) := by
    rw [LiveEvent.started_actions, List.getElem?_map, listed]
    rfl
  obtain ⟨left, ended, reaches, more, completes, last⟩ := reads i _ call program found
  refine ⟨readsFrom_of_reaches twoLevels (colonFree made (List.mem_of_getElem? listed))
    ⟨get, List.mem_cons_self⟩ ended reaches, more.filterMap LiveEvent.completing,
    (LiveEvent.quiet_completing more).1, (LiveEvent.quiet_completing more).2, ?_⟩
  rw [liveTable, List.map_append, LiveEvent.action_completing o more completes]
  exact last

end

/-- `getNode` has found the node at `a:b`, the storage is cleared, and then comes `iteratePath`. -/
def clearedStorage : List (LiveEvent String) :=
  [.start (.getNode 0 ["a", "b"]), .advance 0, .settle 0, .change fun _ => none,
    .start (.iteratePath 1 ["a", "b"]), .advance 1, .settle 1, .advance 1, .advance 1, .advance 1,
    .advance 1]

theorem memoizer_shows_one_storage_clearedStorage :
    ∃ shown : String → Option String, (∀ key, shown key = oneNode "x" key ∨ shown key = none) ∧
      ((ReadCall.iteratePath 1 ["a", "b"]).direct (Text.plainOptions 2) shown).1 ≠ [] := by
  have colonFree : ∀ call ∈ clearedStorage.filterMap LiveEvent.made, ∀ key ∈ call.path, ColonFree key := by
    decide
  obtain ⟨shown, past, reads⟩ :=
    memoizer_shows_one_storage (Text.plainOptions 2) (by decide) (oneNode "x") clearedStorage colonFree
  refine ⟨shown, fun key => ?_, fun nothing => ?_⟩
  · obtain ⟨moment, member, same⟩ := past key
    rw [same]
    rcases List.mem_cons.mp member with rfl | member
    · exact .inl rfl
    · obtain rfl := List.mem_singleton.mp member
      exact .inr rfl
  · have yielded : (liveTable (Text.plainOptions 2) (oneNode "x") clearedStorage).calls[1]?.map
        (fun call => call.yielded.length) = some 1 := by
      decide +kernel
    obtain ⟨call, found, one⟩ := Option.map_eq_some_iff.mp yielded
    have shows := (reads 1 _ call rfl found).1.yielded trivial
    rw [nothing] at shows
    rw [List.prefix_nil.mp shows] at one
    cases one

end TreeKeyCache
