import TreeKeyCache.BasePaths
import TreeKeyCache.VersionTraversals

/-! # Where a traversal of histories stays

With `getHistory` a path at tree level leads to the `MultiTreeRef` of its versions, which is
there even when the list is empty: a base path of exactly `keyLevelNodes` keys is then found
where nothing is stored, and a longer one is not.  A version that does not decode leaves the bare
node above the tree. -/
set_option autoImplicit false
namespace TreeKeyCache

variable {T R : Type} [SerializedForm R] (o : HistoryOptions T R) (storage : HistoryStorage R)

/-- Some version of the tree of the path decodes and has its node. -/
def VersionStored (base : List String) : Prop :=
  ∃ tree ∈ o.getTreeListFromAsyncIterable (storage.getHistory (joinKeys (base.take o.keyLevelNodes))),
    tree.sub (base.drop o.keyLevelNodes) ≠ none

/-- The base path is above the tree level; or every version of its tree decodes, and one of them
holds the node if a reader arrives at one; or some version does not decode, and the base path is
that of a whole tree, of which another version does. -/
structure HistoryFound (lookupTime : ℚ) (base : List String) : Prop where
  decoded : o.keyLevelNodes ≤ base.length → ¬ LosesHistory o storage base →
    (versionsTree o storage lookupTime base).reach (base.drop o.keyLevelNodes) ≠ none →
      VersionStored o storage base
  lost : o.keyLevelNodes ≤ base.length → LosesHistory o storage base →
    base.length = o.keyLevelNodes ∧ VersionStored o storage base

theorem historyDeepSteps_within (now : ℚ) (search : Search)
    (item : TraversalItem (SerializedValue R)) :
    ∀ step ∈ historyDeepSteps o now search (some item), item.ref.keys <+: step.nodeRef.keys := by
  intro step listed
  obtain ⟨found, member, rfl⟩ := List.mem_map.mp listed
  exact Search.sync_within now item.treeRef item.ref search found member

theorem historyDeepSteps_ne_nil (now : ℚ) (search : Search)
    (item : TraversalItem (SerializedValue R)) : historyDeepSteps o now search (some item) ≠ [] := by
  intro none
  exact Search.sync_ne_nil now item.treeRef item.ref search (List.map_eq_nil_iff.mp none)

omit [SerializedForm R] in
theorem sync_empty_keys (now : ℚ) (ref : ChainedObject) (search : Search) :
    ∀ item ∈ search.sync now (Tree.empty : Tree R) (some ref), item.ref.keys = ref.keys := by
  have single : search.sync now (Tree.empty : Tree R) (some ref) =
      [createTraversalItem ref.key ref.level ref.parentRef Tree.empty now] := by
    cases search <;> rfl
  rw [single]
  intro item listed
  rw [List.mem_singleton.mp listed]
  exact congrArg ChainedObject.keys ref.ofParent_self

theorem historyTraversal_from (positive : 1 ≤ o.keyLevelNodes) (rounds : Nat) (lookupTime now : ℚ)
    (search : Search) {base : List String} (deep : o.keyLevelNodes ≤ base.length) :
    (historyTraversalStepsIterable o storage rounds lookupTime now search (some base)).items =
      historyDeepSteps o now search
        (match treeAt (o.inPath lookupTime) storage.read base with
        | none => some (bareItem (base.take o.keyLevelNodes))
        | some tree => (tree.reach (base.drop o.keyLevelNodes)).map fun last =>
            ⟨nodeRefOf base, (getTreeCurrentSerializedValue last lookupTime).map .gathered, last⟩) := by
  have found := historyNodeRef_deep o storage lookupTime positive deep
  exact congrArg Yielded.items (historyTraversal_deep o storage found
    (historyNodeRef_level o storage positive deep found) rounds now search)

theorem historyBare_stays_iff (now : ℚ) (search : Search) {base : List String}
    (positive : 1 ≤ o.keyLevelNodes) (deep : o.keyLevelNodes ≤ base.length) (stored : Prop) :
    StaysUnder o.keyLevelNodes stored base
        (historyDeepSteps o now search (some (bareItem (base.take o.keyLevelNodes)))) ↔
      base.length = o.keyLevelNodes ∧ stored := by
  have taken : base.take o.keyLevelNodes ≠ [] := by
    rw [← List.length_pos_iff, List.length_take]
    omega
  have keys : (bareItem (base.take o.keyLevelNodes) :
      TraversalItem (SerializedValue R)).ref.keys = base.take o.keyLevelNodes :=
    nodeRefOf_keys _ taken
  constructor
  · intro stays
    constructor
    · obtain ⟨step, listed⟩ := List.exists_mem_of_ne_nil _
        (historyDeepSteps_ne_nil o now search (bareItem (base.take o.keyLevelNodes)))
      have bound := (stays.within step listed).length_le
      obtain ⟨item, member, rfl⟩ := List.mem_map.mp listed
      have here := sync_empty_keys now _ search item member
      rw [keys] at here
      change base.length ≤ item.ref.keys.length at bound
      rw [here, List.length_take] at bound
      omega
    · by_contra absent
      exact historyDeepSteps_ne_nil o now search _ (stays.absent deep absent)
  · rintro ⟨exactly, stored⟩
    have whole : base.take o.keyLevelNodes = base := List.take_of_length_le (le_of_eq exactly)
    have within := historyDeepSteps_within o now search (bareItem (base.take o.keyLevelNodes))
    rw [keys, whole] at within
    rw [whole]
    exact ⟨within, fun _ absent => absurd stored absent⟩

theorem historyFound_stays_iff (now : ℚ) (search : Search) {base : List String} (nonempty : base ≠ [])
    (deep : o.keyLevelNodes ≤ base.length) (value : Option (SerializedValue R))
    (last : Tree (SerializedValue R)) (stored : Prop) :
    StaysUnder o.keyLevelNodes stored base
        (historyDeepSteps o now search (some ⟨nodeRefOf base, value, last⟩)) ↔ stored := by
  constructor
  · intro stays
    by_contra absent
    exact historyDeepSteps_ne_nil o now search _ (stays.absent deep absent)
  · intro stored
    have within := historyDeepSteps_within o now search ⟨nodeRefOf base, value, last⟩
    rw [nodeRefOf_keys base nonempty] at within
    exact ⟨within, fun _ absent => absurd stored absent⟩

theorem historyTraversal_stays_iff (positive : 1 ≤ o.keyLevelNodes) (rounds : Nat)
    (lookupTime now : ℚ) (search : Search) (base : List String) (nonempty : base ≠ []) :
    StaysUnder o.keyLevelNodes (VersionStored o storage base) base
        (historyTraversalStepsIterable o storage rounds lookupTime now search (some base)).items ↔
      HistoryFound o storage lookupTime base := by
  by_cases short : base.length < o.keyLevelNodes
  · refine ⟨fun _ => ⟨fun deep => absurd deep (by omega), fun deep => absurd deep (by omega)⟩,
      fun _ => ⟨?_, fun deep => absurd deep (by omega)⟩⟩
    have within := within_of_short (o.inTraversal now) storage.readStorage rounds now search
      ⟨nodeRefOf base, some (.multi (truthyVersions (storage.getHistory (joinKeys base)))), Tree.empty⟩
      (by rw [nodeRefOf_level base nonempty]; exact Nat.not_le.mpr short)
    rw [nodeRefOf_keys base nonempty] at within
    rw [historyTraversalStepsIterable, historyNodeRef_short o storage lookupTime nonempty positive short]
    exact within
  · have deep : o.keyLevelNodes ≤ base.length := by omega
    rw [historyTraversal_from o storage positive rounds lookupTime now search deep]
    by_cases lost : LosesHistory o storage base
    · rw [treeAt_losing o storage lookupTime lost]
      refine (historyBare_stays_iff o now search positive deep _).trans ?_
      exact ⟨fun whole => ⟨fun _ keeping => absurd lost keeping, fun _ _ => whole⟩,
        fun found => found.lost deep lost⟩
    · rw [treeAt_keeping o storage lookupTime lost]
      dsimp only
      cases arrived : (versionsTree o storage lookupTime base).reach (base.drop o.keyLevelNodes) with
      | none =>
          refine ⟨fun _ => ⟨fun _ _ reached => absurd arrived reached, fun _ bad => absurd bad lost⟩,
            fun _ => ⟨?_, fun _ _ => rfl⟩⟩
          intro step listed
          cases listed
      | some last =>
          rw [Option.map_some]
          refine (historyFound_stays_iff o now search nonempty deep _ last _).trans ?_
          have reached : (versionsTree o storage lookupTime base).reach
              (base.drop o.keyLevelNodes) ≠ none := by simp [arrived]
          exact ⟨fun stored => ⟨fun _ _ _ => stored, fun _ bad => absurd bad lost⟩,
            fun found => found.decoded deep lost reached⟩

/-- Where traversals stay, over a storage with one entry for a key and over one with histories. -/
theorem traversal_stays_under_iff (positive : 1 ≤ o.keyLevelNodes) (rounds : Nat)
    (lookupTime now : ℚ) (search : Search) (base : List String) (nonempty : base ≠ []) :
    (∀ storage : ReadStorage R,
      StaysUnder o.keyLevelNodes (NodeStored o.toOptions storage base) base
          (getTraversalStepsIterable o.toOptions storage rounds lookupTime now search
            (some base)).items ↔
        BaseFound o.toOptions storage base) ∧
    ∀ storage : HistoryStorage R,
      StaysUnder o.keyLevelNodes (VersionStored o storage base) base
          (historyTraversalStepsIterable o storage rounds lookupTime now search (some base)).items ↔
        HistoryFound o storage lookupTime base :=
  ⟨fun storage => entry_traversal_stays_under_iff o.toOptions storage positive rounds lookupTime now
      search base nonempty,
    fun storage => historyTraversal_stays_iff o storage positive rounds lookupTime now search base
      nonempty⟩

def oneVersion (key : String) : List (Option String) := (oneNode "x" key).toList.map some

theorem traversal_stays_under_stored_node :
    StaysUnder 2 (NodeStored (Text.historyOptions 2 truthyVersions).toOptions ⟨oneNode "x", none⟩
        ["a", "b"]) ["a", "b"]
      (getTraversalStepsIterable (Text.historyOptions 2 truthyVersions).toOptions ⟨oneNode "x", none⟩
        1 0 0 .preOrderBreadthFirst (some ["a", "b"])).items ∧
    StaysUnder 2 (VersionStored (Text.historyOptions 2 truthyVersions) ⟨oneVersion, none⟩
        ["a", "b"]) ["a", "b"]
      (historyTraversalStepsIterable (Text.historyOptions 2 truthyVersions) ⟨oneVersion, none⟩
        1 0 0 .preOrderBreadthFirst (some ["a", "b"])).items := by
  have stays := traversal_stays_under_iff (Text.historyOptions 2 truthyVersions) (by decide) 1 0 0
    .preOrderBreadthFirst ["a", "b"] (by decide)
  refine ⟨(stays.1 ⟨oneNode "x", none⟩).mpr ?_, (stays.2 ⟨oneVersion, none⟩).mpr ?_⟩
  · refine Or.inr ⟨.mk (some "x") none none, rfl, Or.inr ?_⟩
    exact Option.some_ne_none _
  · have stored : VersionStored (Text.historyOptions 2 truthyVersions) ⟨oneVersion, none⟩
        ["a", "b"] := ⟨.mk (some "x") none none, List.mem_singleton_self _, Option.some_ne_none _⟩
    exact ⟨fun _ _ _ => stored, fun _ _ => ⟨rfl, stored⟩⟩

/-- From `["a", "c", "d"]`, without an entry for `["a", "c"]`, the step of `["a", "c"]` is yielded;
over histories the step of `["a", "c"]` is yielded from `["a", "c"]`. -/
theorem traversal_leaves_missing_base :
    ¬ StaysUnder 2 (NodeStored (Text.historyOptions 2 truthyVersions).toOptions ⟨oneNode "x", none⟩
        ["a", "c", "d"]) ["a", "c", "d"]
      (getTraversalStepsIterable (Text.historyOptions 2 truthyVersions).toOptions ⟨oneNode "x", none⟩
        1 0 0 .preOrderBreadthFirst (some ["a", "c", "d"])).items ∧
    ¬ StaysUnder 2 (VersionStored (Text.historyOptions 2 truthyVersions) ⟨oneVersion, none⟩
        ["a", "c"]) ["a", "c"]
      (historyTraversalStepsIterable (Text.historyOptions 2 truthyVersions) ⟨oneVersion, none⟩
        1 0 0 .preOrderBreadthFirst (some ["a", "c"])).items := by
  constructor
  · intro stays
    have yielded : ((getTraversalStepsIterable (Text.historyOptions 2 truthyVersions).toOptions
        ⟨oneNode "x", none⟩ 1 0 0 .preOrderBreadthFirst (some ["a", "c", "d"])).items.map
          fun step => step.nodeRef.keys) = [["a", "c"]] := by decide +kernel
    have listed : ["a", "c"] ∈ ((getTraversalStepsIterable (Text.historyOptions 2
        truthyVersions).toOptions ⟨oneNode "x", none⟩ 1 0 0 .preOrderBreadthFirst
          (some ["a", "c", "d"])).items.map fun step => step.nodeRef.keys) := by
      rw [yielded]
      exact List.mem_singleton_self _
    obtain ⟨step, member, keys⟩ := List.mem_map.mp listed
    have within := (stays.within step member).length_le
    rw [keys] at within
    exact absurd within (by decide)
  · intro stays
    have nothing := stays.absent (by decide) (by
      rintro ⟨tree, listed, _⟩
      exact absurd listed List.not_mem_nil)
    have yielded : (historyTraversalStepsIterable (Text.historyOptions 2 truthyVersions)
        ⟨oneVersion, none⟩ 1 0 0 .preOrderBreadthFirst (some ["a", "c"])).items.length = 1 := by
      decide +kernel
    rw [nothing] at yielded
    cases yielded

end TreeKeyCache
