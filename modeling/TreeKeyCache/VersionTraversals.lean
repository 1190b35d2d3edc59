import TreeKeyCache.UndecodableVersions

/-! # Traversals over histories

`AsyncTreeRef` decodes a history version by version, so that a traversal that starts above the
tree level never loses one.  From a base on the tree level, or below, the traversal walks what
`getNodeRef` found. -/
set_option autoImplicit false
namespace TreeKeyCache

variable {T R : Type} [SerializedForm R] (o : HistoryOptions T R) (storage : HistoryStorage R)

/-! ## From the key level -/

/-- The reference a traversal starts from: `getNodeRef` has gathered its history. -/
def historyBaseRef (base : List String) : AsyncTreeRef (SerializedValue R) :=
  ⟨chainOf base, if base = [] then none
    else some (.multi (truthyVersions (storage.getHistory (joinKeys base))))⟩

theorem historyBaseRef_ready (now : ℚ) (base : List String) (short : base.length < o.keyLevelNodes) :
    (AnyTree.async (historyBaseRef storage base)).Ready (o.inTraversal now) := by
  obtain ⟨above, keys⟩ := baseRef_ready (o.inTraversal now) storage.read base short
  exact ⟨above, keys⟩

theorem treesDecode_inTraversal (now : ℚ) : TreesDecode (o.inTraversal now) storage.read := by
  intro keys _ r found
  obtain rfl := Option.some.inj found
  exact ⟨multiTreeRef (o.getTreeListFromAsyncIterable (storage.getHistory (joinKeys keys))) now, rfl⟩

theorem historyTraversal_short (positive : 1 ≤ o.keyLevelNodes) (base : List String)
    (short : base.length < o.keyLevelNodes) (rounds : Nat) (lookupTime now : ℚ) (search : Search) :
    historyTraversalStepsIterable o storage rounds lookupTime now search (baseOf base) =
      (search.async (o.inTraversal now) storage.readStorage rounds now
        (.async (historyBaseRef storage base)) (chainOf base)).map
          (AnyTraversalItem.step (o.inTraversal now)) := by
  rw [baseOf]
  by_cases root : base = []
  · rw [if_pos root, root]
    rfl
  · have level : (nodeRefOf base).level = base.length := nodeRefOf_level base root
    rw [if_neg root, historyTraversalStepsIterable,
      historyNodeRef_short o storage lookupTime root positive short]
    dsimp only
    rw [getTraversalIterable, historyBaseRef, if_neg root, chainOf_eq_some base root]
    dsimp only
    rw [level, if_neg (show ¬ (o.inTraversal now).keyLevelNodes ≤ base.length from
      Nat.not_le.mpr short)]
    rfl

section
variable {getChildren : Option String → List String}
  (names : ∀ parent, ∀ item ∈ getChildren parent, ColonFree item)
  (getHistory : String → List (Option R))
include names

theorem versions_indistinct (now : ℚ) :
    Indistinct (o.inTraversal now)
      (HistoryStorage.readStorage ⟨getHistory, some getChildren⟩)
      (HistoryStorage.readStorage (withoutBadVersions o ⟨getHistory, some getChildren⟩))
      (OnKeyLevel (o.inTraversal now)) := by
  apply indistinct_of_agree (o.inTraversal now) names
  intro ref p here above colonFree item listed
  rw [childAt_at (o.inTraversal now) here, childAt_at (o.inTraversal now) here]
  have free := colonFree_child names colonFree listed
  have key : splitKey (joinKeys (p ++ [item])) = p ++ [item] :=
    splitKey_joinKeys _ (by simp) free
  have level : (o.inTraversal now).keyLevelNodes = o.keyLevelNodes := rfl
  rw [level] at above ⊢
  dsimp only [HistoryStorage.read, withoutBadVersions]
  rw [key, List.length_append, List.length_singleton]
  by_cases last : p.length + 1 = o.keyLevelNodes
  · have decode : ∀ versions, (o.inTraversal now).treeSerializer.deserialize (.iterable versions) =
        .ok (multiTreeRef (o.getTreeListFromAsyncIterable versions) now) := fun _ => rfl
    simp only [if_pos last, decode, getTreeList_filter,
      if_neg (show ¬ p.length + 1 < o.keyLevelNodes by omega)]
  · rw [if_neg last]

theorem historyTraversal_key_level (positive : 1 ≤ o.keyLevelNodes) (base : List String)
    (colonFree : ∀ key ∈ base, ColonFree key) (short : base.length < o.keyLevelNodes)
    (lookupTime now : ℚ) (search : Search) : ∃ enough steps, ∀ rounds, enough ≤ rounds →
      historyTraversalStepsIterable o ⟨getHistory, some getChildren⟩ rounds lookupTime now search
          (baseOf base) = ⟨steps, none⟩ ∧
        historyTraversalStepsIterable o (withoutBadVersions o ⟨getHistory, some getChildren⟩) rounds
          lookupTime now search (baseOf base) = ⟨steps, none⟩ := by
  have sameBase : historyBaseRef (withoutBadVersions o ⟨getHistory, some getChildren⟩) base =
      historyBaseRef ⟨getHistory, some getChildren⟩ base := by
    rw [historyBaseRef, historyBaseRef]
    split
    · rfl
    · rename_i nonempty
      rw [getHistory_short o _ nonempty short
        fun key member => colonFree key (List.mem_of_mem_take member)]
  have start := historyBaseRef_ready o ⟨getHistory, some getChildren⟩ now base short
  refine ⟨((AnyTree.async (historyBaseRef ⟨getHistory, some getChildren⟩ base)).materialise
      (o.inTraversal now) (HistoryStorage.read ⟨getHistory, some getChildren⟩) getChildren).size,
    ((search.sync now ((AnyTree.async (historyBaseRef ⟨getHistory, some getChildren⟩
      base)).materialise (o.inTraversal now) (HistoryStorage.read ⟨getHistory, some getChildren⟩)
        getChildren) (chainOf base)).map TraversalItem.shown).map (stepOfShown (o.inTraversal now)),
    fun rounds enough => ?_⟩
  obtain ⟨quiet, items⟩ := Search.async_eq getChildren
    (treesDecode_inTraversal o ⟨getHistory, some getChildren⟩ now) rounds now _ start (chainOf base)
    enough search
  rw [historyTraversal_short o _ positive base short, historyTraversal_short o _ positive base short,
    sameBase, ← (versions_indistinct o names getHistory now).search_eq rounds now
      (.async (historyBaseRef ⟨getHistory, some getChildren⟩ base)) ⟨base, rfl, short, colonFree⟩
      (chainOf base) search]
  have ends : (search.async (o.inTraversal now)
      (HistoryStorage.readStorage ⟨getHistory, some getChildren⟩) rounds now
      (.async (historyBaseRef ⟨getHistory, some getChildren⟩ base)) (chainOf base)).error = none :=
    quiet
  rw [Yielded.map, ends, ← items, List.map_map]
  exact ⟨rfl, rfl⟩

end

/-! ## From the tree level -/

/-- The steps of a traversal over a tree in memory. -/
def historyDeepSteps (now : ℚ) (search : Search)
    (nodeRef : Option (TraversalItem (SerializedValue R))) : List (Step T) :=
  (nodeRef.map fun item => (search.sync now item.treeRef (some item.ref)).map fun item =>
    mountStep item.ref (item.value.bind (deserializeValue (o.inTraversal now)))).getD []

theorem historyTraversal_deep {lookupTime : ℚ} {base : List String}
    {nodeRef : Option (TraversalItem (SerializedValue R))}
    (found : historyNodeRef o storage lookupTime base = .ok nodeRef)
    (deep : ∀ item, nodeRef = some item → o.keyLevelNodes ≤ item.ref.level) (rounds : Nat) (now : ℚ)
    (search : Search) :
    historyTraversalStepsIterable o storage rounds lookupTime now search (some base) =
      ⟨historyDeepSteps o now search nodeRef, none⟩ := by
  rw [historyTraversalStepsIterable, found, historyDeepSteps]
  cases nodeRef with
  | none => rfl
  | some item =>
      dsimp only
      have deepItem : (o.inTraversal now).keyLevelNodes ≤ item.ref.level := deep item rfl
      rw [getTraversalIterable, if_pos deepItem, Yielded.map, Option.map_some, Option.getD_some,
        List.map_map]
      rfl

theorem historyDeepSteps_silent (now : ℚ) (search : Search)
    {item : TraversalItem (SerializedValue R)} (silent : Silent o item.treeRef) :
    definedSteps (historyDeepSteps o now search (some item)) = [] :=
  definedSteps_silent o silent (deserializeValue (o.inTraversal now)) (fun _ => rfl) now
    (some item.ref) search

theorem historyNodeRef_level (positive : 1 ≤ o.keyLevelNodes) {lookupTime : ℚ} {base : List String}
    (deep : o.keyLevelNodes ≤ base.length) {nodeRef : Option (TraversalItem (SerializedValue R))}
    (found : historyNodeRef o storage lookupTime base = .ok nodeRef) :
    ∀ item, nodeRef = some item → o.keyLevelNodes ≤ item.ref.level := by
  intro item same
  rw [historyNodeRef_deep o storage lookupTime positive deep, same] at found
  have looked := Except.ok.inj found
  cases tree : treeAt (o.inPath lookupTime) storage.read base with
  | none =>
      rw [tree] at looked
      obtain rfl := Option.some.inj looked
      have level := bareItem_level (R := SerializedValue R) base (o.keyLevelNodes - 1) (by omega)
      rw [Nat.sub_add_cancel positive] at level
      exact le_of_eq level.symm
  | some held =>
      rw [tree] at looked
      obtain ⟨last, _, rfl⟩ := Option.map_eq_some_iff.mp looked
      have nonempty : base ≠ [] := by
        intro none
        rw [none, List.length_nil] at deep
        omega
      rw [nodeRefOf_level base nonempty]
      exact deep

section
variable {o storage} (hide : BadVersionsHideNothing o storage) (positive : 1 ≤ o.keyLevelNodes)
include hide positive

theorem historyTraversal_tree_level {base : List String} (deep : o.keyLevelNodes ≤ base.length)
    (plain : PlainStorageKey o.keyLevelNodes base) (lookupTime now : ℚ) (search : Search) :
    ∃ steps steps', definedSteps steps = definedSteps steps' ∧ ∀ rounds,
      historyTraversalStepsIterable o storage rounds lookupTime now search (some base) =
          ⟨steps, none⟩ ∧
        historyTraversalStepsIterable o (withoutBadVersions o storage) rounds lookupTime now search
          (some base) = ⟨steps', none⟩ := by
  obtain ⟨nodeRef, here⟩ := exists_historyNodeRef o storage lookupTime base positive
  obtain ⟨nodeRef', there⟩ := exists_historyNodeRef o (withoutBadVersions o storage) lookupTime base
    positive
  refine ⟨historyDeepSteps o now search nodeRef, historyDeepSteps o now search nodeRef', ?_,
    fun rounds => ⟨historyTraversal_deep o _ here (historyNodeRef_level o _ positive deep here) rounds
      now search, historyTraversal_deep o _ there (historyNodeRef_level o _ positive deep there) rounds
      now search⟩⟩
  by_cases lost : LosesHistory o storage base
  · have bare := historyNodeRef_losing o storage lookupTime positive deep lost
    rw [here] at bare
    rw [Except.ok.inj bare, historyDeepSteps_silent o now search (silent_empty o)]
    have reach := historyNodeRef_found o storage lookupTime positive deep plain
    rw [there] at reach
    rw [Except.ok.inj reach]
    cases reached : (versionsTree o storage lookupTime base).reach (base.drop o.keyLevelNodes) with
    | none => rfl
    | some last =>
        rw [Option.map_some,
          historyDeepSteps_silent o now search (hide.silent lookupTime deep plain lost reached)]
  · have same := historyNodeRef_withoutBad o storage lookupTime positive plain fun _ => lost
    rw [here, there] at same
    rw [Except.ok.inj same]

end

/-! ## All operations -/

/-- Reading treats versions that do not decode as missing exactly when the other versions of their
keys show nothing. -/
theorem historyReadsAsAbsent_iff_hideNothing (positive : 1 ≤ o.keyLevelNodes)
    {getChildren : Option String → List String}
    (names : ∀ parent, ∀ item ∈ getChildren parent, ColonFree item)
    (getHistory : String → List (Option R)) (visits : List KeyVisit) :
    HistoryReadsAsAbsent o ⟨getHistory, some getChildren⟩ visits ↔
      BadVersionsHideNothing o ⟨getHistory, some getChildren⟩ := by
  constructor
  · intro reads
    exact hideNothing_of_getNode o _ positive reads.getNode
  · intro hide
    constructor
    · exact historyIteratePath_alike hide positive
    · exact historyGetNode_alike hide positive
    · exact historyRandomIterate_alike hide positive visits
    · intro lookupTime now search basePath plain
      cases basePath with
      | none =>
          obtain ⟨enough, steps, ends⟩ := historyTraversal_key_level o names getHistory positive []
            (fun _ member => (nomatch member)) (by rw [List.length_nil]; omega) lookupTime now search
          exact ⟨enough, steps, steps, rfl, ends⟩
      | some base =>
          have free := plain base rfl
          by_cases root : base = []
          · refine ⟨0, [], [], rfl, fun rounds _ => ?_⟩
            rw [root]
            exact ⟨historyTraversal_deep o _ (historyNodeRef_nil o _ lookupTime)
                (fun item none => (nomatch none)) rounds now search,
              historyTraversal_deep o _ (historyNodeRef_nil o _ lookupTime)
                (fun item none => (nomatch none)) rounds now search⟩
          · by_cases short : base.length < o.keyLevelNodes
            · obtain ⟨enough, steps, ends⟩ := historyTraversal_key_level o names getHistory positive
                base (free.all short) short lookupTime now search
              rw [baseOf, if_neg root] at ends
              exact ⟨enough, steps, steps, rfl, ends⟩
            · obtain ⟨steps, steps', same, ends⟩ := historyTraversal_tree_level hide positive
                (Nat.not_lt.mp short) free lookupTime now search
              exact ⟨0, steps, steps', same, fun rounds _ => ends rounds⟩

end TreeKeyCache
