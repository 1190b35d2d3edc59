import TreeKeyCache.Undecodable
import TreeKeyCache.TraversalOrder

/-! # Versions that do not decode

`AsyncTreeRef` leaves out the versions of a tree that do not decode.  `deserializeTreeFromList`
gives up the whole history instead, so that the versions that do decode are lost with them. -/
set_option autoImplicit false
namespace TreeKeyCache

variable {T R : Type} [SerializedForm R] (o : HistoryOptions T R)

/-- Falsy versions are not decoded. -/
def decodableVersion (version : Option R) : Bool :=
  ((truthy? version).map (decodesTree o.toOptions)).getD true

/-- The versions of a tree level key that do not decode are missing. -/
def withoutBadVersions (storage : HistoryStorage R) : HistoryStorage R where
  getHistory key :=
    if (splitKey key).length = o.keyLevelNodes then
      (storage.getHistory key).filter (decodableVersion o)
    else storage.getHistory key
  getChildren := storage.getChildren

/-- The key is enumerated without them, too. -/
def stillVersioned (storage : HistoryStorage R) (visit : KeyVisit) : Bool :=
  (storage.getHistory visit.key).isEmpty ||
    !((withoutBadVersions o storage).getHistory visit.key).isEmpty

def ReadOperations.history (storage : HistoryStorage R) : ReadOperations T where
  iteratePath := historyIteratePath o storage
  getNode := historyGetNode o storage
  randomIterate := historyRandomIterate o storage
  traversal := historyTraversalStepsIterable o storage

/-- Reading yields what it would yield if the versions that do not decode were missing. -/
def HistoryReadsAsAbsent (storage : HistoryStorage R) (visits : List KeyVisit) : Prop :=
  ReadOperations.ReadsAs o.keyLevelNodes (ReadOperations.history o storage)
    (ReadOperations.history o (withoutBadVersions o storage)) visits
    (visits.filter (stillVersioned o storage))

/-! ## Decoding a history -/

theorem truthyVersions_filter (versions : List (Option R)) :
    truthyVersions (versions.filter (decodableVersion o)) =
      (truthyVersions versions).filter (decodesTree o.toOptions) := by
  rw [truthyVersions, truthyVersions, List.filter_filterMap, List.filterMap_filter]
  apply List.filterMap_congr
  intro version _
  rw [decodableVersion]
  cases truthy? version with
  | none => rfl
  | some r => cases decodes : decodesTree o.toOptions r <;> simp [Option.filter, decodes]

theorem getTreeList_filter (versions : List (Option R)) :
    o.getTreeListFromAsyncIterable (versions.filter (decodableVersion o)) =
      o.getTreeListFromAsyncIterable versions := by
  rw [HistoryOptions.getTreeListFromAsyncIterable, HistoryOptions.getTreeListFromAsyncIterable,
    truthyVersions_filter, List.filterMap_filter]
  apply List.filterMap_congr
  intro r _
  cases decoded : deserializeTree o.toOptions r <;> simp [decodesTree, decoded]

omit [SerializedForm R] in
theorem mapM_deserialize (o : Options T R) : ∀ serialized : List R,
    (∀ r ∈ serialized, decodesTree o r = true) →
      serialized.mapM o.treeSerializer.deserialize = .ok (serialized.filterMap (deserializeTree o)) := by
  intro serialized
  induction serialized with
  | nil => exact fun _ => rfl
  | cons r rest ih =>
      intro all
      have here := all r List.mem_cons_self
      have later := ih fun other member => all other (List.mem_cons_of_mem _ member)
      rw [decodesTree, deserializeTree] at here
      rw [List.mapM_cons, List.filterMap_cons, deserializeTree]
      cases decoded : o.treeSerializer.deserialize r with
      | error e =>
          rw [decoded] at here
          cases here
      | ok tree =>
          simp only [later, bind, Except.bind]
          rfl

omit [SerializedForm R] in
theorem mapM_deserialize_error (o : Options T R) : ∀ serialized : List R,
    (∃ r ∈ serialized, decodesTree o r = false) →
      ∃ e, serialized.mapM o.treeSerializer.deserialize = .error e := by
  intro serialized
  induction serialized with
  | nil =>
      intro found
      obtain ⟨r, listed, _⟩ := found
      cases listed
  | cons r rest ih =>
      intro found
      rw [List.mapM_cons]
      cases decoded : o.treeSerializer.deserialize r with
      | error e => exact ⟨e, rfl⟩
      | ok tree =>
          have later : ∃ r ∈ rest, decodesTree o r = false := by
            obtain ⟨r', listed, undecoded⟩ := found
            rcases List.mem_cons.mp listed with rfl | member
            · rw [decodesTree, deserializeTree, decoded] at undecoded
              cases undecoded
            · exact ⟨r', member, undecoded⟩
          obtain ⟨e, failed⟩ := ih later
          refine ⟨e, ?_⟩
          simp only [failed, bind, Except.bind]

/-- Some version does not decode. -/
def HasBadVersion (versions : List (Option R)) : Prop :=
  ∃ version ∈ versions, decodableVersion o version = false

theorem treesFromList_filter (versions : List (Option R)) :
    o.treesFromList (versions.filter (decodableVersion o)) =
      .ok (o.getTreeListFromAsyncIterable versions) := by
  rw [← getTreeList_filter, HistoryOptions.treesFromList, truthyVersions_filter]
  rw [mapM_deserialize o.toOptions _ fun r member => (List.mem_filter.mp member).2,
    HistoryOptions.getTreeListFromAsyncIterable, truthyVersions_filter]

theorem filter_of_not_bad (versions : List (Option R)) (good : ¬ HasBadVersion o versions) :
    versions.filter (decodableVersion o) = versions := by
  rw [List.filter_eq_self]
  intro version listed
  by_contra bad
  exact good ⟨version, listed, Bool.eq_false_iff.mpr bad⟩

theorem treesFromList_bad (versions : List (Option R)) (bad : HasBadVersion o versions) :
    ∃ e, o.treesFromList versions = .error e := by
  obtain ⟨version, listed, undecoded⟩ := bad
  apply mapM_deserialize_error
  rw [decodableVersion] at undecoded
  cases truthy : truthy? version with
  | none =>
      rw [truthy] at undecoded
      cases undecoded
  | some r =>
      rw [truthy] at undecoded
      exact ⟨r, List.mem_filterMap.mpr ⟨version, listed, truthy⟩, undecoded⟩

/-! ## Several versions in one tree -/

section
variable (now : ℚ)

theorem multiTreeRefTo_value (n : Nat) (trees : List (Tree R)) (t : ℚ) :
    getTreeCurrentSerializedValue (multiTreeRefTo now n trees) t =
      some (.multi (getMultiTreeValueFromTrees trees now)) := by
  cases n <;> rfl

theorem multiTreeRefTo_child {n : Nat} {trees : List (Tree R)} {key : String}
    {child : Tree (SerializedValue R)} (found : (multiTreeRefTo now n trees).child key = some child) :
    ∃ n' trees', child = multiTreeRefTo now n' trees' := by
  cases n with
  | zero => cases found
  | succ n =>
      rw [Tree.child_eq_lookup] at found
      have listed := Entries.mem_of_lookup _ _ _ (Option.join_eq_some_iff.mp found)
      obtain ⟨group, _, same⟩ := List.mem_map.mp listed
      exact ⟨n, group.2, (Option.some.inj (Prod.mk.inj same).2).symm⟩

theorem multiTreeRefTo_sub : ∀ (q : List String) {n : Nat} {trees : List (Tree R)}
    {node : Tree (SerializedValue R)}, (multiTreeRefTo now n trees).sub q = some node →
      ∃ n' trees', node = multiTreeRefTo now n' trees' := by
  intro q
  induction q with
  | nil =>
      intro n trees node found
      exact ⟨n, trees, (Option.some.inj found).symm⟩
  | cons key q ih =>
      intro n trees node found
      rw [Tree.sub_cons, Option.bind_eq_some_iff] at found
      obtain ⟨child, listed, below⟩ := found
      obtain ⟨n', trees', rfl⟩ := multiTreeRefTo_child now listed
      exact ih below

end

omit [SerializedForm R] in
/-- A reader comes to a node of the tree, or to an inherited object. -/
theorem Tree.reach_cases : ∀ (q : List String) (tree last : Tree R), tree.reach q = some last →
    tree.sub q = some last ∨ last = Tree.empty := by
  intro q
  induction q with
  | nil => exact fun tree last found => Or.inl found
  | cons key q ih =>
      intro tree last found
      rw [Tree.reach, Option.bind_eq_some_iff] at found
      obtain ⟨next, step, below⟩ := found
      rw [Tree.next, Option.bind_eq_some_iff] at step
      obtain ⟨entries, children, read⟩ := step
      have child : tree.child key = (entries.lookup key).join := by
        rw [Tree.child, children, Option.bind_some]
      rw [readChild] at read
      rw [Tree.sub_cons, child]
      cases listed : entries.lookup key with
      | some slot =>
          rw [listed] at read
          cases slot with
          | none => cases read
          | some own =>
              obtain rfl := Option.some.inj read
              exact ih own last below
      | none =>
          rw [listed] at read
          by_cases inherited : key ∈ inheritedNames
          · simp only [inherited, if_true] at read
            obtain rfl := Option.some.inj read
            right
            cases q with
            | nil => exact (Option.some.inj below).symm
            | cons second q => cases below
          · simp only [inherited, if_false] at read
            cases read

/-! ## Lookups -/

section
variable (storage : HistoryStorage R)

/-- The versions that decode of the tree that a path leads to. -/
def versionsTree (now : ℚ) (path : List String) : Tree (SerializedValue R) :=
  multiTreeRef (o.getTreeListFromAsyncIterable
    (storage.getHistory (joinKeys (path.take o.keyLevelNodes)))) now

/-- Some version of the tree that a path leads to does not decode. -/
def LosesHistory (path : List String) : Prop :=
  HasBadVersion o (storage.getHistory (joinKeys (path.take o.keyLevelNodes)))

theorem treeAt_history (now : ℚ) (path : List String) :
    treeAt (o.inPath now) storage.read path =
      match o.treesFromList (storage.getHistory (joinKeys (path.take o.keyLevelNodes))) with
      | .ok trees => some (multiTreeRef trees now)
      | .error _ => none := by
  have decoded : ∀ versions, deserializeTree (o.inPath now) (.iterable versions) =
      match o.treesFromList versions with
      | .ok trees => some (multiTreeRef trees now)
      | .error _ => none := by
    intro versions
    have serializer : (o.inPath now).treeSerializer.deserialize (.iterable versions) = (do
        let trees ← o.treesFromList versions
        pure (multiTreeRef trees now)) := rfl
    rw [deserializeTree, serializer]
    cases o.treesFromList versions <;> rfl
  exact decoded _

theorem treeAt_losing (now : ℚ) {path : List String} (losing : LosesHistory o storage path) :
    treeAt (o.inPath now) storage.read path = none := by
  obtain ⟨e, failed⟩ := treesFromList_bad o _ losing
  rw [treeAt_history, failed]

theorem treeAt_keeping (now : ℚ) {path : List String} (keeping : ¬ LosesHistory o storage path) :
    treeAt (o.inPath now) storage.read path = some (versionsTree o storage now path) := by
  have decoded := treesFromList_filter o
    (storage.getHistory (joinKeys (path.take o.keyLevelNodes)))
  rw [filter_of_not_bad o _ keeping] at decoded
  rw [treeAt_history, decoded, versionsTree]

theorem getHistory_deep {path : List String} (positive : 1 ≤ o.keyLevelNodes)
    (deep : o.keyLevelNodes ≤ path.length) (plain : PlainStorageKey o.keyLevelNodes path) :
    (withoutBadVersions o storage).getHistory (joinKeys (path.take o.keyLevelNodes)) =
      (storage.getHistory (joinKeys (path.take o.keyLevelNodes))).filter (decodableVersion o) := by
  have length : (path.take o.keyLevelNodes).length = o.keyLevelNodes := List.length_take_of_le deep
  have nonempty : path.take o.keyLevelNodes ≠ [] := by
    intro none
    rw [none, List.length_nil] at length
    omega
  rw [withoutBadVersions]
  dsimp only
  rw [splitKey_joinKeys _ nonempty plain, if_pos length]

theorem treeAt_withoutBad (now : ℚ) {path : List String} (positive : 1 ≤ o.keyLevelNodes)
    (deep : o.keyLevelNodes ≤ path.length) (plain : PlainStorageKey o.keyLevelNodes path) :
    treeAt (o.inPath now) (withoutBadVersions o storage).read path =
      some (versionsTree o storage now path) := by
  rw [treeAt_history, getHistory_deep o storage positive deep plain, treesFromList_filter,
    versionsTree]

theorem getHistory_short {path : List String} (nonempty : path ≠ [])
    (short : path.length < o.keyLevelNodes) (plain : PlainStorageKey o.keyLevelNodes path) :
    (withoutBadVersions o storage).getHistory (joinKeys path) = storage.getHistory (joinKeys path) := by
  rw [withoutBadVersions]
  dsimp only
  rw [splitKey_joinKeys path nonempty (plain.all short), if_neg (Nat.ne_of_lt short)]

/-- Where a version does not decode, the others show nothing. -/
def BadVersionsHideNothing : Prop :=
  ∀ now path, o.keyLevelNodes ≤ path.length → PlainStorageKey o.keyLevelNodes path →
    LosesHistory o storage path →
      ((versionsTree o storage now path).valueAt now (path.drop o.keyLevelNodes)).bind
        o.deserializeValue = none

theorem historyNodeRef_short (now : ℚ) {path : List String} (nonempty : path ≠ [])
    (positive : 1 ≤ o.keyLevelNodes) (short : path.length < o.keyLevelNodes) :
    historyNodeRef o storage now path = .ok (some ⟨nodeRefOf path,
      some (.multi (truthyVersions (storage.getHistory (joinKeys path)))), Tree.empty⟩) := by
  have found := getNodeRef_eq (o.inPath now) storage.read now path positive nonempty
  rw [if_pos (show path.length < (o.inPath now).keyLevelNodes from short)] at found
  rw [historyNodeRef, found]
  rfl

theorem historyNodeRef_deep (now : ℚ) {path : List String} (positive : 1 ≤ o.keyLevelNodes)
    (deep : o.keyLevelNodes ≤ path.length) :
    historyNodeRef o storage now path = .ok (match treeAt (o.inPath now) storage.read path with
      | none => some (bareItem (path.take o.keyLevelNodes))
      | some tree => (tree.reach (path.drop o.keyLevelNodes)).map fun last =>
          ⟨nodeRefOf path, (getTreeCurrentSerializedValue last now).map .gathered, last⟩) := by
  have nonempty : path ≠ [] := by
    intro none
    rw [none, List.length_nil] at deep
    omega
  have found := getNodeRef_eq (o.inPath now) storage.read now path positive nonempty
  rw [if_neg (show ¬ path.length < (o.inPath now).keyLevelNodes from Nat.not_lt.mpr deep)] at found
  rw [historyNodeRef, found]
  cases treeAt (o.inPath now) storage.read path with
  | none => rfl
  | some tree =>
      have level : (o.inPath now).keyLevelNodes = o.keyLevelNodes := rfl
      simp only [bind, Except.bind, pure, Except.pure, level, Option.map_map]
      rfl

theorem historyNodeRef_nil (now : ℚ) : historyNodeRef o storage now [] = .ok none := by
  rw [historyNodeRef, getNodeRef, storageNodeRef, List.length_nil, Nat.min_zero]
  rfl

theorem exists_historyNodeRef (now : ℚ) (path : List String) (positive : 1 ≤ o.keyLevelNodes) :
    ∃ nodeRef, historyNodeRef o storage now path = .ok nodeRef := by
  by_cases nonempty : path = []
  · rw [nonempty]
    exact ⟨none, historyNodeRef_nil o storage now⟩
  · by_cases short : path.length < o.keyLevelNodes
    · exact ⟨_, historyNodeRef_short o storage now nonempty positive short⟩
    · exact ⟨_, historyNodeRef_deep o storage now positive (Nat.not_lt.mp short)⟩

theorem historyNodeRef_withoutBad (now : ℚ) {path : List String} (positive : 1 ≤ o.keyLevelNodes)
    (plain : PlainStorageKey o.keyLevelNodes path)
    (keeping : o.keyLevelNodes ≤ path.length → ¬ LosesHistory o storage path) :
    historyNodeRef o (withoutBadVersions o storage) now path = historyNodeRef o storage now path := by
  by_cases nonempty : path = []
  · rw [nonempty, historyNodeRef_nil, historyNodeRef_nil]
  · by_cases short : path.length < o.keyLevelNodes
    · rw [historyNodeRef_short o _ now nonempty positive short,
        historyNodeRef_short o _ now nonempty positive short,
        getHistory_short o storage nonempty short plain]
    · have deep := Nat.not_lt.mp short
      rw [historyNodeRef_deep o _ now positive deep, historyNodeRef_deep o _ now positive deep,
        treeAt_withoutBad o storage now positive deep plain,
        treeAt_keeping o storage now (keeping deep)]

/-! ## Trees that show nothing -/

/-- No node of the tree has a value that decodes. -/
structure Silent (tree : Tree (SerializedValue R)) : Prop where
  wellFormed : tree.wellFormed = true
  nodes : ∀ q node t value, tree.sub q = some node →
    getTreeCurrentSerializedValue node t = some value →
      ∃ values, value = .multi values ∧ o.deserializeValue (.multi values) = none

omit [SerializedForm R] in
theorem Silent.kid {tree child : Tree (SerializedValue R)} {key : String} (silent : Silent o tree)
    (kid : (key, child) ∈ tree.kids) : Silent o child := by
  have found := (mem_kids_iff silent.wellFormed).mp kid
  have below : tree.sub [key] = some child := by
    rw [Tree.sub_cons, found]
    rfl
  refine ⟨Tree.wellFormed_sub [key] tree child silent.wellFormed below, ?_⟩
  intro q node t value there current
  apply silent.nodes (key :: q) node t value _ current
  rw [Tree.sub_cons, found]
  exact there

omit [SerializedForm R] in
theorem silent_empty : Silent o (Tree.empty : Tree (SerializedValue R)) := by
  refine ⟨rfl, ?_⟩
  intro q node t value there current
  cases q with
  | nil =>
      obtain rfl := Option.some.inj there
      cases current
  | cons key q => cases there

variable {o storage} in
theorem BadVersionsHideNothing.silent (hide : BadVersionsHideNothing o storage) (now : ℚ)
    {path : List String} (deep : o.keyLevelNodes ≤ path.length)
    (plain : PlainStorageKey o.keyLevelNodes path) (losing : LosesHistory o storage path)
    {last : Tree (SerializedValue R)}
    (found : (versionsTree o storage now path).reach (path.drop o.keyLevelNodes) = some last) :
    Silent o last := by
  have rootWellFormed : (versionsTree o storage now path).wellFormed = true :=
    multiTreeRefTo_wellFormed now _ _
  rcases Tree.reach_cases _ _ _ found with own | rfl
  · refine ⟨Tree.wellFormed_sub _ _ last rootWellFormed own, ?_⟩
    intro q node t value there current
    have taken : (path ++ q).take o.keyLevelNodes = path.take o.keyLevelNodes :=
      List.take_append_of_le_length deep
    have dropped : (path ++ q).drop o.keyLevelNodes = path.drop o.keyLevelNodes ++ q :=
      List.drop_append_of_le_length deep
    have inside : (versionsTree o storage now path).sub (path.drop o.keyLevelNodes ++ q) =
        some node := by
      rw [Tree.sub_append, own]
      exact there
    obtain ⟨n, trees, rfl⟩ := multiTreeRefTo_sub now _ inside
    rw [multiTreeRefTo_value] at current
    refine ⟨_, (Option.some.inj current).symm, ?_⟩
    have hidden := hide now (path ++ q) (by rw [List.length_append]; omega)
      (by rw [PlainStorageKey, taken]; exact plain) (by rw [LosesHistory, taken]; exact losing)
    have same : versionsTree o storage now (path ++ q) = versionsTree o storage now path := by
      rw [versionsTree, versionsTree, taken]
    rw [same, dropped, Tree.valueAt, inside, Option.bind_some, multiTreeRefTo_value] at hidden
    exact hidden
  · exact silent_empty o

omit [SerializedForm R] in
/-- A search over such a tree yields no step with a defined value. -/
theorem definedSteps_silent {tree : Tree (SerializedValue R)} (silent : Silent o tree)
    (decode : SerializedValue R → Option T)
    (multi : ∀ values, decode (.multi values) = o.deserializeValue (.multi values)) (now : ℚ)
    (parentRef : Option ChainedObject) (search : Search) :
    definedSteps ((search.sync now tree parentRef).map fun item =>
      mountStep item.ref (item.value.bind decode)) = [] := by
  rw [definedSteps, List.filter_eq_nil_iff]
  intro step listed
  obtain ⟨item, member, rfl⟩ := List.mem_map.mp listed
  obtain ⟨node, holds, value⟩ := Search.sync_forall (Silent o)
    (fun tree silent key child kid => silent.kid o kid) now tree silent parentRef search item member
  have nothing : item.value.bind decode = none := by
    cases current : getTreeCurrentSerializedValue node now with
    | none => rw [value, current, Option.bind_none]
    | some found =>
        obtain ⟨values, rfl, hidden⟩ := holds.nodes [] node now found rfl current
        rw [value, current, Option.bind_some, multi]
        exact hidden
  rw [mountStep, nothing]
  exact Bool.false_ne_true

/-! ## The operations compared -/

theorem historyGetNode_eq (now : ℚ) {path : List String}
    {nodeRef : Option (TraversalItem (SerializedValue R))}
    (found : historyNodeRef o storage now path = .ok nodeRef) :
    historyGetNode o storage now path = .ok (nodeRef.bind fun item =>
      (truthy? item.value).map fun serialized =>
        mountStep item.ref (o.deserializeValue serialized)) := by
  rw [historyGetNode, found]
  cases nodeRef with
  | none => rfl
  | some item =>
      simp only [bind, Except.bind, Option.bind_some]
      cases truthy? item.value <;> rfl

theorem historyNodeRef_losing (now : ℚ) {path : List String} (positive : 1 ≤ o.keyLevelNodes)
    (deep : o.keyLevelNodes ≤ path.length) (losing : LosesHistory o storage path) :
    historyNodeRef o storage now path = .ok (some (bareItem (path.take o.keyLevelNodes))) := by
  rw [historyNodeRef_deep o storage now positive deep, treeAt_losing o storage now losing]

theorem historyNodeRef_found (now : ℚ) {path : List String} (positive : 1 ≤ o.keyLevelNodes)
    (deep : o.keyLevelNodes ≤ path.length) (plain : PlainStorageKey o.keyLevelNodes path) :
    historyNodeRef o (withoutBadVersions o storage) now path =
      .ok (((versionsTree o storage now path).reach (path.drop o.keyLevelNodes)).map fun last =>
        ⟨nodeRefOf path, (getTreeCurrentSerializedValue last now).map .gathered, last⟩) := by
  rw [historyNodeRef_deep o _ now positive deep, treeAt_withoutBad o storage now positive deep plain]

theorem hideNothing_of_getNode (positive : 1 ≤ o.keyLevelNodes)
    (alike : ∀ now path, PlainStorageKey o.keyLevelNodes path → ∃ step step',
      historyGetNode o storage now path = .ok step ∧
        historyGetNode o (withoutBadVersions o storage) now path = .ok step' ∧
          definedSteps step.toList = definedSteps step'.toList) :
    BadVersionsHideNothing o storage := by
  intro now path deep plain losing
  obtain ⟨step, step', here, there, same⟩ := alike now path plain
  rw [historyGetNode_eq o storage now (historyNodeRef_losing o storage now positive deep losing)]
    at here
  rw [historyGetNode_eq o _ now (historyNodeRef_found o storage now positive deep plain)] at there
  have nothing : step = none := (Except.ok.inj here).symm
  have value := Tree.reach_value now (path.drop o.keyLevelNodes) (versionsTree o storage now path)
  cases shown : (versionsTree o storage now path).valueAt now (path.drop o.keyLevelNodes) with
  | none => rfl
  | some found =>
      have inTree := shown
      rw [Tree.valueAt, Option.bind_eq_some_iff] at inTree
      obtain ⟨node, inside, current⟩ := inTree
      obtain ⟨n, trees, rfl⟩ := multiTreeRefTo_sub now _ inside
      rw [multiTreeRefTo_value] at current
      obtain rfl := Option.some.inj current
      rw [shown, Option.bind_eq_some_iff] at value
      obtain ⟨last, reached, live⟩ := value
      rw [reached, Option.map_some, Option.bind_some, live] at there
      have yielded : step' = some (mountStep (nodeRefOf path)
          (o.deserializeValue (.multi (getMultiTreeValueFromTrees trees now)))) :=
        (Except.ok.inj there).symm
      rw [nothing, yielded] at same
      rw [Option.bind_some]
      cases decoded : o.deserializeValue (.multi (getMultiTreeValueFromTrees trees now)) with
      | none => rfl
      | some v =>
          rw [decoded] at same
          cases same

section
variable {o storage} (hide : BadVersionsHideNothing o storage) (positive : 1 ≤ o.keyLevelNodes)
include hide positive

theorem historyGetNode_alike (now : ℚ) (path : List String)
    (plain : PlainStorageKey o.keyLevelNodes path) : ∃ step step',
      historyGetNode o storage now path = .ok step ∧
        historyGetNode o (withoutBadVersions o storage) now path = .ok step' ∧
          definedSteps step.toList = definedSteps step'.toList := by
  by_cases losing : o.keyLevelNodes ≤ path.length ∧ LosesHistory o storage path
  · obtain ⟨deep, lost⟩ := losing
    refine ⟨_, _, historyGetNode_eq o storage now (historyNodeRef_losing o storage now positive deep
      lost), historyGetNode_eq o _ now (historyNodeRef_found o storage now positive deep plain), ?_⟩
    cases reached : (versionsTree o storage now path).reach (path.drop o.keyLevelNodes) with
    | none => rfl
    | some last =>
        have silent := hide.silent now deep plain lost reached
        cases current : getTreeCurrentSerializedValue last now with
        | none =>
            rw [Option.map_some, Option.bind_some, current]
            rfl
        | some value =>
            obtain ⟨values, rfl, hidden⟩ := silent.nodes [] last now value rfl current
            rw [Option.map_some, Option.bind_some, current]
            change [] = definedSteps [mountStep (nodeRefOf path) (o.deserializeValue (.multi values))]
            rw [hidden]
            rfl
  · obtain ⟨nodeRef, found⟩ := exists_historyNodeRef o storage now path positive
    have same := historyNodeRef_withoutBad o storage now positive plain
      fun deep lost => losing ⟨deep, lost⟩
    exact ⟨_, _, historyGetNode_eq o storage now found,
      historyGetNode_eq o _ now (same.trans found), rfl⟩

omit hide positive in
theorem definedSteps_filterMap {A : Type} (f g : A → Option (Step T)) : ∀ list : List A,
    (∀ a ∈ list, definedSteps (f a).toList = definedSteps (g a).toList) →
      definedSteps (list.filterMap f) = definedSteps (list.filterMap g) := by
  intro list
  induction list with
  | nil => exact fun _ => rfl
  | cons a list ih =>
      intro agree
      have here := agree a List.mem_cons_self
      have later := ih fun other member => agree other (List.mem_cons_of_mem _ member)
      have split : ∀ h : A → Option (Step T), definedSteps ((a :: list).filterMap h) =
          definedSteps (h a).toList ++ definedSteps (list.filterMap h) := by
        intro h
        rw [List.filterMap_cons, definedSteps, definedSteps, definedSteps]
        cases h a with
        | none => rfl
        | some step => rw [Option.toList_some, ← List.filter_append, List.singleton_append]
      rw [split f, split g, here, later]

theorem historyIteratePath_alike (now : ℚ) (path : List String)
    (plain : PlainStorageKey o.keyLevelNodes path) : ∃ steps steps',
      historyIteratePath o storage now path = .ok steps ∧
        historyIteratePath o (withoutBadVersions o storage) now path = .ok steps' ∧
          definedSteps steps = definedSteps steps' := by
  by_cases one : o.keyLevelNodes = 1
  · exact ⟨[], [], iteratePath_one (o.inPath now) _ now path one,
      iteratePath_one (o.inPath now) _ now path one, rfl⟩
  · have twoLevels : 2 ≤ (o.inPath now).keyLevelNodes := by
      change 2 ≤ o.keyLevelNodes
      omega
    refine ⟨_, _, iteratePath_eq (o.inPath now) storage.read now path twoLevels,
      iteratePath_eq (o.inPath now) (withoutBadVersions o storage).read now path twoLevels, ?_⟩
    apply definedSteps_filterMap
    intro q listed
    obtain ⟨long, _, taken⟩ := length_of_mem_prefixesFrom path 0 path.length q (by omega) listed
    have nonempty : q ≠ [] := List.length_pos_iff.mp long
    have plainHere : PlainStorageKey o.keyLevelNodes q := by
      intro key member
      rw [taken, List.take_take, Nat.min_comm, ← List.take_take] at member
      exact plain key (List.mem_of_mem_take member)
    rw [stepAt, stepAt, serializedAt, serializedAt]
    by_cases short : q.length < o.keyLevelNodes
    · rw [if_pos (show q.length < (o.inPath now).keyLevelNodes from short),
        if_pos (show q.length < (o.inPath now).keyLevelNodes from short), HistoryStorage.read,
        HistoryStorage.read, getHistory_short o storage nonempty short plainHere]
    · have deep := Nat.not_lt.mp short
      rw [if_neg (show ¬ q.length < (o.inPath now).keyLevelNodes from short),
        if_neg (show ¬ q.length < (o.inPath now).keyLevelNodes from short),
        treeAt_withoutBad o storage now positive deep plainHere]
      by_cases lost : LosesHistory o storage q
      · have hidden := hide now q deep plainHere lost
        rw [treeAt_losing o storage now lost]
        change [] = definedSteps (Option.map _ ((versionsTree o storage now q).valueAt now
          (q.drop o.keyLevelNodes))).toList
        cases shown : (versionsTree o storage now q).valueAt now (q.drop o.keyLevelNodes) with
        | none => rfl
        | some value =>
            rw [shown, Option.bind_some] at hidden
            change [] = definedSteps [mountStep (nodeRefOf q) (o.deserializeValue value)]
            rw [hidden]
            rfl
      · rw [treeAt_keeping o storage now lost]

omit hide positive in
/-- The lookup of a key, when it does not throw. -/
def historyLookedUp (o : HistoryOptions T R) (storage : HistoryStorage R) (now : ℚ)
    (path : List String) : Option (TraversalItem (SerializedValue R)) :=
  match historyNodeRef o storage now path with
  | .ok nodeRef => nodeRef
  | .error _ => none

/-- The steps of one key. -/
def historyVisitSteps (o : HistoryOptions T R) (storage : HistoryStorage R) (visit : KeyVisit) :
    List (Step T) :=
  (foundItems o.keyLevelNodes (historyLookedUp o storage) visit).map
    fun item => mountStep item.ref (item.value.bind o.deserializeValue)

omit hide in
theorem historyRandomIterate_ok (storage : HistoryStorage R) (visits : List KeyVisit) :
    historyRandomIterate o storage visits =
      ⟨visits.flatMap (historyVisitSteps o storage), none⟩ := by
  rw [historyRandomIterate, internalRandomIterate_ok o.keyLevelNodes _ (historyLookedUp o storage) visits]
  · rw [Yielded.map, List.map_flatMap]
    rfl
  · intro visit _
    obtain ⟨nodeRef, found⟩ := exists_historyNodeRef o storage visit.lookupTime (splitKey visit.key)
      positive
    rw [historyLookedUp, found]

omit [SerializedForm R] hide positive in
/-- A search over a tree in memory, for a lookup on the tree level or below. -/
theorem visitItems_deep {n : Nat} (now : ℚ) (item : TraversalItem R) (deep : n ≤ item.ref.level) :
    visitItems n true now item =
      Search.preOrderBreadthFirst.sync now item.treeRef (some item.ref) := by
  rw [visitItems, if_neg]
  · rfl
  · rw [not_or]
    exact ⟨Nat.not_lt.mpr deep, by decide⟩

omit hide positive in
theorem historyVisitSteps_silent (storage : HistoryStorage R) (visit : KeyVisit)
    {item : TraversalItem (SerializedValue R)}
    (found : historyNodeRef o storage visit.lookupTime (splitKey visit.key) = .ok (some item))
    (deep : o.keyLevelNodes ≤ item.ref.level) (silent : Silent o item.treeRef) :
    definedSteps (historyVisitSteps o storage visit) = [] := by
  rw [historyVisitSteps, foundItems, historyLookedUp, found]
  dsimp only
  rw [Option.map_some, Option.getD_some, visitItems_deep visit.now item deep]
  exact definedSteps_silent o silent o.deserializeValue (fun _ => rfl) visit.now (some item.ref) _

omit hide in
theorem historyVisitSteps_losing (visit : KeyVisit)
    (deep : o.keyLevelNodes ≤ (splitKey visit.key).length)
    (losing : LosesHistory o storage (splitKey visit.key)) :
    definedSteps (historyVisitSteps o storage visit) = [] := by
  apply historyVisitSteps_silent storage visit
    (historyNodeRef_losing o storage visit.lookupTime positive deep losing)
  · have level := bareItem_level (R := SerializedValue R) (splitKey visit.key) (o.keyLevelNodes - 1)
      (by omega)
    rw [Nat.sub_add_cancel positive] at level
    exact le_of_eq level.symm
  · exact silent_empty o

theorem historyVisitSteps_withoutBad (visit : KeyVisit)
    (deep : o.keyLevelNodes ≤ (splitKey visit.key).length)
    (losing : LosesHistory o storage (splitKey visit.key)) :
    definedSteps (historyVisitSteps o (withoutBadVersions o storage) visit) = [] := by
  have plain : PlainStorageKey o.keyLevelNodes (splitKey visit.key) :=
    fun key member => colonFree_of_mem_splitKey visit.key key (List.mem_of_mem_take member)
  have found := historyNodeRef_found o storage visit.lookupTime positive deep plain
  cases reached : (versionsTree o storage visit.lookupTime (splitKey visit.key)).reach
      ((splitKey visit.key).drop o.keyLevelNodes) with
  | none =>
      rw [reached] at found
      rw [historyVisitSteps, foundItems, historyLookedUp, found]
      rfl
  | some last =>
      rw [reached] at found
      apply historyVisitSteps_silent _ visit found
      · rw [nodeRefOf_level _ (splitKey_ne_nil visit.key)]
        exact deep
      · exact hide.silent visit.lookupTime deep plain losing reached

omit hide positive in
/-- A key that is no longer enumerated had a version that does not decode. -/
theorem losesHistory_of_not_stillVersioned (visit : KeyVisit)
    (gone : stillVersioned o storage visit = false) :
    o.keyLevelNodes ≤ (splitKey visit.key).length ∧
      LosesHistory o storage (splitKey visit.key) := by
  rw [stillVersioned, Bool.or_eq_false_iff] at gone
  obtain ⟨stored, missing⟩ := gone
  rw [withoutBadVersions] at missing
  by_cases level : (splitKey visit.key).length = o.keyLevelNodes
  · refine ⟨le_of_eq level.symm, ?_⟩
    rw [LosesHistory, List.take_of_length_le (le_of_eq level), joinKeys_splitKey]
    by_contra good
    have kept := filter_of_not_bad o _ good
    simp [level, kept, stored] at missing
  · simp [level, stored] at missing

theorem historyRandomIterate_alike (visits : List KeyVisit) : ∃ steps steps',
    historyRandomIterate o storage visits = ⟨steps, none⟩ ∧
      historyRandomIterate o (withoutBadVersions o storage)
          (visits.filter (stillVersioned o storage)) = ⟨steps', none⟩ ∧
        definedSteps steps = definedSteps steps' := by
  refine ⟨_, _, historyRandomIterate_ok positive storage visits, historyRandomIterate_ok positive _ _,
    ?_⟩
  apply definedSteps_visits
  · intro visit _
    by_cases losing : o.keyLevelNodes ≤ (splitKey visit.key).length ∧
        LosesHistory o storage (splitKey visit.key)
    · obtain ⟨deep, lost⟩ := losing
      rw [historyVisitSteps_losing positive visit deep lost,
        historyVisitSteps_withoutBad hide positive visit deep lost]
    · have plain : PlainStorageKey o.keyLevelNodes (splitKey visit.key) :=
        fun key member => colonFree_of_mem_splitKey visit.key key (List.mem_of_mem_take member)
      have same := historyNodeRef_withoutBad o storage visit.lookupTime positive plain
        fun deep lost => losing ⟨deep, lost⟩
      rw [historyVisitSteps, historyVisitSteps, foundItems, foundItems, historyLookedUp,
        historyLookedUp, same]
  · intro visit gone
    obtain ⟨deep, lost⟩ := losesHistory_of_not_stillVersioned visit gone
    exact historyVisitSteps_losing positive visit deep lost

end

end

end TreeKeyCache
