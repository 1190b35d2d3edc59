import TreeKeyCache.Indistinct
import TreeKeyCache.RandomIterate

/-! # Entries that do not decode

`getNodeRef`, `iteratePath` and `randomIterate` read a tree that does not decode as an absent
one.  `AsyncTreeRef` decodes without a guard, so that a search that comes to such an entry
throws. -/
set_option autoImplicit false
namespace TreeKeyCache

variable {T R A B : Type}

/-! ## The storage without the entries that do not decode -/

def decodesTree (o : Options T R) (serialized : R) : Bool := (deserializeTree o serialized).isSome

/-- An entry on the tree level that does not decode is missing. -/
def withoutUndecodable (o : Options T R) (get : String → Option R) (key : String) : Option R :=
  if (splitKey key).length = o.keyLevelNodes then (get key).filter (decodesTree o) else get key

/-- The key is enumerated without them, too. -/
def stillStored (o : Options T R) (get : String → Option R) (visit : KeyVisit) : Bool :=
  (get visit.key).isNone || (withoutUndecodable o get visit.key).isSome

def definedSteps (steps : List (Step T)) : List (Step T) := steps.filter fun step => step.value.isSome

structure ReadOperations (T : Type) where
  iteratePath : ℚ → List String → Except Err (List (Step T))
  getNode : ℚ → List String → Except Err (Option (Step T))
  randomIterate : List KeyVisit → Yielded (Step T)
  traversal : Nat → ℚ → ℚ → Search → Option (List String) → Yielded (Step T)

/-- The keys of a path that its storage key is made of have no colons. -/
def PlainStorageKey (keyLevelNodes : Nat) (path : List String) : Prop :=
  ∀ key ∈ path.take keyLevelNodes, ColonFree key

/-- All operations of the first end and yield what the second does, as far as steps with a defined
value are concerned.  The storages may enumerate different keys. -/
structure ReadOperations.ReadsAs (keyLevelNodes : Nat) (first second : ReadOperations T)
    (visits visits' : List KeyVisit) : Prop where
  iteratePath : ∀ now path, PlainStorageKey keyLevelNodes path → ∃ steps steps',
    first.iteratePath now path = .ok steps ∧ second.iteratePath now path = .ok steps' ∧
      definedSteps steps = definedSteps steps'
  getNode : ∀ now path, PlainStorageKey keyLevelNodes path → ∃ step step',
    first.getNode now path = .ok step ∧ second.getNode now path = .ok step' ∧
      definedSteps step.toList = definedSteps step'.toList
  randomIterate : ∃ steps steps', first.randomIterate visits = ⟨steps, none⟩ ∧
    second.randomIterate visits' = ⟨steps', none⟩ ∧ definedSteps steps = definedSteps steps'
  traversals : ∀ lookupTime now search basePath,
    (∀ path, basePath = some path → PlainStorageKey keyLevelNodes path) → ∃ enough steps steps',
      definedSteps steps = definedSteps steps' ∧ ∀ rounds, enough ≤ rounds →
        first.traversal rounds lookupTime now search basePath = ⟨steps, none⟩ ∧
          second.traversal rounds lookupTime now search basePath = ⟨steps', none⟩

section
variable [SerializedForm R] (o : Options T R) (get : String → Option R)
  (getChildren : Option String → List String)

/-- The read operations over a storage without history. -/
def ReadOperations.single : ReadOperations T where
  iteratePath := TreeKeyCache.iteratePath o get
  getNode := TreeKeyCache.getNode o get
  randomIterate := TreeKeyCache.randomIterate o get
  traversal := getTraversalStepsIterable o ⟨get, some getChildren⟩

/-- Reading yields what it would yield if the entries that do not decode were missing. -/
def ReadsAsAbsent (visits : List KeyVisit) : Prop :=
  ReadOperations.ReadsAs o.keyLevelNodes (ReadOperations.single o get getChildren)
    (ReadOperations.single o (withoutUndecodable o get) getChildren) visits
    (visits.filter (stillStored o get))

/-- Every entry that is registered on the tree level decodes. -/
def RegisteredDecode : Prop :=
  ∀ p : List String, p.length + 1 = o.keyLevelNodes → (∀ key ∈ p, ColonFree key) →
    ∀ item ∈ getChildren ((chainOf p).map buildKey), ∀ r, get (joinKeys (p ++ [item])) = some r →
      decodesTree o r = true

/-! ## Lookups -/

theorem PlainStorageKey.all {n : Nat} {path : List String} (plain : PlainStorageKey n path)
    (short : path.length < n) : ∀ key ∈ path, ColonFree key := by
  rw [PlainStorageKey, List.take_of_length_le (le_of_lt short)] at plain
  exact plain

omit [SerializedForm R] in
theorem withoutUndecodable_short (path : List String) (nonempty : path ≠ [])
    (colonFree : ∀ key ∈ path, ColonFree key) (short : path.length < o.keyLevelNodes) :
    withoutUndecodable o get (joinKeys path) = get (joinKeys path) := by
  rw [withoutUndecodable, splitKey_joinKeys path nonempty colonFree, if_neg (Nat.ne_of_lt short)]

omit [SerializedForm R] in
theorem bind_filter_decodes (content : Option R) :
    (content.filter (decodesTree o)).bind (deserializeTree o) = content.bind (deserializeTree o) := by
  cases content with
  | none => rfl
  | some r =>
      cases decoded : deserializeTree o r with
      | none => simp [Option.filter, decodesTree, decoded]
      | some tree => simp [Option.filter, decodesTree, decoded]

theorem truthy?_filter (content : Option R) (p : R → Bool) :
    truthy? (content.filter p) = (truthy? content).filter p := by
  cases content with
  | none => rfl
  | some r =>
      cases holds : p r <;> cases truthy : SerializedForm.truthy r <;>
        simp [truthy?, Option.filter, holds, truthy]

theorem treeAt_without (path : List String) :
    treeAt o (withoutUndecodable o get) path = treeAt o get path := by
  rw [treeAt, treeAt, withoutUndecodable]
  split
  · rw [truthy?_filter, bind_filter_decodes]
  · rfl

theorem getNodeRef_without (now : ℚ) (path : List String) (positive : 1 ≤ o.keyLevelNodes)
    (plain : PlainStorageKey o.keyLevelNodes path) :
    getNodeRef o (withoutUndecodable o get) now path false = getNodeRef o get now path false := by
  by_cases nonempty : path = []
  · rw [nonempty, getNodeRef, getNodeRef, storageNodeRef, List.length_nil, Nat.min_zero]
    rfl
  · rw [getNodeRef_eq o _ now path positive nonempty, getNodeRef_eq o get now path positive nonempty,
      treeAt_without]
    split
    · rename_i short
      rw [withoutUndecodable_short o get path nonempty (plain.all short) short]
    · rfl

theorem serializedAt_without (now : ℚ) (path : List String) (nonempty : path ≠ [])
    (plain : PlainStorageKey o.keyLevelNodes path) :
    serializedAt o (withoutUndecodable o get) now path = serializedAt o get now path := by
  rw [serializedAt, serializedAt, treeAt_without]
  split
  · rename_i short
    rw [withoutUndecodable_short o get path nonempty (plain.all short) short]
  · rfl

theorem getNode_without (now : ℚ) (path : List String) (positive : 1 ≤ o.keyLevelNodes)
    (plain : PlainStorageKey o.keyLevelNodes path) :
    getNode o (withoutUndecodable o get) now path = getNode o get now path := by
  rw [getNode, getNode, getNodeRef_without o get now path positive plain]

theorem iteratePath_one (now : ℚ) (path : List String) (one : o.keyLevelNodes = 1) :
    iteratePath o get now path = .ok [] := by
  rw [iteratePath, one, Nat.sub_self, Nat.zero_min]
  rfl

theorem exists_iteratePath (now : ℚ) (path : List String) (positive : 1 ≤ o.keyLevelNodes) :
    ∃ steps, iteratePath o get now path = .ok steps := by
  by_cases one : o.keyLevelNodes = 1
  · exact ⟨[], iteratePath_one o get now path one⟩
  · exact ⟨_, iteratePath_eq o get now path (by omega)⟩

theorem iteratePath_without (now : ℚ) (path : List String) (positive : 1 ≤ o.keyLevelNodes)
    (plain : PlainStorageKey o.keyLevelNodes path) :
    iteratePath o (withoutUndecodable o get) now path = iteratePath o get now path := by
  by_cases one : o.keyLevelNodes = 1
  · rw [iteratePath_one o _ now path one, iteratePath_one o get now path one]
  · rw [iteratePath_eq o _ now path (by omega), iteratePath_eq o get now path (by omega)]
    congr 1
    apply List.filterMap_congr
    intro q listed
    obtain ⟨long, _, taken⟩ := length_of_mem_prefixesFrom path 0 path.length q
      (by omega) listed
    have nonempty : q ≠ [] := List.length_pos_iff.mp long
    have free : PlainStorageKey o.keyLevelNodes q := by
      intro key member
      rw [taken, List.take_take, Nat.min_comm, ← List.take_take] at member
      exact plain key (List.mem_of_mem_take member)
    rw [stepAt, stepAt, serializedAt_without o get now q nonempty free]

theorem exists_getNodeRef (now : ℚ) (path : List String) (positive : 1 ≤ o.keyLevelNodes) :
    ∃ nodeRef, getNodeRef o get now path false = .ok nodeRef := by
  by_cases nonempty : path = []
  · refine ⟨none, ?_⟩
    rw [nonempty, getNodeRef, storageNodeRef, List.length_nil, Nat.min_zero]
    rfl
  · rw [getNodeRef_eq o get now path positive nonempty]
    split
    · exact ⟨_, rfl⟩
    · split
      · exact ⟨_, rfl⟩
      · exact ⟨_, rfl⟩

theorem exists_getNode (now : ℚ) (path : List String) (positive : 1 ≤ o.keyLevelNodes) :
    ∃ step, getNode o get now path = .ok step := by
  by_cases nonempty : path = []
  · exact ⟨none, by rw [nonempty, getNode_nil]⟩
  · exact ⟨_, getNode_eq o get now path positive nonempty⟩

/-! ## Enumerations -/

/-- The lookup of a key, when it does not throw. -/
def lookedUp (now : ℚ) (path : List String) : Option (TraversalItem R) :=
  match getNodeRef o get now path false with
  | .ok nodeRef => nodeRef
  | .error _ => none

theorem randomIterate_ok (positive : 1 ≤ o.keyLevelNodes) (visits : List KeyVisit) :
    randomIterate o get visits =
      ⟨(visits.flatMap (foundItems o.keyLevelNodes (lookedUp o get))).map fun item => item.any.step o,
        none⟩ := by
  rw [randomIterate, internalRandomIterate_ok o.keyLevelNodes _ (lookedUp o get) visits]
  · rfl
  · intro visit _
    obtain ⟨nodeRef, found⟩ := exists_getNodeRef o get visit.lookupTime (splitKey visit.key) positive
    rw [lookedUp, found]

theorem foundItems_absent (positive : 1 ≤ o.keyLevelNodes) (visit : KeyVisit)
    (long : o.keyLevelNodes ≤ (splitKey visit.key).length)
    (absent : treeAt o get (splitKey visit.key) = none) :
    definedSteps ((foundItems o.keyLevelNodes (lookedUp o get) visit).map fun item => item.any.step o) =
      [] := by
  have nonempty := splitKey_ne_nil visit.key
  have level : (bareItem ((splitKey visit.key).take o.keyLevelNodes) : TraversalItem R).ref.level =
      o.keyLevelNodes := by
    have found := bareItem_level (R := R) (splitKey visit.key) (o.keyLevelNodes - 1) (by omega)
    rw [Nat.sub_add_cancel positive] at found
    exact found
  rw [foundItems, lookedUp, getNodeRef_eq o get _ _ positive nonempty, if_neg (by omega), absent]
  dsimp only
  rw [Option.map_some, Option.getD_some, visitItems, if_neg (by rw [level]; simp)]
  rfl

theorem treeAt_of_not_stillStored (visit : KeyVisit) (gone : stillStored o get visit = false) :
    (splitKey visit.key).length = o.keyLevelNodes ∧ treeAt o get (splitKey visit.key) = none := by
  rw [stillStored, Bool.or_eq_false_iff, withoutUndecodable] at gone
  obtain ⟨stored, missing⟩ := gone
  cases found : get visit.key with
  | none =>
      rw [found] at stored
      cases stored
  | some r =>
      rw [found] at missing
      by_cases level : (splitKey visit.key).length = o.keyLevelNodes
      · refine ⟨level, ?_⟩
        rw [if_pos level] at missing
        have undecoded : deserializeTree o r = none := by
          cases decoded : deserializeTree o r with
          | none => rfl
          | some tree => simp [Option.filter, decodesTree, decoded] at missing
        rw [treeAt, List.take_of_length_le (le_of_eq level), joinKeys_splitKey, found]
        cases truthy : truthy? (some r) with
        | none => rfl
        | some r' =>
            have same : r' = r := by
              have filtered := Option.filter_eq_some_iff.mp truthy
              exact (Option.some.inj filtered.1).symm
            rw [same]
            exact undecoded
      · rw [if_neg level] at missing
        cases missing

omit [SerializedForm R] in
theorem definedSteps_visits (f g : KeyVisit → List (Step T)) (kept : KeyVisit → Bool) :
    ∀ visits : List KeyVisit,
      (∀ visit, kept visit = true → definedSteps (f visit) = definedSteps (g visit)) →
      (∀ visit, kept visit = false → definedSteps (f visit) = []) →
        definedSteps (visits.flatMap f) = definedSteps ((visits.filter kept).flatMap g) := by
  intro visits same nothing
  induction visits with
  | nil => rfl
  | cons visit rest ih =>
      rw [definedSteps, definedSteps] at ih
      rw [List.flatMap_cons, definedSteps, List.filter_append, ih]
      cases keeps : kept visit with
      | false =>
          have none := nothing visit keeps
          rw [definedSteps] at none
          rw [none, List.filter_cons_of_neg (by rw [keeps]; exact Bool.false_ne_true)]
          rfl
      | true =>
          have alike := same visit keeps
          rw [definedSteps, definedSteps] at alike
          rw [alike, List.filter_cons_of_pos keeps, List.flatMap_cons, definedSteps,
            List.filter_append]

theorem randomIterate_alike (positive : 1 ≤ o.keyLevelNodes) (visits : List KeyVisit) :
    ∃ steps steps', randomIterate o get visits = ⟨steps, none⟩ ∧
      randomIterate o (withoutUndecodable o get) (visits.filter (stillStored o get)) =
        ⟨steps', none⟩ ∧ definedSteps steps = definedSteps steps' := by
  refine ⟨_, _, randomIterate_ok o get positive visits, randomIterate_ok o _ positive _, ?_⟩
  rw [List.map_flatMap, List.map_flatMap]
  apply definedSteps_visits
  · intro visit _
    rw [foundItems, foundItems, lookedUp, lookedUp, getNodeRef_without o get _ _ positive
      fun key member => colonFree_of_mem_splitKey visit.key key (List.mem_of_mem_take member)]
  · intro visit gone
    obtain ⟨level, absent⟩ := treeAt_of_not_stillStored o get visit gone
    exact foundItems_absent o get positive visit (le_of_eq level.symm) absent

/-! ## Searches -/

/-- Every entry with as many components as a tree key has, or more, that does not decode is
missing. -/
def decodableOnly (key : String) : Option R :=
  if o.keyLevelNodes ≤ key.toList.count ':' + 1 then (get key).filter (decodesTree o) else get key

omit [SerializedForm R] in
theorem treesDecode_decodableOnly (positive : 1 ≤ o.keyLevelNodes) :
    TreesDecode o (decodableOnly o get) := by
  intro keys level r found
  have nonempty : keys ≠ [] := by
    intro none
    rw [none, List.length_nil] at level
    omega
  have colons := colons_joinKeys keys nonempty
  rw [decodableOnly, if_pos (by omega)] at found
  obtain ⟨_, decodes⟩ := Option.filter_eq_some_iff.mp found
  rw [decodesTree, deserializeTree] at decodes
  cases decoded : o.treeSerializer.deserialize r with
  | ok tree => exact ⟨tree, rfl⟩
  | error e =>
      rw [decoded] at decodes
      cases decodes

omit [SerializedForm R] in
theorem decodableOnly_short (path : List String) (nonempty : path ≠ [])
    (colonFree : ∀ key ∈ path, ColonFree key) (short : path.length < o.keyLevelNodes) :
    decodableOnly o get (joinKeys path) = get (joinKeys path) := by
  have colons := colons_joinKeys path nonempty
  have none : (path.map fun key => key.toList.count ':').sum = 0 := by
    rw [List.sum_eq_zero]
    intro n listed
    obtain ⟨key, member, rfl⟩ := List.mem_map.mp listed
    exact List.count_eq_zero.mpr (colonFree key member)
  rw [decodableOnly, if_neg (by omega)]

section
variable {getChildren}
variable (names : ∀ parent, ∀ item ∈ getChildren parent, ColonFree item)
  (decode : RegisteredDecode o get getChildren)
include names decode

omit [SerializedForm R] in
theorem registered_agree (get' : String → Option R)
    (short : ∀ path, path ≠ [] → (∀ key ∈ path, ColonFree key) → path.length < o.keyLevelNodes →
      get' (joinKeys path) = get (joinKeys path))
    (tree : ∀ key, (∀ r, get key = some r → decodesTree o r = true) → get' key = get key) :
    Indistinct o ⟨get, some getChildren⟩ ⟨get', some getChildren⟩ (OnKeyLevel o) := by
  apply indistinct_of_agree o names
  intro ref p here above colonFree item listed
  have same : get' (joinKeys (p ++ [item])) = get (joinKeys (p ++ [item])) := by
    by_cases last : p.length + 1 = o.keyLevelNodes
    · exact tree _ (decode p last colonFree item listed)
    · apply short (p ++ [item]) (by simp) (colonFree_child names colonFree listed)
      rw [List.length_append, List.length_singleton]
      omega
  rw [childAt_at o here, childAt_at o here]
  dsimp only
  rw [same]

omit [SerializedForm R] in
/-- A search over entries that decode ends, and yields what the storage in one piece lists. -/
theorem search_ends (positive : 1 ≤ o.keyLevelNodes) (base : List String)
    (colonFree : ∀ key ∈ base, ColonFree key) (short : base.length < o.keyLevelNodes) (now : ℚ)
    (search : Search) : ∃ enough listed, ∀ rounds, enough ≤ rounds →
      (search.async o ⟨get, some getChildren⟩ rounds now (.async (baseRef get base))
          (chainOf base)).error = none ∧
        (search.async o ⟨get, some getChildren⟩ rounds now (.async (baseRef get base))
          (chainOf base)).items.map AnyTraversalItem.shown = listed := by
  have indistinct := registered_agree o get names decode (decodableOnly o get)
    (fun path nonempty free => decodableOnly_short o get path nonempty free) (by
      intro key decodes
      rw [decodableOnly]
      split
      · cases found : get key with
        | none => rfl
        | some r => simp [Option.filter, decodes r found]
      · rfl)
  have sameBase : baseRef (decodableOnly o get) base = baseRef get base := by
    rw [baseRef, baseRef, storedAt, storedAt]
    split
    · rfl
    · rename_i nonempty
      rw [decodableOnly_short o get base nonempty colonFree short]
  refine ⟨(storageTree o (decodableOnly o get) getChildren base).size,
    (search.sync now (storageTree o (decodableOnly o get) getChildren base) (chainOf base)).map
      TraversalItem.shown, fun rounds enough => ?_⟩
  rw [← materialise_baseRef] at enough
  have ends := Search.async_eq getChildren (treesDecode_decodableOnly o get positive) rounds now _
    (baseRef_ready o (decodableOnly o get) base short) (chainOf base) enough search
  rw [materialise_baseRef] at ends
  rw [sameBase] at ends
  rw [indistinct.search_eq rounds now (.async (baseRef get base)) ⟨base, rfl, short, colonFree⟩
    (chainOf base) search]
  exact ends

end

/-- The base path of a search that starts above the tree level. -/
def baseOf (base : List String) : Option (List String) := if base = [] then none else some base

theorem getTraversalStepsIterable_short (positive : 1 ≤ o.keyLevelNodes) (base : List String)
    (short : base.length < o.keyLevelNodes) (getChildren : Option (Option String → List String))
    (rounds : Nat) (lookupTime now : ℚ) (search : Search) :
    getTraversalStepsIterable o ⟨get, getChildren⟩ rounds lookupTime now search (baseOf base) =
      (search.async o ⟨get, getChildren⟩ rounds now (.async (baseRef get base)) (chainOf base)).map
        (AnyTraversalItem.step o) := by
  rw [baseOf]
  by_cases root : base = []
  · rw [if_pos root, root]
    rfl
  · have level : (nodeRefOf base).level = base.length := nodeRefOf_level base root
    rw [if_neg root, getTraversalStepsIterable, getNodeRef_eq o get _ base positive root, if_pos short]
    dsimp only
    rw [getTraversalIterable, baseRef, storedAt, if_neg root, chainOf_eq_some base root]
    dsimp only
    rw [level, if_neg (by omega)]
    rfl

theorem getTraversalStepsIterable_deep (positive : 1 ≤ o.keyLevelNodes) (base : List String)
    (deep : o.keyLevelNodes ≤ base.length) (rounds : Nat) (lookupTime now : ℚ) (search : Search)
    (storage : ReadStorage R) :
    getTraversalStepsIterable o storage rounds lookupTime now search (some base) =
      ⟨((lookedUp o storage.get lookupTime base).map fun item =>
        (search.sync now item.treeRef (some item.ref)).map fun item => item.any.step o).getD [], none⟩ := by
  have nonempty : base ≠ [] := by
    intro none
    rw [none, List.length_nil] at deep
    omega
  have level : ∀ item : TraversalItem R, lookedUp o storage.get lookupTime base = some item →
      o.keyLevelNodes ≤ item.ref.level := by
    intro item found
    rw [lookedUp, getNodeRef_eq o _ _ base positive nonempty, if_neg (by omega)] at found
    cases tree : treeAt o storage.get base with
    | none =>
        rw [tree] at found
        obtain rfl := Option.some.inj found
        have bare := bareItem_level (R := R) base (o.keyLevelNodes - 1) (by omega)
        rw [Nat.sub_add_cancel positive] at bare
        exact le_of_eq bare.symm
    | some tree =>
        rw [tree] at found
        obtain ⟨last, _, rfl⟩ := Option.map_eq_some_iff.mp found
        rw [nodeRefOf_level base nonempty]
        exact deep
  obtain ⟨nodeRef, found⟩ := exists_getNodeRef o storage.get lookupTime base positive
  have looked : lookedUp o storage.get lookupTime base = nodeRef := by
    rw [lookedUp, found]
  rw [getTraversalStepsIterable, found, looked]
  cases nodeRef with
  | none => rfl
  | some item =>
      dsimp only
      rw [getTraversalIterable]
      rw [if_pos (level item looked), Yielded.map, Option.map_some, Option.getD_some, List.map_map]
      rfl

def stepOfShown (shown : ChainedObject × Option R) : Step T :=
  mountStep shown.1 (shown.2.bind (deserializeValue o))

variable {getChildren} in
theorem traversals_alike (positive : 1 ≤ o.keyLevelNodes)
    (names : ∀ parent, ∀ item ∈ getChildren parent, ColonFree item)
    (decode : RegisteredDecode o get getChildren) (lookupTime now : ℚ) (search : Search)
    (basePath : Option (List String))
    (plain : ∀ path, basePath = some path → PlainStorageKey o.keyLevelNodes path) :
    ∃ enough steps, ∀ rounds, enough ≤ rounds →
      getTraversalStepsIterable o ⟨get, some getChildren⟩ rounds lookupTime now search basePath =
          ⟨steps, none⟩ ∧
        getTraversalStepsIterable o ⟨withoutUndecodable o get, some getChildren⟩ rounds lookupTime now
          search basePath = ⟨steps, none⟩ := by
  have fromKeyLevel : ∀ base : List String, base.length < o.keyLevelNodes →
      (∀ key ∈ base, ColonFree key) → ∃ enough steps, ∀ rounds, enough ≤ rounds →
        getTraversalStepsIterable o ⟨get, some getChildren⟩ rounds lookupTime now search
            (baseOf base) = ⟨steps, none⟩ ∧
          getTraversalStepsIterable o ⟨withoutUndecodable o get, some getChildren⟩ rounds lookupTime
            now search (baseOf base) = ⟨steps, none⟩ := by
    intro base short free
    obtain ⟨enough, listed, ends⟩ := search_ends o get names decode positive base free short now search
    refine ⟨enough, listed.map (stepOfShown o), fun rounds long => ?_⟩
    obtain ⟨quiet, items⟩ := ends rounds long
    have indistinct := registered_agree o get names decode (withoutUndecodable o get)
      (fun path nonempty free => withoutUndecodable_short o get path nonempty free) (by
        intro key decodes
        rw [withoutUndecodable]
        split
        · cases found : get key with
          | none => rfl
          | some r => simp [Option.filter, decodes r found]
        · rfl)
    have sameBase : baseRef (withoutUndecodable o get) base = baseRef get base := by
      rw [baseRef, baseRef, storedAt, storedAt]
      split
      · rfl
      · rename_i nonempty
        rw [withoutUndecodable_short o get base nonempty free short]
    rw [getTraversalStepsIterable_short o get positive base short,
      getTraversalStepsIterable_short o _ positive base short, sameBase,
      ← indistinct.search_eq rounds now (.async (baseRef get base)) ⟨base, rfl, short, free⟩
        (chainOf base) search, Yielded.map, quiet, ← items, List.map_map]
    exact ⟨rfl, rfl⟩
  cases basePath with
  | none =>
      apply fromKeyLevel [] (by rw [List.length_nil]; omega)
      intro key member
      cases member
  | some base =>
      have free := plain base rfl
      by_cases root : base = []
      · refine ⟨0, [], fun rounds _ => ?_⟩
        rw [root, getTraversalStepsIterable, getTraversalStepsIterable, getNodeRef, getNodeRef,
          storageNodeRef, List.length_nil, Nat.min_zero]
        exact ⟨rfl, rfl⟩
      · by_cases short : base.length < o.keyLevelNodes
        · obtain ⟨enough, steps, ends⟩ := fromKeyLevel base short (free.all short)
          rw [baseOf, if_neg root] at ends
          exact ⟨enough, steps, ends⟩
        · have same : lookedUp o (withoutUndecodable o get) lookupTime base =
              lookedUp o get lookupTime base := by
            rw [lookedUp, lookedUp, getNodeRef_without o get _ base positive free]
          refine ⟨0, _, fun rounds _ => ⟨getTraversalStepsIterable_deep o positive base
            (Nat.not_lt.mp short) rounds lookupTime now search _, ?_⟩⟩
          rw [getTraversalStepsIterable_deep o positive base (Nat.not_lt.mp short)]
          dsimp only
          rw [same]

omit [SerializedForm R] in
theorem postOrder_throws {p : List String} (level : p.length + 1 = o.keyLevelNodes) {item : String}
    (listed : item ∈ getChildren ((chainOf p).map buildKey)) {r : R}
    (stored : get (joinKeys (p ++ [item])) = some r) (undecoded : decodesTree o r = false)
    (rounds : Nat) (now : ℚ) :
    (Search.postOrderDepthFirst.async o ⟨get, some getChildren⟩ (rounds + 1) now
      (.async (baseRef get p)) (chainOf p)).error ≠ none := by
  have throws : ∃ e, (baseRef get p).childAt o ⟨get, some getChildren⟩ item = .error e := by
    have here : (baseRef get p).nodeRef = chainOf p := rfl
    rw [childAt_at o here, if_neg (by omega)]
    dsimp only
    rw [stored]
    dsimp only
    rw [if_neg (by omega)]
    rw [decodesTree, deserializeTree] at undecoded
    cases decoded : o.treeSerializer.deserialize r with
    | ok tree =>
        rw [decoded] at undecoded
        cases undecoded
    | error e => exact ⟨e, rfl⟩
  obtain ⟨e, thrown⟩ := throws
  have children : ((baseRef get p).children o ⟨get, some getChildren⟩).error ≠ none := by
    rw [AsyncTreeRef.children]
    exact collect_error thrown listed
  obtain ⟨e', found⟩ := Option.ne_none_iff_exists'.mp children
  apply append_error_left
  rw [asyncTreePostOrderTraversalRecursive]
  apply append_error
  rw [found]
  exact Option.some_ne_none e'

variable {getChildren} in
/-- Reading treats entries that do not decode as absent exactly when none of them is registered. -/
theorem readsAsAbsent_iff_registeredDecode (positive : 1 ≤ o.keyLevelNodes)
    (names : ∀ parent, ∀ item ∈ getChildren parent, ColonFree item) (visits : List KeyVisit) :
    ReadsAsAbsent o get getChildren visits ↔ RegisteredDecode o get getChildren := by
  constructor
  · intro reads p level colonFree item listed r stored
    by_contra undecoded
    rw [Bool.not_eq_true] at undecoded
    have short : p.length < o.keyLevelNodes := by omega
    obtain ⟨enough, steps, steps', _, ends⟩ := reads.traversals 0 0 .postOrderDepthFirst (baseOf p) (by
      intro path same
      rw [baseOf] at same
      split at same
      · cases same
      · rw [← Option.some.inj same]
        exact fun key member => colonFree key (List.mem_of_mem_take member))
    have ended : getTraversalStepsIterable o ⟨get, some getChildren⟩ (enough + 1) 0 0
        .postOrderDepthFirst (baseOf p) = ⟨steps, none⟩ := (ends (enough + 1) (Nat.le_succ enough)).1
    rw [getTraversalStepsIterable_short o get positive p short] at ended
    have quiet := congrArg Yielded.error ended
    exact postOrder_throws o get getChildren level listed stored undecoded enough 0 quiet
  · intro decode
    constructor
    · intro now path plain
      obtain ⟨steps, ended⟩ := exists_iteratePath o get now path positive
      exact ⟨steps, steps, ended, (iteratePath_without o get now path positive plain).trans ended, rfl⟩
    · intro now path plain
      obtain ⟨step, ended⟩ := exists_getNode o get now path positive
      exact ⟨step, step, ended, (getNode_without o get now path positive plain).trans ended, rfl⟩
    · exact randomIterate_alike o get positive visits
    · intro lookupTime now search basePath plain
      obtain ⟨enough, steps, ends⟩ := traversals_alike o get positive names decode lookupTime now search
        basePath plain
      exact ⟨enough, steps, steps, rfl, ends⟩

end

end TreeKeyCache
