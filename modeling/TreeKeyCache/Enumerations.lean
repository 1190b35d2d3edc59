import TreeKeyCache.Materialised
import TreeKeyCache.MergedVersions
import TreeKeyCache.RandomIterate
import TreeKeyCache.ReprocessedChildren

/-! # Three ways to the stored nodes

The iteration over the storage keys, the traversals over a rebuilt children registry and the
point read agree: on a store of well-formed keys both enumerations show every node that
`getNode` finds, once, and no value besides. -/
set_option autoImplicit false
namespace TreeKeyCache

variable {T R : Type}

/-! ## Keys and their parts -/

theorem sum_colons_eq_zero {keys : List String} (colonFree : ∀ key ∈ keys, ColonFree key) :
    (keys.map fun key => key.toList.count ':').sum = 0 := by
  apply List.sum_eq_zero
  intro n listed
  obtain ⟨key, member, rfl⟩ := List.mem_map.mp listed
  exact List.count_eq_zero.mpr (colonFree key member)

theorem length_le_splitKey_joinKeys (keys : List String) (nonempty : keys ≠ []) :
    keys.length ≤ (splitKey (joinKeys keys)).length := by
  have joined := colons_joinKeys keys nonempty
  have split := colons_joinKeys (splitKey (joinKeys keys)) (splitKey_ne_nil _)
  rw [joinKeys_splitKey, sum_colons_eq_zero (colonFree_of_mem_splitKey _), Nat.add_zero, joined] at split
  omega

section
variable [SerializedForm R] (o : Options T R) (get : String → Option R)

/-- The stored keys have at most `keyLevelNodes` parts, none of them empty, the entries of the tree
level decode, and no serialized value is empty. -/
structure PlainStore : Prop where
  short : ∀ key, get key ≠ none → (splitKey key).length ≤ o.keyLevelNodes
  parts : ∀ key, get key ≠ none → ∀ part ∈ splitKey key, part ≠ ""
  decodes : ∀ key r, get key = some r → (splitKey key).length = o.keyLevelNodes →
    ∃ tree, o.treeSerializer.deserialize r = .ok tree
  truthy : ∀ key r, get key = some r → SerializedForm.truthy r = true
  truthyValues : ∀ key r tree, get key = some r → (splitKey key).length = o.keyLevelNodes →
    o.treeSerializer.deserialize r = .ok tree → ∀ q node v, tree.sub q = some node →
      node.value = some v → SerializedForm.truthy v = true

/-- The steps show every node that `getNode` finds with a value once, as `getNode` does, and no
other value. -/
structure ListsStored (now : ℚ) (steps : List (Step T)) : Prop where
  once : ((steps.filter fun step => step.value.isSome).map fun step => step.nodeRef.keys).Nodup
  sound : ∀ step ∈ steps, step.value ≠ none →
    getNode o get now step.nodeRef.keys = .ok (some step)
  complete : ∀ path : List String, (∀ key ∈ path.take o.keyLevelNodes, ProperKey key) →
    ∀ step : Step T, step.value ≠ none → getNode o get now path = .ok (some step) → step ∈ steps

/-- Paths with what is stored at them. -/
structure ListsPaths (now : ℚ) (nodes : List (List String × Option R)) : Prop where
  once : (nodes.map Prod.fst).Nodup
  nonempty : ∀ node ∈ nodes, node.1 ≠ []
  sound : ∀ node ∈ nodes, node.2 = serializedAt o get now node.1
  complete : ∀ path : List String, path ≠ [] → (∀ key ∈ path.take o.keyLevelNodes, ProperKey key) →
    serializedAt o get now path ≠ none → path ∈ nodes.map Prod.fst

def listedStep (node : List String × Option R) : Step T :=
  mountStep (nodeRefOf node.1) (node.2.bind (deserializeValue o))

variable {o} {get}

/-- On the tree level the parts of a stored key are the keys it was joined from. -/
theorem PlainStore.splitKey_length (store : PlainStore o get) {keys : List String} {r : R}
    (positive : 1 ≤ o.keyLevelNodes) (level : keys.length = o.keyLevelNodes)
    (stored : get (joinKeys keys) = some r) : (splitKey (joinKeys keys)).length = o.keyLevelNodes := by
  have present : get (joinKeys keys) ≠ none := by
    rw [stored]
    exact Option.some_ne_none r
  have nonempty : keys ≠ [] := by
    intro none
    rw [none, List.length_nil] at level
    omega
  have lower := length_le_splitKey_joinKeys keys nonempty
  have upper := store.short _ present
  omega

theorem PlainStore.treesDecode (store : PlainStore o get) (positive : 1 ≤ o.keyLevelNodes) :
    TreesDecode o get := fun _ level r stored =>
  store.decodes _ r stored (store.splitKey_length positive level stored)

theorem PlainStore.truthy?_get (store : PlainStore o get) (key : String) : truthy? (get key) = get key := by
  cases stored : get key with
  | none => rfl
  | some r => exact Option.filter_some_pos (store.truthy key r stored)

theorem PlainStore.truthy_serializedAt (store : PlainStore o get) (positive : 1 ≤ o.keyLevelNodes)
    {now : ℚ} {path : List String} {r : R} (held : serializedAt o get now path = some r) :
    SerializedForm.truthy r = true := by
  rw [serializedAt] at held
  by_cases short : path.length < o.keyLevelNodes
  · rw [if_pos short] at held
    rw [store.truthy?_get] at held
    exact store.truthy _ r held
  · rw [if_neg short, treeAt, store.truthy?_get] at held
    obtain ⟨tree, decoded, value⟩ := Option.bind_eq_some_iff.mp held
    obtain ⟨serialized, stored, decodes⟩ := Option.bind_eq_some_iff.mp decoded
    have level : (path.take o.keyLevelNodes).length = o.keyLevelNodes :=
      List.length_take_of_le (Nat.le_of_not_lt short)
    have split := store.splitKey_length positive level stored
    obtain ⟨tree', same⟩ := store.decodes _ serialized stored split
    rw [deserializeTree, same] at decodes
    obtain rfl := Option.some.inj decodes
    obtain ⟨node, found, current⟩ := Option.bind_eq_some_iff.mp value
    have raw : node.value = some r := by
      rw [getTreeCurrentSerializedValue] at current
      split at current
      · exact current
      · split at current
        · exact current
        · cases current
    exact store.truthyValues _ serialized _ stored split same _ node r found raw

theorem getNode_path {now : ℚ} {path : List String} {step : Step T} (positive : 1 ≤ o.keyLevelNodes)
    (found : getNode o get now path = .ok (some step)) :
    path ≠ [] ∧ ∃ r, serializedAt o get now path = some r ∧ step = stepFor o path r := by
  have nonempty : path ≠ [] := by
    intro none
    rw [none, getNode_nil] at found
    cases found
  refine ⟨nonempty, ?_⟩
  rw [getNode_eq o get now path positive nonempty] at found
  obtain ⟨r, held, rfl⟩ := Option.map_eq_some_iff.mp (Except.ok.inj found)
  exact ⟨r, (Option.filter_eq_some_iff.mp held).1, rfl⟩

theorem ListsPaths.stored (store : PlainStore o get) (positive : 1 ≤ o.keyLevelNodes) {now : ℚ}
    {nodes : List (List String × Option R)} (lists : ListsPaths o get now nodes) :
    ListsStored o get now (nodes.map (listedStep o)) := by
  have step : ∀ node ∈ nodes, ∀ r, node.2 = some r → listedStep o node = stepFor o node.1 r := by
    intro node _ r held
    rw [listedStep, held]
    rfl
  refine ⟨?_, ?_, ?_⟩
  · rw [List.filter_map, List.map_map]
    have paths : (nodes.filter ((fun step => step.value.isSome) ∘ listedStep o)).map
        ((fun step : Step T => step.nodeRef.keys) ∘ listedStep o) =
          (nodes.filter ((fun step => step.value.isSome) ∘ listedStep o)).map Prod.fst := by
      apply List.map_congr_left
      intro node listed
      exact nodeRefOf_keys node.1 (lists.nonempty node (List.mem_of_mem_filter listed))
    rw [paths]
    exact lists.once.sublist (List.filter_sublist.map Prod.fst)
  · intro found listed defined
    obtain ⟨node, member, rfl⟩ := List.mem_map.mp listed
    have nonempty := lists.nonempty node member
    have keys : (listedStep o node).nodeRef.keys = node.1 := nodeRefOf_keys node.1 nonempty
    have held := lists.sound node member
    cases value : node.2 with
    | none =>
        refine absurd ?_ defined
        rw [listedStep, value]
        rfl
    | some r =>
        rw [value] at held
        have truthy : truthy? (some r) = some r :=
          Option.filter_some_pos (store.truthy_serializedAt positive held.symm)
        rw [keys, getNode_eq o get now node.1 positive nonempty, ← held, truthy, Option.map_some,
          step node member r value]
  · intro path proper found defined read
    obtain ⟨nonempty, r, held, rfl⟩ := getNode_path positive read
    have present : serializedAt o get now path ≠ none := by
      rw [held]
      exact Option.some_ne_none r
    obtain ⟨node, member, rfl⟩ := List.mem_map.mp (lists.complete path nonempty proper present)
    rw [← step node member r ((lists.sound node member).trans held)]
    exact List.mem_map_of_mem member

end

/-! ## The iteration over the keys -/

section
variable [SerializedForm R] (o : Options T R) (get : String → Option R)

/-- What is found for a stored key. -/
def foundNode (t : ℚ) (path : List String) : Option (TraversalItem R) :=
  if path.length < o.keyLevelNodes then some ⟨nodeRefOf path, get (joinKeys path), Tree.empty⟩
  else (treeAt o get path).map fun tree =>
    ⟨nodeRefOf path, getTreeCurrentSerializedValue tree t, tree⟩

/-- The nodes shown for a stored key. -/
def visitedNodes (visit : KeyVisit) : List (List String × Option R) :=
  if (splitKey visit.key).length < o.keyLevelNodes then [(splitKey visit.key, get visit.key)]
  else ((treeAt o get (splitKey visit.key)).map fun tree =>
    (listing .fifo (splitKey visit.key) tree).map fun node =>
      (node.1, getTreeCurrentSerializedValue node.2 visit.now)).getD []

/-- At time `t` every node holds what it holds at `now`. -/
def SameValues (t now : ℚ) : Prop := ∀ path, serializedAt o get t path = serializedAt o get now path

/-- The storage enumerates each of its keys once. -/
def EnumeratesKeys (keys : List String) : Prop :=
  keys.Nodup ∧ ∀ key, key ∈ keys ↔ get key ≠ none

variable {o} {get}

theorem PlainStore.treeAt_splitKey (store : PlainStore o get) {key : String} (stored : get key ≠ none)
    (deep : ¬ (splitKey key).length < o.keyLevelNodes) :
    (splitKey key).length = o.keyLevelNodes ∧ ∃ tree, treeAt o get (splitKey key) = some tree ∧
      tree.wellFormed = true := by
  have level : (splitKey key).length = o.keyLevelNodes := by
    have upper := store.short key stored
    omega
  refine ⟨level, ?_⟩
  obtain ⟨r, content⟩ := Option.ne_none_iff_exists'.mp stored
  obtain ⟨tree, decoded⟩ := store.decodes key r content level
  refine ⟨tree, ?_, o.treeSerializer.deserialize_wellFormed r tree decoded⟩
  rw [treeAt, ← level, List.take_length, joinKeys_splitKey, store.truthy?_get, content,
    Option.bind_some, deserializeTree, decoded]

theorem PlainStore.getNodeRef_splitKey (store : PlainStore o get) (positive : 1 ≤ o.keyLevelNodes)
    {key : String} (stored : get key ≠ none) (t : ℚ) :
    getNodeRef o get t (splitKey key) false = .ok (foundNode o get t (splitKey key)) := by
  rw [getNodeRef_eq o get t (splitKey key) positive (splitKey_ne_nil key), foundNode]
  by_cases short : (splitKey key).length < o.keyLevelNodes
  · rw [if_pos short, if_pos short]
  · obtain ⟨level, tree, held, _⟩ := store.treeAt_splitKey stored short
    rw [if_neg short, if_neg short, held]
    simp only [← level, List.drop_length, Option.map_some]
    rfl

theorem visitItems_foundNode {visit : KeyVisit} :
    (((foundNode o get visit.lookupTime (splitKey visit.key)).map
      (visitItems o.keyLevelNodes true visit.now)).getD []).map (fun item => item.any.step o) =
        (visitedNodes o get visit).map (listedStep o) := by
  have nonempty := splitKey_ne_nil visit.key
  have level := nodeRefOf_level (splitKey visit.key) nonempty
  rw [foundNode, visitedNodes]
  by_cases short : (splitKey visit.key).length < o.keyLevelNodes
  · rw [if_pos short, if_pos short, Option.map_some, Option.getD_some, visitItems,
      if_pos (Or.inl (by rw [level]; exact short)), joinKeys_splitKey]
    rfl
  · rw [if_neg short, if_neg short]
    cases treeAt o get (splitKey visit.key) with
    | none => rfl
    | some tree =>
        have inTree : ¬ ((nodeRefOf (splitKey visit.key)).level < o.keyLevelNodes ∨ true = false) := by
          rw [level]
          rintro (short' | absent)
          · exact short short'
          · cases absent
        simp only [Option.map_some, Option.getD_some, visitItems, if_neg inTree]
        rw [treePreOrderBreadthFirstSearch, treePreOrderTraversal_below _ _ _ _ nonempty, List.map_map,
          List.map_map]
        rfl

theorem randomIterate_eq (store : PlainStore o get) (positive : 1 ≤ o.keyLevelNodes)
    {visits : List KeyVisit} (stored : ∀ visit ∈ visits, get visit.key ≠ none) :
    randomIterate o get visits = ⟨(visits.flatMap (visitedNodes o get)).map (listedStep o), none⟩ := by
  rw [randomIterate, internalRandomIterate_ok o.keyLevelNodes _ (foundNode o get) visits fun visit listed =>
    store.getNodeRef_splitKey positive (stored visit listed) visit.lookupTime]
  rw [Yielded.map, List.map_flatMap, List.map_flatMap]
  congr 1
  apply List.flatMap_congr
  intro visit _
  exact visitItems_foundNode

theorem serializedAt_append {path : List String} {tree : Tree R} (level : path.length = o.keyLevelNodes)
    (held : treeAt o get path = some tree) (t : ℚ) (q : List String) :
    serializedAt o get t (path ++ q) = tree.valueAt t q := by
  have length : ¬ (path ++ q).length < o.keyLevelNodes := by
    rw [List.length_append]
    omega
  have front : (path ++ q).take o.keyLevelNodes = path := by rw [← level, List.take_left]
  have back : (path ++ q).drop o.keyLevelNodes = q := by rw [← level, List.drop_left]
  rw [serializedAt, if_neg length, back]
  rw [treeAt, ← level, List.take_length] at held
  rw [treeAt, front, held]
  rfl

theorem mem_visitedNodes (store : PlainStore o get) {visit : KeyVisit} (stored : get visit.key ≠ none)
    {path : List String} {value : Option R} :
    (path, value) ∈ visitedNodes o get visit →
      path ≠ [] ∧ path.take o.keyLevelNodes = splitKey visit.key ∧
        value = serializedAt o get visit.now path := by
  intro listed
  have nonempty := splitKey_ne_nil visit.key
  rw [visitedNodes] at listed
  by_cases short : (splitKey visit.key).length < o.keyLevelNodes
  · rw [if_pos short] at listed
    obtain ⟨rfl, rfl⟩ := Prod.mk.inj (List.mem_singleton.mp listed)
    refine ⟨nonempty, List.take_of_length_le (Nat.le_of_lt short), ?_⟩
    rw [serializedAt, if_pos short, joinKeys_splitKey, store.truthy?_get]
  · obtain ⟨level, tree, held, wellFormed⟩ := store.treeAt_splitKey stored short
    rw [if_neg short, held, Option.map_some, Option.getD_some] at listed
    obtain ⟨⟨path', node⟩, member, same⟩ := List.mem_map.mp listed
    obtain ⟨rfl, rfl⟩ := Prod.mk.inj same
    obtain ⟨q, rfl, found⟩ := (mem_listing .fifo (splitKey visit.key) tree wellFormed path' node).mp member
    refine ⟨List.append_ne_nil_of_left_ne_nil nonempty q, ?_, ?_⟩
    · rw [← level, List.take_left]
    · rw [serializedAt_append level held, Tree.valueAt, found]
      rfl

theorem visitedNodes_nodup (store : PlainStore o get) {visit : KeyVisit} (stored : get visit.key ≠ none) :
    ((visitedNodes o get visit).map Prod.fst).Nodup := by
  rw [visitedNodes]
  by_cases short : (splitKey visit.key).length < o.keyLevelNodes
  · rw [if_pos short]
    exact List.nodup_singleton _
  · obtain ⟨_, tree, held, wellFormed⟩ := store.treeAt_splitKey stored short
    rw [if_neg short, held, Option.map_some, Option.getD_some, List.map_map]
    exact listing_nodup .fifo (splitKey visit.key) tree wellFormed

theorem stored_of_serializedAt {t : ℚ} {path : List String}
    (present : serializedAt o get t path ≠ none) : get (joinKeys (path.take o.keyLevelNodes)) ≠ none := by
  intro absent
  apply present
  rw [serializedAt]
  by_cases short : path.length < o.keyLevelNodes
  · rw [List.take_of_length_le (Nat.le_of_lt short)] at absent
    rw [if_pos short, absent]
    rfl
  · rw [if_neg short, treeAt, absent]
    rfl

theorem visitedNodes_complete (store : PlainStore o get) {visit : KeyVisit} {path : List String}
    (key : splitKey visit.key = path.take o.keyLevelNodes)
    (present : serializedAt o get visit.now path ≠ none) :
    path ∈ (visitedNodes o get visit).map Prod.fst := by
  have stored : get visit.key ≠ none := by
    rw [← joinKeys_splitKey visit.key, key]
    exact stored_of_serializedAt present
  rw [visitedNodes]
  by_cases short : (splitKey visit.key).length < o.keyLevelNodes
  · have whole : splitKey visit.key = path := by
      have length := congrArg List.length key
      rw [List.length_take] at length
      rw [key]
      exact List.take_of_length_le (by omega)
    rw [if_pos short, whole]
    exact List.mem_singleton_self _
  · obtain ⟨level, tree, held, wellFormed⟩ := store.treeAt_splitKey stored short
    rw [if_neg short, held, Option.map_some, Option.getD_some, List.map_map]
    have split : splitKey visit.key ++ path.drop o.keyLevelNodes = path := by
      rw [key, List.take_append_drop]
    rw [← split, serializedAt_append level held, Tree.valueAt] at present
    cases found : tree.sub (path.drop o.keyLevelNodes) with
    | none =>
        rw [found] at present
        exact absurd rfl present
    | some node =>
        refine List.mem_map.mpr ⟨(path, node), ?_, rfl⟩
        exact (mem_listing .fifo (splitKey visit.key) tree wellFormed path node).mpr
          ⟨path.drop o.keyLevelNodes, split.symm, found⟩

theorem visits_listsPaths (store : PlainStore o get) {now : ℚ}
    {visits : List KeyVisit} (enumerates : EnumeratesKeys get (visits.map KeyVisit.key))
    (steady : ∀ visit ∈ visits, SameValues o get visit.now now) :
    ListsPaths o get now (visits.flatMap (visitedNodes o get)) := by
  obtain ⟨distinct, keys⟩ := enumerates
  have stored : ∀ visit ∈ visits, get visit.key ≠ none := fun visit listed =>
    (keys visit.key).mp (List.mem_map_of_mem listed)
  refine ⟨?_, ?_, ?_, ?_⟩
  · rw [List.map_flatMap, List.nodup_flatMap]
    refine ⟨fun visit listed => visitedNodes_nodup store (stored visit listed), ?_⟩
    have apart : visits.Pairwise fun a b => a.key ≠ b.key := List.pairwise_map.mp distinct
    refine apart.imp_of_mem fun {a b} inVisits inVisits' different => ?_
    intro path inFirst inSecond
    obtain ⟨⟨_, _⟩, listed, rfl⟩ := List.mem_map.mp inFirst
    obtain ⟨⟨_, _⟩, listed', same⟩ := List.mem_map.mp inSecond
    obtain ⟨_, first, _⟩ := mem_visitedNodes store (stored a inVisits) listed
    obtain ⟨_, second, _⟩ := mem_visitedNodes store (stored b inVisits') listed'
    simp only at same
    rw [same, first] at second
    apply different
    rw [← joinKeys_splitKey a.key, second, joinKeys_splitKey]
  · intro node listed
    obtain ⟨visit, inVisits, member⟩ := List.mem_flatMap.mp listed
    exact (mem_visitedNodes store (stored visit inVisits) member).1
  · intro node listed
    obtain ⟨visit, inVisits, member⟩ := List.mem_flatMap.mp listed
    rw [(mem_visitedNodes store (stored visit inVisits) member).2.2]
    exact steady visit inVisits node.1
  · intro path nonempty proper present
    have key := stored_of_serializedAt present
    obtain ⟨visit, inVisits, same⟩ := List.mem_map.mp ((keys _).mpr key)
    have keysNonempty : path.take o.keyLevelNodes ≠ [] := by
      intro none
      rw [none] at key
      exact store.parts _ key "" (by decide) rfl
    have split : splitKey visit.key = path.take o.keyLevelNodes := by
      rw [same]
      exact splitKey_joinKeys _ keysNonempty fun part member => (proper part member).2
    rw [← steady visit inVisits path] at present
    rw [List.map_flatMap]
    exact List.mem_flatMap.mpr ⟨visit, inVisits, visitedNodes_complete store split present⟩

end

/-! ## The rebuilt registry -/

section
variable (o : Options T R) (get : String → Option R) (getChildren : Option String → List String)

/-- `getChildren` enumerates the set of children that was kept for a parent. -/
def EnumeratesChildren (registry : List ChildPair) : Prop :=
  ∀ parent, (getChildren parent).Nodup ∧ ∀ child, child ∈ getChildren parent ↔ (parent, child) ∈ registry

/-- What is found for a name that is listed below `base`, `n` levels above the tree level. -/
def belowNode (n : Nat) (base : List String) (key : String) : Option (Tree R) :=
  if n = 0 then (get (joinKeys (base ++ [key]))).bind (deserializeTree o)
  else some (materialised o get getChildren n (chainOf (base ++ [key])) (get (joinKeys (base ++ [key]))))

theorem chainOf_map_buildKey (base : List String) : (chainOf base).map buildKey = parentKey base := by
  cases base with
  | nil => rfl
  | cons key rest =>
      rw [chainOf_eq_some _ (List.cons_ne_nil key rest), Option.map_some,
        buildKey_nodeRefOf _ (List.cons_ne_nil key rest)]
      rfl

theorem materialised_chainOf (n : Nat) (base : List String) (value : Option R) :
    materialised o get getChildren (n + 1) (chainOf base) value =
      .mk value none (some ((getChildren (parentKey base)).filterMap fun key =>
        (belowNode o get getChildren n base key).map fun tree => (key, some tree))) := by
  rw [materialised, chainOf_map_buildKey]
  congr 2
  apply List.filterMap_congr
  intro key _
  have level : ((chainOf base).map ChainedObject.level).getD 0 = base.length := chainOf_level base
  have joined : buildKey (nodeRefOf (base ++ [key])) = joinKeys (base ++ [key]) :=
    buildKey_nodeRefOf _ (by simp)
  simp only [level]
  rw [← nodeRefOf_append_singleton, joined, belowNode]
  by_cases last : n = 0
  · rw [if_pos last, if_pos last]
  · rw [if_neg last, if_neg last, ← chainOf_eq_some _ (by simp)]
    rfl

theorem lookup_filterMap_named (g : String → Option (Tree R)) (key : String) : ∀ names : List String,
    ((names.filterMap fun name => (g name).map fun tree => (name, some tree)).lookup key).join =
      if key ∈ names then g key else none := by
  intro names
  induction names with
  | nil => rfl
  | cons name names ih =>
      rw [List.filterMap_cons]
      by_cases same : key = name
      · subst same
        rw [if_pos List.mem_cons_self]
        cases found : g key with
        | none =>
            simp only [Option.map_none]
            rw [ih, found, ite_self]
        | some tree =>
            simp only [Option.map_some, List.lookup_cons_self]
            rfl
      · have later : (key ∈ name :: names) ↔ key ∈ names := by
          rw [List.mem_cons, or_iff_right same]
        simp only [later]
        rw [← ih]
        cases g name with
        | none => rfl
        | some tree =>
            have other : (key == name) = false := beq_eq_false_iff_ne.mpr same
            simp only [Option.map_some, List.lookup_cons, other]

theorem filterMap_named_sublist (g : String → Option (Tree R)) : ∀ names : List String,
    ((names.filterMap fun name => (g name).map fun tree => (name, some tree)).map Prod.fst).Sublist
      names := by
  intro names
  induction names with
  | nil => exact List.Sublist.slnil
  | cons name names ih =>
      rw [List.filterMap_cons]
      cases g name with
      | none => exact ih.cons name
      | some tree => exact ih.cons_cons name

theorem child_materialised (n : Nat) (base : List String) (value : Option R) (key : String) :
    (materialised o get getChildren (n + 1) (chainOf base) value).child key =
      if key ∈ getChildren (parentKey base) then belowNode o get getChildren n base key else none := by
  rw [materialised_chainOf, Tree.child]
  exact lookup_filterMap_named (belowNode o get getChildren n base) key (getChildren (parentKey base))

variable {getChildren} in
theorem wellFormed_materialised (distinct : ∀ parent, (getChildren parent).Nodup) :
    ∀ (n : Nat) (base : List String) (value : Option R),
      (materialised o get getChildren n (chainOf base) value).wellFormed = true := by
  intro n
  induction n with
  | zero => exact fun _ _ => rfl
  | succ n ih =>
      intro base value
      rw [materialised_chainOf, Tree.wellFormed_iff]
      intro entries same
      obtain rfl := Option.some.inj same
      constructor
      · exact (distinct _).sublist (filterMap_named_sublist (belowNode o get getChildren n base) _)
      · intro key child listed
        obtain ⟨key', _, made⟩ := List.mem_filterMap.mp listed
        obtain ⟨tree, found, pair⟩ := Option.map_eq_some_iff.mp made
        obtain ⟨rfl, sameTree⟩ := Prod.mk.inj pair
        obtain rfl := Option.some.inj sameTree
        rw [belowNode] at found
        split at found
        · obtain ⟨serialized, _, decoded⟩ := Option.bind_eq_some_iff.mp found
          rw [deserializeTree] at decoded
          split at decoded
          · rename_i decodedTree deserialized
            obtain rfl := Option.some.inj decoded
            exact o.treeSerializer.deserialize_wellFormed _ _ deserialized
          · cases decoded
        · obtain rfl := Option.some.inj found
          exact ih (base ++ [key']) _

theorem materialised_current (n : Nat) (nodeRef : Option ChainedObject) (value : Option R) (t : ℚ) :
    getTreeCurrentSerializedValue (materialised o get getChildren n nodeRef value) t = value := by
  cases n <;> rfl

end

/-! ## The nodes of the rebuilt tree -/

section
variable [SerializedForm R] {o : Options T R} {get : String → Option R}
  {getChildren : Option String → List String}

theorem treeAt_concat (store : PlainStore o get) {base : List String} {key : String}
    (level : base.length + 1 = o.keyLevelNodes) :
    treeAt o get (base ++ [key]) = (get (joinKeys (base ++ [key]))).bind (deserializeTree o) := by
  have whole : (base ++ [key]).take o.keyLevelNodes = base ++ [key] := by
    apply List.take_of_length_le
    rw [List.length_append, List.length_singleton, level]
  rw [treeAt, whole, store.truthy?_get]

theorem materialised_sound (store : PlainStore o get) (t : ℚ) : ∀ (n : Nat) (base : List String)
    (value : Option R) (q : List String) (node : Tree R), base.length + n = o.keyLevelNodes → q ≠ [] →
      (materialised o get getChildren n (chainOf base) value).sub q = some node →
        getTreeCurrentSerializedValue node t = serializedAt o get t (base ++ q) := by
  intro n
  induction n with
  | zero =>
      intro base value q node _ nonempty found
      cases q with
      | nil => exact absurd rfl nonempty
      | cons key q => cases found
  | succ n ih =>
      intro base value q node level nonempty found
      cases q with
      | nil => exact absurd rfl nonempty
      | cons key q =>
          rw [Tree.sub_cons, child_materialised] at found
          obtain ⟨next, below, found⟩ := Option.bind_eq_some_iff.mp found
          split at below
          · have split : base ++ key :: q = (base ++ [key]) ++ q := by
              rw [List.append_assoc, List.singleton_append]
            have length : (base ++ [key]).length = base.length + 1 := by
              rw [List.length_append, List.length_singleton]
            rw [belowNode] at below
            by_cases last : n = 0
            · rw [if_pos last, ← treeAt_concat store (by omega)] at below
              rw [split, serializedAt_append (by omega) below, Tree.valueAt, found]
              rfl
            · rw [if_neg last] at below
              obtain rfl := Option.some.inj below
              cases q with
              | nil =>
                  obtain rfl := Option.some.inj found
                  rw [materialised_current, serializedAt, if_pos (by omega), store.truthy?_get]
              | cons key' q =>
                  rw [split]
                  exact ih (base ++ [key]) _ (key' :: q) node (by omega) (List.cons_ne_nil _ _) found
          · cases below

/-- Every key is listed under each of its beginnings. -/
def ListsKeys (get : String → Option R) (getChildren : Option String → List String) : Prop :=
  ∀ key, get key ≠ none → ∀ front next rest, splitKey key = front ++ next :: rest →
    next ∈ getChildren (parentKey front)

theorem materialised_complete (store : PlainStore o get) (listed : ListsKeys get getChildren) (t : ℚ) :
    ∀ (n : Nat) (base : List String) (value : Option R) (q : List String),
      base.length + n = o.keyLevelNodes → 0 < n → q ≠ [] →
      (∀ key ∈ (base ++ q).take o.keyLevelNodes, ProperKey key) →
      serializedAt o get t (base ++ q) ≠ none →
        ∃ node, (materialised o get getChildren n (chainOf base) value).sub q = some node := by
  intro n
  induction n with
  | zero => exact fun _ _ _ _ positive => absurd positive (Nat.lt_irrefl 0)
  | succ n ih =>
      intro base value q level _ nonempty proper present
      cases q with
      | nil => exact absurd rfl nonempty
      | cons key q =>
          have split : base ++ key :: q = (base ++ [key]) ++ q := by
            rw [List.append_assoc, List.singleton_append]
          have length : (base ++ [key]).length = base.length + 1 := by
            rw [List.length_append, List.length_singleton]
          have front : (base ++ key :: q).take o.keyLevelNodes = base ++ key :: q.take n := by
            rw [← level, List.take_length_add_append, List.take_succ_cons]
          have parts : splitKey (joinKeys ((base ++ key :: q).take o.keyLevelNodes)) =
              base ++ key :: q.take n := by
            rw [front]
            exact splitKey_joinKeys _ (by simp) fun part member => (proper part (front ▸ member)).2
          have name := listed _ (stored_of_serializedAt present) base key _ parts
          rw [Tree.sub_cons, child_materialised, if_pos name, belowNode]
          rw [split] at proper present
          by_cases last : n = 0
          · rw [if_pos last, ← treeAt_concat store (by omega)]
            cases held : treeAt o get (base ++ [key]) with
            | none =>
                refine absurd ?_ present
                have here : (base ++ [key] ++ q).take o.keyLevelNodes = base ++ [key] := by
                  rw [← level, last, ← length, List.take_left]
                rw [treeAt, List.take_of_length_le (by omega)] at held
                rw [serializedAt, if_neg (by rw [List.length_append]; omega), treeAt, here, held]
                rfl
            | some tree =>
                rw [serializedAt_append (by omega) held, Tree.valueAt] at present
                rw [Option.bind_some]
                cases found : tree.sub q with
                | none =>
                    rw [found] at present
                    exact absurd rfl present
                | some node => exact ⟨node, rfl⟩
          · rw [if_neg last, Option.bind_some]
            cases q with
            | nil => exact ⟨_, rfl⟩
            | cons key' q =>
                exact ih (base ++ [key]) _ (key' :: q) (by omega) (by omega) (List.cons_ne_nil _ _) proper
                  present

/-! ## The traversals -/

omit [SerializedForm R] in
theorem refFrom_none (path : List String) : refFrom none path = chainOf path := by
  have folded : ∀ (path : List String) (root : Option ChainedObject), refFrom root path =
      path.foldl (fun parent key =>
        some (ChainedObject.ofParent key ((parent.map ChainedObject.level).getD 0 + 1) parent)) root := by
    intro path
    induction path with
    | nil => exact fun _ => rfl
    | cons key rest ih => exact fun root => ih _
  exact folded path none

/-- The nodes of the tree in one piece, without its root. -/
def pieceNodes (t : ℚ) (nodes : List (List String × Tree R)) : List (List String × Option R) :=
  (nodes.filter fun node => decide (node.1 ≠ [])).map fun node =>
    (node.1, getTreeCurrentSerializedValue node.2 t)

omit [SerializedForm R] in
theorem filterMap_itemFrom (t : ℚ) : ∀ nodes : List (List String × Tree R),
    ((nodes.filterMap (itemFrom t none)).map TraversalItem.shown).map (fun shown : ChainedObject × Option R =>
      mountStep shown.1 (shown.2.bind (deserializeValue o))) = (pieceNodes t nodes).map (listedStep o) := by
  intro nodes
  induction nodes with
  | nil => rfl
  | cons node nodes ih =>
      obtain ⟨path, tree⟩ := node
      by_cases root : path = []
      · subst root
        exact ih
      · have kept : decide (path ≠ []) = true := decide_eq_true root
        rw [List.filterMap_cons, itemFrom, refFrom_none, chainOf_eq_some path root]
        simp only [Option.map_some]
        rw [List.map_cons, List.map_cons, ih, pieceNodes, pieceNodes,
          List.filter_cons_of_pos (by exact kept), List.map_cons, List.map_cons]
        rfl

theorem pieces_listsPaths (store : PlainStore o get) (positive : 1 ≤ o.keyLevelNodes)
    (names : ListsKeys get getChildren) {t now : ℚ} (steady : SameValues o get t now)
    {nodes : List (List String × Tree R)}
    (enumerates : Enumerates (storageTree o get getChildren []) nodes) :
    ListsPaths o get now (pieceNodes t nodes) := by
  have listed : ∀ {node : List String × Option R}, node ∈ pieceNodes t nodes →
      ∃ path tree, (path, tree) ∈ nodes ∧ path ≠ [] ∧
        node = (path, getTreeCurrentSerializedValue tree t) := by
    intro node member
    obtain ⟨⟨path, tree⟩, kept, rfl⟩ := List.mem_map.mp member
    obtain ⟨inNodes, inner⟩ := List.mem_filter.mp kept
    exact ⟨path, tree, inNodes, of_decide_eq_true inner, rfl⟩
  refine ⟨?_, ?_, ?_, ?_⟩
  · rw [pieceNodes, List.map_map]
    exact enumerates.distinct.sublist (List.filter_sublist.map Prod.fst)
  · intro node member
    obtain ⟨path, tree, _, inner, rfl⟩ := listed member
    exact inner
  · intro node member
    obtain ⟨path, tree, inNodes, inner, rfl⟩ := listed member
    rw [← steady path]
    exact materialised_sound store t o.keyLevelNodes [] none path tree (Nat.zero_add _) inner
      ((enumerates.complete path tree).mp inNodes)
  · intro path nonempty proper present
    rw [← steady path] at present
    obtain ⟨tree, found⟩ := materialised_complete store names t o.keyLevelNodes [] none path
      (Nat.zero_add _) positive nonempty proper present
    refine List.mem_map.mpr ⟨(path, getTreeCurrentSerializedValue tree t), ?_, rfl⟩
    refine List.mem_map.mpr ⟨(path, tree), ?_, rfl⟩
    exact List.mem_filter.mpr ⟨(enumerates.complete path tree).mpr found, decide_eq_true nonempty⟩

/-- A traversal over a registry that lists the stored keys shows the stored nodes. -/
theorem traversal_listsStored (store : PlainStore o get) (positive : 1 ≤ o.keyLevelNodes)
    (names : ListsKeys get getChildren) (distinct : ∀ parent, (getChildren parent).Nodup)
    {t now : ℚ} (steady : SameValues o get t now) (search : Search) (rounds : Nat) (lookupTime : ℚ)
    (enough : (storageTree o get getChildren []).size ≤ rounds) :
    (getTraversalStepsIterable o ⟨get, some getChildren⟩ rounds lookupTime t search none).error = none ∧
      ListsStored o get now
        (getTraversalStepsIterable o ⟨get, some getChildren⟩ rounds lookupTime t search none).items := by
  rw [← materialise_baseRef] at enough
  obtain ⟨quiet, shown⟩ := Search.async_eq getChildren (store.treesDecode positive) rounds t _
    (baseRef_ready o get [] positive) (chainOf []) enough search
  rw [materialise_baseRef] at shown
  have wellFormed : (storageTree o get getChildren []).wellFormed = true :=
    wellFormed_materialised o get distinct o.keyLevelNodes [] none
  obtain ⟨nodes, visited, enumerates⟩ := search.sync_enumerates t _ wellFormed none
  refine ⟨quiet, ?_⟩
  have steps : (getTraversalStepsIterable o ⟨get, some getChildren⟩ rounds lookupTime t search none).items =
      (pieceNodes t nodes).map (listedStep o) := by
    rw [← filterMap_itemFrom, ← visited]
    change List.map (AnyTraversalItem.step o) (search.async o ⟨get, some getChildren⟩ rounds t
      (.async (baseRef get [])) (chainOf [])).items = _
    rw [← show chainOf [] = (none : Option ChainedObject) from rfl, ← shown, List.map_map]
    rfl
  rw [steps]
  exact (pieces_listsPaths store positive names steady enumerates).stored store positive

end

/-! ## The three ways agree -/

section
variable [SerializedForm R] {o : Options T R}

omit [SerializedForm R] in
theorem listsKeys_reprocessed (edit : List ChildPair → Option T) (partition : Nat) {keys : List String}
    {w : World R} (enumerated : EnumeratesKeys w.read keys) {getChildren : Option String → List String}
    (kept : EnumeratesChildren getChildren (reprocessedWorld edit partition keys w).registry) :
    ListsKeys w.read getChildren := by
  intro key stored front next rest split
  refine ((kept (parentKey front)).2 next).mpr ((mem_reprocessed edit).mpr ?_)
  exact ⟨key, (enumerated.2 key).mpr stored, front, rest, split, rfl⟩

/-- The iteration over the keys and, once the children have been reprocessed, every traversal show
each stored node once with its value. -/
theorem enumerations_list_stored (positive : 1 ≤ o.keyLevelNodes) (w : World R)
    (store : PlainStore o w.read) (now : ℚ) :
    (∀ visits : List KeyVisit, EnumeratesKeys w.read (visits.map KeyVisit.key) →
      (∀ visit ∈ visits, SameValues o w.read visit.now now) →
        (randomIterate o w.read visits).error = none ∧
          ListsStored o w.read now (randomIterate o w.read visits).items) ∧
    ∀ (edit : List ChildPair → Option T) (partition : Nat) (keys : List String),
      EnumeratesKeys w.read keys → ∀ getChildren : Option String → List String,
      EnumeratesChildren getChildren (reprocessedWorld edit partition keys w).registry →
      ∀ (search : Search) (lookupTime t : ℚ), SameValues o w.read t now →
        ∃ enough, ∀ rounds, enough ≤ rounds →
          (getTraversalStepsIterable o
            ⟨(reprocessedWorld edit partition keys w).read, some getChildren⟩ rounds lookupTime t search
            none).error = none ∧
          ListsStored o w.read now (getTraversalStepsIterable o
            ⟨(reprocessedWorld edit partition keys w).read, some getChildren⟩ rounds lookupTime t search
            none).items := by
  constructor
  · intro visits enumerated steady
    have stored : ∀ visit ∈ visits, w.read visit.key ≠ none := fun visit listed =>
      (enumerated.2 visit.key).mp (List.mem_map_of_mem listed)
    rw [randomIterate_eq store positive stored]
    exact ⟨rfl, (visits_listsPaths store enumerated steady).stored store positive⟩
  · intro edit partition keys enumerated getChildren kept search lookupTime t steady
    have same : (reprocessedWorld edit partition keys w).read = w.read := by
      rw [reprocessedWorld_eq]
      rfl
    rw [same]
    refine ⟨(storageTree o w.read getChildren []).size, fun rounds enough => ?_⟩
    exact traversal_listsStored store positive (listsKeys_reprocessed edit partition enumerated kept)
      (fun parent => (kept parent).1) steady search rounds lookupTime enough

end

/-- A value under `"a"` and a tree under `"a:b"`. -/
def twoContents (key : String) : Option String := if key = "a" then some "1" else oneNode "2" key

def twoEntries : World String := ⟨fun key => (twoContents key).map fun content => ⟨content, none⟩, 0, []⟩

/-- The children of the two keys. -/
def theirChildren : Option String → List String
  | none => ["a"]
  | some key => if key = "a" then ["b"] else []

theorem twoEntries_read (key : String) : twoEntries.read key = twoContents key := by
  unfold World.read World.readAt twoEntries
  dsimp only
  cases twoContents key with
  | none => rfl
  | some content => exact if_pos trivial

theorem twoEntries_cases {key r : String} (stored : twoEntries.read key = some r) :
    (key = "a" ∧ r = "1") ∨ (key = "a:b" ∧ r = Text.encodeTree (.mk (some "2") none none)) := by
  rw [twoEntries_read, twoContents] at stored
  split at stored
  · rename_i first
    exact Or.inl ⟨first, (Option.some.inj stored).symm⟩
  · unfold oneNode at stored
    split at stored
    · rename_i second
      exact Or.inr ⟨second, (Option.some.inj stored).symm⟩
    · cases stored

theorem plainStore_twoEntries : PlainStore (Text.plainOptions 2) twoEntries.read := by
  have stored : ∀ key, twoEntries.read key ≠ none → key = "a" ∨ key = "a:b" := by
    intro key present
    obtain ⟨r, content⟩ := Option.ne_none_iff_exists'.mp present
    exact (twoEntries_cases content).imp And.left And.left
  have decoded : (Text.plainOptions 2).treeSerializer.deserialize
      (Text.encodeTree (.mk (some "2") none none)) = .ok (.mk (some "2") none none) :=
    Text.decodeTree_encodeTree (.mk (some "2") none none) rfl
  refine ⟨?_, ?_, ?_, ?_, ?_⟩
  · intro key present
    rcases stored key present with rfl | rfl <;> decide +kernel
  · intro key present
    rcases stored key present with rfl | rfl <;> decide +kernel
  · intro key r content level
    rcases twoEntries_cases content with ⟨rfl, _⟩ | ⟨rfl, rfl⟩
    · exact absurd level (by decide +kernel)
    · exact ⟨_, decoded⟩
  · intro key r content
    rcases twoEntries_cases content with ⟨_, rfl⟩ | ⟨_, rfl⟩ <;> decide +kernel
  · intro key r tree content level decodes q node v found value
    rcases twoEntries_cases content with ⟨rfl, _⟩ | ⟨_, rfl⟩
    · exact absurd level (by decide +kernel)
    · rw [decoded] at decodes
      obtain rfl := Except.ok.inj decodes
      cases q with
      | nil =>
          obtain rfl := Option.some.inj found
          obtain rfl := Option.some.inj value
          decide +kernel
      | cons key rest => cases found

theorem enumeratesKeys_twoEntries : EnumeratesKeys twoEntries.read ["a", "a:b"] := by
  refine ⟨by decide, fun key => ?_⟩
  constructor
  · intro listed
    rcases List.mem_pair.mp listed with rfl | rfl <;> decide +kernel
  · intro present
    obtain ⟨r, content⟩ := Option.ne_none_iff_exists'.mp present
    exact List.mem_pair.mpr ((twoEntries_cases content).imp And.left And.left)

theorem enumeratesChildren_twoEntries :
    EnumeratesChildren theirChildren
      (reprocessedWorld (fun _ => (none : Option String)) 1 ["a", "a:b"] twoEntries).registry := by
  intro parent
  have registered : (reprocessedWorld (fun _ => (none : Option String)) 1 ["a", "a:b"] twoEntries).registry =
      [(none, "a"), (none, "a"), (some "a", "b")] := by decide +kernel
  rw [registered]
  cases parent with
  | none => exact ⟨by decide, fun child => by simp [theirChildren]⟩
  | some key =>
      by_cases parent : key = "a"
      · subst parent
        exact ⟨by decide, fun child => by simp [theirChildren]⟩
      · rw [theirChildren, if_neg parent]
        exact ⟨List.nodup_nil, fun child => by simp [parent]⟩

theorem enumerations_list_stored_twoEntries :
    ListsStored (Text.plainOptions 2) twoEntries.read 0
        (randomIterate (Text.plainOptions 2) twoEntries.read [⟨"a", 0, 0⟩, ⟨"a:b", 0, 0⟩]).items ∧
      ∃ enough, ∀ rounds, enough ≤ rounds → ListsStored (Text.plainOptions 2) twoEntries.read 0
        (getTraversalStepsIterable (Text.plainOptions 2)
          ⟨(reprocessedWorld (fun _ => (none : Option String)) 1 ["a", "a:b"] twoEntries).read,
            some theirChildren⟩ rounds 0 0
          .preOrderBreadthFirst none).items := by
  obtain ⟨iteration, traversals⟩ := enumerations_list_stored (o := Text.plainOptions 2) (by decide)
    twoEntries plainStore_twoEntries 0
  constructor
  · have still : ∀ visit ∈ [KeyVisit.mk "a" 0 0, ⟨"a:b", 0, 0⟩], visit.now = 0 := by decide +kernel
    exact (iteration [⟨"a", 0, 0⟩, ⟨"a:b", 0, 0⟩] enumeratesKeys_twoEntries fun visit listed path =>
      still visit listed ▸ rfl).2
  · obtain ⟨enough, lists⟩ := traversals (fun _ => none) 1 ["a", "a:b"] enumeratesKeys_twoEntries
      theirChildren enumeratesChildren_twoEntries .preOrderBreadthFirst 0 0 fun _ => rfl
    exact ⟨enough, fun rounds more => (lists rounds more).2⟩

end TreeKeyCache
