import TreeKeyCache.UndecodableVersions
import TreeKeyCache.ReferenceOrders

/-! # Several versions as one tree

A `MultiTreeRef` has the nodes that any of its versions has, each with the values of all
versions at that node, in the order of the versions. -/
set_option autoImplicit false
namespace TreeKeyCache

variable {R : Type}

/-! ## One level -/

def nonempty? {A : Type} (list : List A) : Option (List A) := if list = [] then none else some list

def versionsUnder (key : String) (children : List (String × Tree R)) : List (Tree R) :=
  children.filterMap fun child => if child.1 = key then some child.2 else none

theorem lookup_group (key : String) : ∀ (children : List (String × Tree R))
    (groups : List (String × List (Tree R))),
      (children.foldl (fun groups (key, tree) =>
        Entries.put key ((groups.lookup key).getD [] ++ [tree]) groups) groups).lookup key =
      if versionsUnder key children = [] then groups.lookup key
      else some ((groups.lookup key).getD [] ++ versionsUnder key children) := by
  intro children
  induction children with
  | nil => exact fun groups => rfl
  | cons child children ih =>
      intro groups
      obtain ⟨key', tree⟩ := child
      rw [List.foldl_cons, ih]
      by_cases same : key' = key
      · subst same
        have first : versionsUnder key' ((key', tree) :: children) =
            tree :: versionsUnder key' children := by
          rw [versionsUnder, List.filterMap_cons, if_pos rfl]
          rfl
        rw [first, if_neg (List.cons_ne_nil _ _), Entries.lookup_put_self, Option.getD_some]
        by_cases none : versionsUnder key' children = []
        · rw [if_pos none, none]
        · rw [if_neg none, List.append_assoc, List.singleton_append]
      · have other : versionsUnder key ((key', tree) :: children) = versionsUnder key children := by
          rw [versionsUnder, List.filterMap_cons, if_neg same]
          rfl
        rw [other, Entries.lookup_put_ne key' key _ (Ne.symm same)]

theorem lookup_distinctKeys (key : String) (children : List (String × Tree R)) :
    (distinctKeys children).lookup key = nonempty? (versionsUnder key children) := by
  rw [distinctKeys, lookup_group, nonempty?]
  by_cases none : versionsUnder key children = []
  · rw [if_pos none, if_pos none]
    rfl
  · rw [if_neg none, if_neg none]
    rfl

theorem versionsUnder_kids (key : String) (tree : Tree R) (wellFormed : tree.wellFormed = true) :
    versionsUnder key tree.kids = (tree.child key).toList := by
  have listed : ∀ entries : TreeChildren R, Entries.Unique entries →
      versionsUnder key (entries.filterMap fun entry => entry.2.map fun child => (entry.1, child)) =
        (entries.lookup key).join.toList := by
    intro entries
    induction entries with
    | nil => exact fun _ => rfl
    | cons entry entries ih =>
        intro unique
        obtain ⟨key', child⟩ := entry
        rw [Entries.Unique, List.map_cons, List.nodup_cons] at unique
        have later := ih unique.2
        by_cases same : key' = key
        · subst same
          rw [Entries.lookup_of_not_mem key' entries unique.1] at later
          rw [List.lookup_cons_self]
          cases child with
          | none => exact later
          | some child =>
              rw [List.filterMap_cons]
              simp only [Option.map_some]
              rw [versionsUnder, List.filterMap_cons, if_pos rfl]
              exact congrArg (child :: ·) later
        · rw [List.lookup_cons, beq_eq_false_iff_ne.mpr (Ne.symm same), List.filterMap_cons]
          cases child with
          | none => exact later
          | some child =>
              simp only [Option.map_some]
              rw [versionsUnder, List.filterMap_cons, if_neg same]
              exact later
  rw [Tree.child_eq_lookup]
  apply listed
  cases children : tree.children with
  | none => exact List.nodup_nil
  | some entries => exact ((Tree.wellFormed_iff tree).mp wellFormed entries children).1

theorem versionsUnder_versionChildren (key : String) : ∀ trees : List (Tree R),
    (∀ tree ∈ trees, tree.wellFormed = true) →
      versionsUnder key (versionChildren trees) = trees.filterMap fun tree => tree.child key := by
  intro trees
  induction trees with
  | nil => exact fun _ => rfl
  | cons tree trees ih =>
      intro wellFormed
      have later := ih fun other member => wellFormed other (List.mem_cons_of_mem _ member)
      have here := versionsUnder_kids key tree (wellFormed tree List.mem_cons_self)
      rw [versionChildren, List.flatMap_cons, versionsUnder, List.filterMap_append]
      change versionsUnder key tree.kids ++ versionsUnder key (versionChildren trees) = _
      rw [here, later, List.filterMap_cons]
      cases tree.child key <;> rfl

theorem lookup_map_snd {A B : Type} (f : A → B) (key : String) : ∀ entries : List (String × A),
    (entries.map fun entry => (entry.1, f entry.2)).lookup key = (entries.lookup key).map f := by
  intro entries
  induction entries with
  | nil => rfl
  | cons entry entries ih =>
      rw [List.map_cons, List.lookup_cons, List.lookup_cons]
      cases key == entry.1 with
      | true => rfl
      | false => exact ih

variable [SerializedForm R] (now : ℚ)

theorem multiTreeRefTo_child_eq (n : Nat) (trees : List (Tree R)) (key : String)
    (wellFormed : ∀ tree ∈ trees, tree.wellFormed = true) :
    (multiTreeRefTo now (n + 1) trees).child key =
      (nonempty? (trees.filterMap fun tree => tree.child key)).map (multiTreeRefTo now n) := by
  rw [Tree.child_eq_lookup, multiTreeRefTo, Tree.children_mk, Option.getD_some,
    lookup_map_snd (fun versions => some (multiTreeRefTo now n versions)), lookup_distinctKeys,
    versionsUnder_versionChildren key trees wellFormed]
  cases nonempty? (trees.filterMap fun tree => tree.child key) <;> rfl

/-! ## Any number of levels -/

omit [SerializedForm R] in
theorem child_of_height_zero {tree : Tree R} (wellFormed : tree.wellFormed = true)
    (flat : tree.height ≤ 0) (key : String) : tree.child key = none := by
  cases found : tree.child key with
  | none => rfl
  | some child =>
      have lower := Tree.height_kid ((mem_kids_iff wellFormed).mpr found)
      omega

/-- The subtrees of the versions at a path. -/
def versionsAt (trees : List (Tree R)) (q : List String) : List (Tree R) :=
  trees.filterMap fun tree => tree.sub q

omit [SerializedForm R] in
theorem versionsAt_cons (trees : List (Tree R)) (key : String) (q : List String) :
    versionsAt trees (key :: q) = versionsAt (trees.filterMap fun tree => tree.child key) q := by
  rw [versionsAt, versionsAt, List.filterMap_filterMap]
  rfl

/-- The node of the versions at a path has the subtrees there as its versions. -/
theorem multiTreeRefTo_sub_eq : ∀ (q : List String) (n : Nat) (trees : List (Tree R)),
    trees ≠ [] → (∀ tree ∈ trees, tree.wellFormed = true) → (∀ tree ∈ trees, tree.height ≤ n) →
      (multiTreeRefTo now n trees).sub q =
        (nonempty? (versionsAt trees q)).map (multiTreeRefTo now (n - q.length)) := by
  intro q
  induction q with
  | nil =>
      intro n trees some _ _
      have all : versionsAt trees [] = trees := List.filterMap_some
      rw [all, nonempty?, if_neg some]
      rfl
  | cons key q ih =>
      intro n trees _ wellFormed shallow
      rw [Tree.sub_cons, versionsAt_cons]
      cases n with
      | zero =>
          have none : (trees.filterMap fun tree => tree.child key) = [] := by
            rw [List.filterMap_eq_nil_iff]
            intro tree member
            exact child_of_height_zero (wellFormed tree member) (shallow tree member) key
          rw [none]
          rfl
      | succ n =>
          rw [multiTreeRefTo_child_eq now n trees key wellFormed]
          by_cases none : (trees.filterMap fun tree => tree.child key) = []
          · rw [none]
            rfl
          · rw [nonempty?, if_neg none, Option.map_some, Option.bind_some, List.length_cons,
              Nat.add_sub_add_right]
            apply ih n _ none
            · intro child listed
              obtain ⟨tree, member, found⟩ := List.mem_filterMap.mp listed
              exact Tree.wellFormed_child tree child key (wellFormed tree member) found
            · intro child listed
              obtain ⟨tree, member, found⟩ := List.mem_filterMap.mp listed
              have lower := Tree.height_kid ((mem_kids_iff (wellFormed tree member)).mpr found)
              have bound := shallow tree member
              omega

theorem multiTreeRef_sub (trees : List (Tree R)) (wellFormed : ∀ tree ∈ trees, tree.wellFormed = true)
    (q : List String) (inner : q ≠ []) :
    ∃ n, (multiTreeRef trees now).sub q =
      (nonempty? (versionsAt trees q)).map (multiTreeRefTo now n) := by
  by_cases some : trees = []
  · obtain ⟨key, q, rfl⟩ := List.exists_cons_of_ne_nil inner
    exact ⟨0, by rw [some]; rfl⟩
  · refine ⟨_, multiTreeRefTo_sub_eq now q _ trees some wellFormed ?_⟩
    intro tree member
    have lower := Tree.height_lt_size tree
    have part := List.single_le_sum (fun _ _ => Nat.zero_le _) _ (List.mem_map_of_mem (f := Tree.size) member)
    omega

/-! ## Values -/

/-- The live values of the versions at a path that are not empty, in their order. -/
def valuesAt (trees : List (Tree R)) (q : List String) : List R :=
  trees.filterMap fun tree => truthy? (tree.valueAt now q)

theorem getMultiTreeValueFromTrees_versionsAt (trees : List (Tree R)) (q : List String) :
    getMultiTreeValueFromTrees (versionsAt trees q) now = valuesAt now trees q := by
  rw [getMultiTreeValueFromTrees, truthyVersions, List.filterMap_map, versionsAt,
    List.filterMap_filterMap, valuesAt]
  apply List.filterMap_congr
  intro tree _
  rw [Tree.valueAt]
  cases tree.sub q <;> rfl

theorem multiTreeRef_node (trees : List (Tree R)) (wellFormed : ∀ tree ∈ trees, tree.wellFormed = true)
    (q : List String) (t : ℚ) :
    (((multiTreeRef trees now).sub q).isSome = true ↔ q = [] ∨ ∃ tree ∈ trees, (tree.sub q).isSome = true) ∧
    ∀ node, (multiTreeRef trees now).sub q = some node →
      getTreeCurrentSerializedValue node t = some (.multi (valuesAt now trees q)) := by
  by_cases inner : q = []
  · subst inner
    refine ⟨⟨fun _ => Or.inl rfl, fun _ => rfl⟩, ?_⟩
    intro node found
    have all : versionsAt trees [] = trees := List.filterMap_some
    rw [← Option.some.inj found, multiTreeRef, multiTreeRefTo_value,
      ← getMultiTreeValueFromTrees_versionsAt, all]
  · obtain ⟨n, sub⟩ := multiTreeRef_sub now trees wellFormed q inner
    have contains : versionsAt trees q ≠ [] ↔ ∃ tree ∈ trees, (tree.sub q).isSome = true := by
      rw [versionsAt, ne_eq, List.filterMap_eq_nil_iff]
      push Not
      apply exists_congr
      intro tree
      rw [Option.ne_none_iff_isSome]
    rw [sub, or_iff_right inner, ← contains, nonempty?]
    by_cases none : versionsAt trees q = []
    · rw [if_pos none]
      exact ⟨⟨fun some => (nomatch some), fun some => absurd none some⟩, fun _ found => (nomatch found)⟩
    · rw [if_neg none]
      refine ⟨⟨fun _ => none, fun _ => rfl⟩, ?_⟩
      intro node found
      rw [← Option.some.inj found, multiTreeRefTo_value, getMultiTreeValueFromTrees_versionsAt]

/-! ## Lookup and traversal -/

/-- `n` steps of `getNextTreeNode`, from a node on `level`. -/
def walkLevels {R : Type} (path : List String) (t : ℚ) : Nat → Nat → Option ChainedObject → Tree R →
    Except Err (Option (Tree R))
  | 0, _, _, tree => pure (some tree)
  | n + 1, level, parentRef, tree => do
      match ← getNextTreeNode path level tree parentRef Tree.empty t with
      | none => pure none
      | some (item, next) => walkLevels path t n (level + 1) (some item.ref) next

omit [SerializedForm R] in
theorem Tree.next_eq_child (tree : Tree R) (key : String) (ordinary : key ∉ inheritedNames) :
    tree.next key = tree.child key := by
  rw [Tree.next, Tree.child]
  cases tree.children with
  | none => rfl
  | some entries =>
      rw [Option.bind_some, Option.bind_some, readChild_of_not_inherited entries key ordinary]
      cases (entries.lookup key).join <;> rfl

omit [SerializedForm R] in
theorem walkLevels_eq (path : List String) (t : ℚ) (ordinary : ∀ key ∈ path, key ∉ inheritedNames) :
    ∀ (n level : Nat) (parentRef : Option ChainedObject) (tree : Tree R), level + n ≤ path.length →
      walkLevels path t n level parentRef tree = .ok (tree.sub ((path.drop level).take n)) := by
  intro n
  induction n with
  | zero => exact fun _ _ _ _ => rfl
  | succ n ih =>
      intro level parentRef tree bound
      have inside : level < path.length := by omega
      have found : path[level]? = some path[level] := List.getElem?_eq_getElem inside
      rw [walkLevels, getNextTreeNode_eq path level tree parentRef t _ found,
        drop_take_succ path level n inside, Tree.sub_cons,
        Tree.next_eq_child tree _ (ordinary _ (List.getElem_mem inside))]
      cases tree.child path[level] with
      | none => rfl
      | some next => exact ih (level + 1) _ next (by omega)

theorem Search.sync_enumerates {R : Type} (t : ℚ) (tree : Tree R) (wellFormed : tree.wellFormed = true)
    (root : Option ChainedObject) (search : Search) :
    ∃ nodes, search.sync t tree root = nodes.filterMap (itemFrom t root) ∧ Enumerates tree nodes := by
  obtain ⟨preOrder, levelOrder, postOrder⟩ := enumerates_orders wellFormed
  cases search with
  | preOrderBreadthFirst =>
      refine ⟨tree.levelOrder, ?_, levelOrder⟩
      rw [Search.sync, treePreOrderBreadthFirstSearch, treePreOrderTraversal_listing,
        listing_levelOrder, map_under_nil]
  | preOrderDepthFirst =>
      refine ⟨tree.preOrder, ?_, preOrder⟩
      rw [Search.sync, treePreOrderDepthFirstSearch, treePreOrderTraversal_listing, listing_preOrder,
        map_under_nil]
  | postOrderBreadthFirst =>
      exact ⟨tree.postOrder, treePostOrderTraversal_postOrder t tree root, postOrder⟩
  | postOrderDepthFirst =>
      exact ⟨tree.postOrder, treePostOrderTraversal_postOrder t tree root, postOrder⟩

/-- Several versions are looked up and traversed as their union. -/
theorem multiTreeRef_merges (trees : List (Tree R)) (wellFormed : ∀ tree ∈ trees, tree.wellFormed = true)
    (t : ℚ) :
    (∀ (path : List String) (level n : Nat) (parentRef : Option ChainedObject),
      (∀ key ∈ path, key ∉ inheritedNames) → level + n ≤ path.length → 0 < n →
        ∃ found, walkLevels path t n level parentRef (multiTreeRef trees now) = .ok found ∧
          (found.isSome = true ↔ ∃ tree ∈ trees, (tree.sub ((path.drop level).take n)).isSome = true) ∧
          ∀ node, found = some node → getTreeCurrentSerializedValue node t =
            some (.multi (valuesAt now trees ((path.drop level).take n)))) ∧
    ∀ (search : Search) (root : Option ChainedObject),
      ∃ nodes : List (List String × Tree (SerializedValue R)),
      search.sync t (multiTreeRef trees now) root = nodes.filterMap (itemFrom t root) ∧
      (nodes.map Prod.fst).Nodup ∧
      (∀ p, p ∈ nodes.map Prod.fst ↔ p = [] ∨ ∃ tree ∈ trees, (tree.sub p).isSome = true) ∧
      ∀ p node, (p, node) ∈ nodes →
        getTreeCurrentSerializedValue node t = some (.multi (valuesAt now trees p)) := by
  constructor
  · intro path level n parentRef ordinary bound positive
    have walked := walkLevels_eq path t ordinary n level parentRef (multiTreeRef trees now) bound
    obtain ⟨present, value⟩ := multiTreeRef_node now trees wellFormed ((path.drop level).take n) t
    have inner : (path.drop level).take n ≠ [] := by
      intro none
      have length := congrArg List.length none
      rw [List.length_take, List.length_drop, List.length_nil] at length
      omega
    rw [or_iff_right inner] at present
    exact ⟨_, walked, present, value⟩
  · intro search root
    obtain ⟨nodes, items, enumerates⟩ := Search.sync_enumerates t (multiTreeRef trees now)
      (multiTreeRefTo_wellFormed now _ trees) root search
    refine ⟨nodes, items, enumerates.distinct, ?_, ?_⟩
    · intro p
      rw [← (multiTreeRef_node now trees wellFormed p t).1, Option.isSome_iff_exists, List.mem_map]
      constructor
      · rintro ⟨⟨_, node⟩, listed, rfl⟩
        exact ⟨node, (enumerates.complete _ node).mp listed⟩
      · rintro ⟨node, found⟩
        exact ⟨(p, node), (enumerates.complete p node).mpr found, rfl⟩
    · intro p node listed
      exact (multiTreeRef_node now trees wellFormed p t).2 node ((enumerates.complete p node).mp listed)

/-- Two versions with different children. -/
def divergingVersions : List (Tree String) :=
  [.mk none none (some [("a", some (.mk (some "1") none none))]),
    .mk none none (some [("b", some (.mk (some "3") none none)), ("a", some (.mk (some "2") none none))])]

theorem multiTreeRef_merges_divergingVersions :
    ∃ found, walkLevels ["a"] 0 1 0 none (multiTreeRef divergingVersions 0) = .ok found ∧
      (found.isSome = true ↔ ∃ tree ∈ divergingVersions, (tree.sub ["a"]).isSome = true) ∧
      ∀ node, found = some node → getTreeCurrentSerializedValue node 0 = some (.multi ["1", "2"]) := by
  have wellFormed : ∀ tree ∈ divergingVersions, tree.wellFormed = true := by decide +kernel
  exact (multiTreeRef_merges 0 divergingVersions wellFormed 0).1 ["a"] 0 1 none (by decide) (by decide)
    (by decide)

end TreeKeyCache
