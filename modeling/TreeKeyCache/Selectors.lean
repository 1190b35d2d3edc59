import TreeKeyCache.UndecodableVersions

/-! # Selected versions

`multiTreeSelector` chooses the values of a key level node from its history.  A traversal asks it
for the nodes that it comes to, but not for the node it starts from, whose history `getNodeRef`
has gathered. -/
set_option autoImplicit false
namespace TreeKeyCache

variable {T R : Type}

/-! ## What a search knows of its items -/

section
variable (o : Options T R) (storage : ReadStorage R)

def childRef (node : Option ChainedObject) (key : String) : ChainedObject :=
  .ofParent key ((node.map ChainedObject.level).getD 0 + 1) node

variable {P : Option ChainedObject → AnyTree R → Prop}
  (handed : ∀ node tree, P node tree → ∀ found ∈ tree.kids o storage,
    P (some (childRef node found.1)) found.2)
include handed

theorem asyncTreePostOrderTraversalRecursive_forall (now : ℚ) : ∀ (rounds : Nat) (tree : AnyTree R)
    (parentRef : Option ChainedObject) (key : Option String),
    P ((postOrderRef parentRef key).or parentRef) tree →
      ∀ item ∈ (asyncTreePostOrderTraversalRecursive o storage now rounds tree parentRef key).items,
        P (some item.ref) item.treeRef ∧ item.value = item.treeRef.currentSerializedValue now := by
  intro rounds
  induction rounds with
  | zero =>
      intro tree parentRef key _ item listed
      cases listed
  | succ rounds ih =>
      intro tree parentRef key holds item listed
      have last : ∀ item ∈ ((postOrderRef parentRef key).map fun ref =>
          (⟨ref, tree.currentSerializedValue now, tree⟩ : AnyTraversalItem R)).toList,
          P (some item.ref) item.treeRef ∧ item.value = item.treeRef.currentSerializedValue now := by
        intro item listed
        obtain ⟨made, found, rfl⟩ := Option.map_eq_some_iff.mp (Option.mem_toList.mp listed)
        rw [found] at holds
        exact ⟨holds, rfl⟩
      cases tree with
      | async asyncRef =>
          rw [asyncTreePostOrderTraversalRecursive] at listed
          rcases mem_append_items listed with below | here
          · obtain ⟨found, kid, member⟩ := mem_yieldAll below
            exact ih found.2 _ (some found.1) (handed _ _ holds found kid) item member
          · split at here
            · cases here
            · exact last item here
      | sync tree =>
          rw [asyncTreePostOrderTraversalRecursive] at listed
          rcases mem_append_items listed with below | here
          · obtain ⟨found, entry, member⟩ := mem_yieldAll below
            have kid : found ∈ (AnyTree.sync tree).kids o storage := by
              obtain ⟨⟨key', child⟩, inside, made⟩ := List.mem_filterMap.mp entry
              obtain ⟨child, rfl, rfl⟩ := Option.map_eq_some_iff.mp made
              exact List.mem_map.mpr ⟨(key', child), List.mem_filterMap.mpr ⟨_, inside, rfl⟩, rfl⟩
            exact ih found.2 _ (some found.1) (handed _ _ holds found kid) item member
          · exact last item here

theorem Search.async_forall (rounds : Nat) (now : ℚ) (tree : AnyTree R)
    (parentRef : Option ChainedObject) (holds : P parentRef tree) (search : Search) :
    ∀ item ∈ (search.async o storage rounds now tree parentRef).items,
      P (some item.ref) item.treeRef ∧ item.value = item.treeRef.currentSerializedValue now := by
  have start : ∀ item ∈ (parentRef.map fun ref =>
      createAnyTraversalItem ref.key ref.level ref.parentRef tree now).toList,
      P (some item.ref) item.treeRef ∧ item.value = item.treeRef.currentSerializedValue now := by
    intro item listed
    obtain ⟨ref, found, rfl⟩ := Option.map_eq_some_iff.mp (Option.mem_toList.mp listed)
    refine ⟨?_, rfl⟩
    change P (some (ChainedObject.ofParent ref.key ref.level ref.parentRef)) tree
    rw [ref.ofParent_self, ← found]
    exact holds
  have preOrder : ∀ list : AsyncSimpleList (AnyPending R), list.contents = [] →
      ∀ item ∈ (asyncTreePreOrderTraversal o storage rounds now tree list parentRef).items,
        P (some item.ref) item.treeRef ∧ item.value = item.treeRef.currentSerializedValue now := by
    intro list empty item listed
    rcases List.mem_append.mp listed with first | visited
    · exact start item first
    · obtain ⟨entry, handled, made⟩ := List.mem_filterMap.mp visited
      have inside := asyncVisit_forall o storage (fun entry => P entry.node entry.treeRef ∧
          entry.level = (entry.node.map ChainedObject.level).getD 0) (by
        intro entry holds found kid
        refine ⟨?_, ?_⟩
        · have further := handed _ _ holds.1 found kid
          rw [childRef, ← holds.2] at further
          exact further
        · exact (ChainedObject.level_ofParent found.1 (entry.level + 1) entry.node).symm) rounds _ (by
        intro entry member
        rw [AsyncSimpleList.mem_push, empty] at member
        rcases member with old | rfl
        · cases old
        · exact ⟨holds, rfl⟩) entry handled
      obtain ⟨key, keyed, rfl⟩ := Option.map_eq_some_iff.mp made
      have node := inside.1
      rw [AnyPending.node, keyed] at node
      exact ⟨node, rfl⟩
  have postOrder : ∀ item ∈ (asyncTreePostOrderTraversal o storage rounds now tree parentRef).items,
      P (some item.ref) item.treeRef ∧ item.value = item.treeRef.currentSerializedValue now := by
    intro item listed
    rcases mem_append_items listed with below | last
    · exact asyncTreePostOrderTraversalRecursive_forall o storage handed now rounds tree parentRef none
        holds item below
    · exact start item last
  cases search with
  | preOrderBreadthFirst => exact preOrder _ rfl
  | preOrderDepthFirst => exact preOrder _ rfl
  | postOrderBreadthFirst => exact postOrder
  | postOrderDepthFirst => exact postOrder

end

/-! ## What `deserializeList` is handed -/

section
variable [SerializedForm R] (o : HistoryOptions T R) (storage : HistoryStorage R)

/-- The list that a traversal hands to `deserializeList` for the value of a node. -/
def HistoryOptions.handedList : SerializedValue R → Option (List R)
  | .single _ => none
  | .multi values => some values
  | .iterable versions => some (o.multiTreeSelector versions)

theorem deserialize_handedList (now : ℚ) (value : SerializedValue R) (values : List R)
    (listed : o.handedList value = some values) :
    (o.inTraversal now).valueSerializer.deserialize value = o.deserializeList values := by
  cases value with
  | single _ => cases listed
  | multi _ =>
      obtain rfl := Option.some.inj listed
      rfl
  | iterable _ =>
      obtain rfl := Option.some.inj listed
      rfl

def historyTraversalItems (rounds : Nat) (lookupTime now : ℚ) (search : Search)
    (basePath : Option (List String)) : Yielded (AnyTraversalItem (SerializedValue R)) :=
  match basePath with
  | none => getTraversalIterable (o.inTraversal now) storage.readStorage rounds now search none
  | some basePath =>
      match historyNodeRef o storage lookupTime basePath with
      | .error e => ⟨[], some e⟩
      | .ok none => .done
      | .ok (some nodeRef) =>
          getTraversalIterable (o.inTraversal now) storage.readStorage rounds now search (some nodeRef)

theorem historyTraversalStepsIterable_eq (rounds : Nat) (lookupTime now : ℚ) (search : Search)
    (basePath : Option (List String)) :
    historyTraversalStepsIterable o storage rounds lookupTime now search basePath =
      (historyTraversalItems o storage rounds lookupTime now search basePath).map
        (AnyTraversalItem.step (o.inTraversal now)) := by
  cases basePath with
  | none => rfl
  | some basePath =>
      rw [historyTraversalStepsIterable, historyTraversalItems]
      cases historyNodeRef o storage lookupTime basePath with
      | error e => rfl
      | ok nodeRef =>
          cases nodeRef with
          | none => rfl
          | some item => rfl

/-- The calls of `deserializeList` that a traversal makes: the node and the list. -/
def handedLists (rounds : Nat) (lookupTime now : ℚ) (search : Search)
    (basePath : Option (List String)) : List (ChainedObject × List R) :=
  (historyTraversalItems o storage rounds lookupTime now search basePath).items.filterMap fun item =>
    (item.value.bind o.handedList).map fun values => (item.ref, values)

/-- From every base above the node, or the node itself, `deserializeList` is handed what the
selector makes of the node's history. -/
def SelectsAlike (path : List String) : Prop :=
  ∀ rounds lookupTime now search basePath,
    (∀ base, basePath = some base → base ≠ [] ∧ base <+: path) →
      ∀ values, (nodeRefOf path, values) ∈
          handedLists o storage rounds lookupTime now search basePath →
        values = o.multiTreeSelector (storage.getHistory (joinKeys path))

theorem history_of_item (rounds : Nat) (now : ℚ) (ref : AsyncTreeRef (SerializedValue R))
    (search : Search) : ∀ item ∈ (search.async (o.inTraversal now) storage.readStorage rounds now
      (.async ref) ref.nodeRef).items, item.ref.level < o.keyLevelNodes →
        item.value = storage.read (buildKey item.ref) ∨
          (ref.nodeRef = some item.ref ∧ item.value = ref.value) := by
  intro item listed above
  have holds := Search.async_forall (o.inTraversal now) storage.readStorage
    (P := fun node tree => match tree with
      | .sync _ => o.keyLevelNodes ≤ (node.map ChainedObject.level).getD 0
      | .async found => found.nodeRef = node ∧ ((∃ own, node = some own ∧
          found.value = storage.read (buildKey own)) ∨ found = ref)) (by
    intro node tree holds found kid
    cases tree with
    | sync tree =>
        obtain ⟨⟨key, child⟩, _, rfl⟩ := List.mem_map.mp kid
        have deeper : (childRef node key).level = (node.map ChainedObject.level).getD 0 + 1 :=
          ChainedObject.level_ofParent _ _ _
        change o.keyLevelNodes ≤ (childRef node key).level
        rw [deeper]
        exact Nat.le_succ_of_le holds
    | async parent =>
        obtain ⟨rfl, _⟩ := holds
        rw [AnyTree.kids, AsyncTreeRef.children] at kid
        split at kid
        · cases kid
        · obtain ⟨key, _, made⟩ := mem_collect kid
          rw [AsyncTreeRef.childAt] at made
          split at made
          · obtain rfl := Option.some.inj (Except.ok.inj made)
            exact ⟨rfl, Or.inl ⟨_, rfl, rfl⟩⟩
          · rename_i last
            split at made
            · cases made
            · split at made
              · cases made
              · simp only [bind, Except.bind] at made
                split at made
                · cases made
                · obtain rfl := Option.some.inj (Except.ok.inj made)
                  have level : (childRef parent.nodeRef key).level = parent.level + 1 :=
                    ChainedObject.level_ofParent _ _ _
                  change o.keyLevelNodes ≤ (childRef parent.nodeRef key).level
                  rw [level]
                  exact Nat.not_lt.mp last) rounds now (.async ref) ref.nodeRef ⟨rfl, Or.inr rfl⟩ search
    item listed
  obtain ⟨known, value⟩ := holds
  cases tree : item.treeRef with
  | sync _ =>
      rw [tree] at known
      exact absurd above (Nat.not_lt.mpr known)
  | async found =>
      rw [tree] at known value
      obtain ⟨node, own | same⟩ := known
      · obtain ⟨own, here, content⟩ := own
        rw [← Option.some.inj here] at content
        exact Or.inl (value.trans content)
      · right
        rw [same] at node value
        exact ⟨node, value⟩

theorem selected_of_alike {path : List String} (nonempty : path ≠ [])
    (short : path.length < o.keyLevelNodes) (alike : SelectsAlike o storage path) :
    o.multiTreeSelector (storage.getHistory (joinKeys path)) =
      truthyVersions (storage.getHistory (joinKeys path)) := by
  have pathLevel : (nodeRefOf path).level = path.length := nodeRefOf_level path nonempty
  have base := historyNodeRef_short o storage 0 nonempty (Nat.one_le_of_lt short) short
  have handed : (nodeRefOf path, truthyVersions (storage.getHistory (joinKeys path))) ∈
      handedLists o storage 0 0 0 .preOrderBreadthFirst (some path) := by
    rw [handedLists, historyTraversalItems, base]
    dsimp only
    rw [getTraversalIterable]
    dsimp only
    rw [pathLevel, if_neg (show ¬ (o.inTraversal 0).keyLevelNodes ≤ path.length from
      Nat.not_le.mpr short)]
    refine List.mem_filterMap.mpr ⟨createAnyTraversalItem (nodeRefOf path).key (nodeRefOf path).level
      (nodeRefOf path).parentRef (.async ⟨some (nodeRefOf path),
        some (.multi (truthyVersions (storage.getHistory (joinKeys path))))⟩) 0,
      List.mem_cons_self, ?_⟩
    rw [createAnyTraversalItem, ChainedObject.ofParent_self]
    rfl
  exact (alike 0 0 0 .preOrderBreadthFirst (some path)
    (fun base same => by
      rw [← Option.some.inj same]
      exact ⟨nonempty, List.prefix_refl path⟩) _ handed).symm

/-- The node a traversal starts from is treated like the others exactly when the selector takes
what is gathered without it. -/
theorem selectsAlike_iff (path : List String) (nonempty : path ≠ [])
    (short : path.length < o.keyLevelNodes) :
    SelectsAlike o storage path ↔ o.multiTreeSelector (storage.getHistory (joinKeys path)) =
      truthyVersions (storage.getHistory (joinKeys path)) := by
  have positive : 1 ≤ o.keyLevelNodes := Nat.one_le_of_lt short
  have pathLevel : (nodeRefOf path).level = path.length := nodeRefOf_level path nonempty
  constructor
  · exact selected_of_alike o storage nonempty short
  · intro selected rounds lookupTime now search basePath above values listed
    have handed : ∀ ref : AsyncTreeRef (SerializedValue R), (∀ node, ref.nodeRef = some node →
        node = nodeRefOf path →
          ref.value = some (.multi (truthyVersions (storage.getHistory (joinKeys path))))) →
        ∀ item ∈ (search.async (o.inTraversal now) storage.readStorage rounds now (.async ref)
          ref.nodeRef).items, item.ref = nodeRefOf path → item.value.bind o.handedList = some values →
            values = o.multiTreeSelector (storage.getHistory (joinKeys path)) := by
      intro ref start item member here found
      rcases history_of_item o storage rounds now ref search item member (by rw [here, pathLevel]; exact
        short) with below | ⟨own, value⟩
      · rw [below, here, buildKey_nodeRefOf path nonempty] at found
        exact (Option.some.inj found).symm
      · rw [value, start item.ref own here] at found
        rw [selected]
        exact (Option.some.inj found).symm
    obtain ⟨item, member, made⟩ := List.mem_filterMap.mp listed
    obtain ⟨values', found, same⟩ := Option.map_eq_some_iff.mp made
    obtain ⟨here, rfl⟩ := Prod.mk.inj same
    cases basePath with
    | none => exact handed ⟨none, none⟩ (fun _ none => nomatch none) item member here found
    | some base =>
        obtain ⟨baseNonempty, extends_⟩ := above base rfl
        have baseShort : base.length < o.keyLevelNodes :=
          Nat.lt_of_le_of_lt extends_.length_le short
        have baseLevel : (nodeRefOf base).level = base.length := nodeRefOf_level base baseNonempty
        rw [historyTraversalItems,
          historyNodeRef_short o storage lookupTime baseNonempty positive baseShort] at member
        dsimp only at member
        rw [getTraversalIterable] at member
        dsimp only at member
        rw [baseLevel, if_neg (show ¬ (o.inTraversal now).keyLevelNodes ≤ base.length from
          Nat.not_le.mpr baseShort)] at member
        refine handed ⟨some (nodeRefOf base), some (.multi (truthyVersions
          (storage.getHistory (joinKeys base))))⟩ (fun node own same => ?_) item member here found
        have paths := congrArg ChainedObject.keys ((Option.some.inj own).trans same)
        rw [nodeRefOf_keys base baseNonempty, nodeRefOf_keys path nonempty] at paths
        rw [paths]

end

def twoVersions (_ : String) : List (Option String) :=
  [some (Text.encodeNat 2), none, some (Text.encodeNat 1)]

theorem selectsAlike_default :
    SelectsAlike (Text.historyOptions 2 truthyVersions) ⟨twoVersions, some oneChild⟩ ["a"] :=
  (selectsAlike_iff (Text.historyOptions 2 truthyVersions) ⟨twoVersions, some oneChild⟩ ["a"]
    (by decide) (by decide)).mpr rfl

/-- With a selector of the newest version, the base of a traversal has both. -/
theorem base_not_selected :
    ¬ SelectsAlike (Text.historyOptions 2 fun versions => (truthyVersions versions).take 1)
      ⟨twoVersions, some oneChild⟩ ["a"] := by
  intro alike
  have selected := selected_of_alike _ _ (by decide) (by decide) alike
  exact absurd (congrArg List.length selected) (by decide +kernel)

end TreeKeyCache
