import TreeKeyCache.Ancestors
import TreeKeyCache.FullTreeSet

/-! # Keys that every object inherits

Tree level keys index plain objects, and `children[key]` also finds what an object inherits.
The walk of `deepTreeSet` then leaves the decoded tree and assigns to an object that every
other object shares.  A path is walkable when this does not happen to it. -/
set_option autoImplicit false
namespace TreeKeyCache

variable {T R : Type}

/-! ## References into a tree -/

namespace Tree

theorem sub_modifyAt (f : Tree R → Tree R) : ∀ (p : List String) (tree node : Tree R),
    tree.sub p = some node → (tree.modifyAt f p).sub p = some (f node) := by
  intro p
  induction p with
  | nil =>
      intro tree node found
      obtain rfl := Option.some.inj found
      rfl
  | cons key p ih =>
      intro tree node found
      rw [sub_cons, Option.bind_eq_some_iff] at found
      obtain ⟨child, listed, found⟩ := found
      rw [modifyAt, listed, sub_cons, child_withChildren_put, if_pos rfl]
      exact ih child node found

theorem withChildren_withChildren (tree : Tree R) (first second : Option (TreeChildren R)) :
    (tree.withChildren first).withChildren second = tree.withChildren second := by
  cases tree
  rfl

theorem modifyAt_modifyAt (f g : Tree R → Tree R) : ∀ (p : List String) (tree : Tree R),
    (tree.modifyAt g p).modifyAt f p = tree.modifyAt (fun node => f (g node)) p := by
  intro p
  induction p with
  | nil => exact fun tree => rfl
  | cons key p ih =>
      intro tree
      cases listed : tree.child key with
      | none => simp only [modifyAt, listed]
      | some child =>
          simp only [modifyAt, listed, child_withChildren_put, if_true, withChildren_children,
            Option.getD_some, Entries.put_put, ih child, withChildren_withChildren]

theorem modifyAt_congr (f g : Tree R → Tree R) : ∀ (p : List String) (tree node : Tree R),
    tree.sub p = some node → f node = g node → tree.modifyAt f p = tree.modifyAt g p := by
  intro p
  induction p with
  | nil =>
      intro tree node found same
      obtain rfl := Option.some.inj found
      exact same
  | cons key p ih =>
      intro tree node found same
      rw [sub_cons, Option.bind_eq_some_iff] at found
      obtain ⟨child, listed, found⟩ := found
      rw [modifyAt, modifyAt, listed]
      simp only [ih child node found same]

theorem modifyAt_append (f : Tree R → Tree R) (q : List String) : ∀ (p : List String)
    (tree : Tree R), tree.modifyAt f (p ++ q) = tree.modifyAt (fun node => node.modifyAt f q) p := by
  intro p
  induction p with
  | nil => exact fun tree => rfl
  | cons key p ih =>
      intro tree
      rw [List.cons_append, modifyAt, modifyAt]
      cases tree.child key with
      | none => rfl
      | some child => simp only [ih child]

end Tree

theorem nodeAt_root {memory : Memory R} {base : List String} {tree : Tree R}
    (found : (memory none).sub base = some tree) : memory.nodeAt ⟨none, base⟩ = tree := by
  rw [Memory.nodeAt, found, Option.getD_some]

theorem modify_root (memory : Memory R) (base : List String) (f : Tree R → Tree R) :
    memory.modify ⟨none, base⟩ f none = (memory none).modifyAt f base := by
  exact Function.update_self _ _ _

theorem sub_modify_child {memory : Memory R} {base : List String} {tree : Tree R}
    (found : (memory none).sub base = some tree) (f : Tree R → Tree R) (key : String) :
    (memory.modify ⟨none, base⟩ f none).sub (base ++ [key]) = (f tree).child key := by
  rw [modify_root, Tree.sub_append, Tree.sub_modifyAt f base _ tree found, Option.bind_some,
    Tree.sub_cons]
  cases (f tree).child key <;> rfl

section
variable [SerializedForm R] (o : LawfulOptions T R) (create : Option (ChainedObject → Option T))
  (edit : Step T → Option T) (ttl : Option (StepTtl T)) (now : ℚ)

/-- The tree level loop of `deepTreeSet` as it assigns to objects.  What it finds under an
inherited name is an object outside the decoded tree. -/
def assignAlong : ChainedObject → Place → Memory R → List String → Memory R
  | nodeRef, place, memory, [] =>
      let current := getTreeCurrentSerializedValue (memory.nodeAt place) now
      let step := editStep edit (present o.toOptions create nodeRef current)
      memory.modify place fun tree => (enriched o step current tree (stepTtl ttl step) now).1
  | nodeRef, place, memory, key :: rest =>
      let current := getTreeCurrentSerializedValue (memory.nodeAt place) now
      let step := editStep edit (present o.toOptions create nodeRef current)
      let entries := (memory.nodeAt place).children.getD []
      let assign (entries : TreeChildren R) := memory.modify place fun tree =>
        (enriched o step current tree none now).1.withChildren (some entries)
      let childRef := ChainedObject.ofParent key (nodeRef.level + 1) (some nodeRef)
      match readChild entries key with
      | .own _ => assignAlong childRef (place.child key) (assign entries) rest
      | .missing =>
          assignAlong childRef (place.child key)
            (assign (Entries.put key (some Tree.empty) entries)) rest
      | .inherited => assignAlong childRef ⟨some key, []⟩ (assign entries) rest

theorem assignAlong_shared : ∀ (rest : List String) (nodeRef : ChainedObject) (place : Place)
    (memory : Memory R), place.object ≠ none →
      assignAlong o create edit ttl now nodeRef place memory rest none = memory none := by
  intro rest
  induction rest with
  | nil =>
      intro nodeRef place memory shared
      exact Function.update_of_ne (Ne.symm shared) _ _
  | cons key rest ih =>
      intro nodeRef place memory shared
      simp only [assignAlong]
      have kept : ∀ f, memory.modify place f none = memory none :=
        fun f => Function.update_of_ne (Ne.symm shared) _ _
      cases readChild ((memory.nodeAt place).children.getD []) key with
      | own child => exact (ih _ (place.child key) _ shared).trans (kept _)
      | missing => exact (ih _ (place.child key) _ shared).trans (kept _)
      | inherited => exact (ih _ ⟨some key, []⟩ _ fun same => nomatch same).trans (kept _)

/-- No name on the way is found by inheritance. -/
def Walkable : Tree R → List String → Prop
  | _, [] => True
  | tree, key :: rest =>
      match readChild (tree.children.getD []) key with
      | .own child => Walkable child rest
      | .missing => Walkable Tree.empty rest
      | .inherited => False

omit [SerializedForm R] in
theorem walkable_cons (tree : Tree R) (key : String) (rest : List String) :
    Walkable tree (key :: rest) ↔ readChild (tree.children.getD []) key ≠ .inherited ∧
      Walkable ((tree.child key).getD Tree.empty) rest := by
  rw [Walkable]
  cases read : readChild (tree.children.getD []) key with
  | own child =>
      rw [child_of_own read, Option.getD_some]
      exact ⟨fun below => ⟨fun same => (by cases same), below⟩, And.right⟩
  | missing =>
      rw [child_of_missing read, Option.getD_none]
      exact ⟨fun below => ⟨fun same => (by cases same), below⟩, And.right⟩
  | inherited => exact ⟨False.elim, fun both => both.1 rfl⟩

omit [SerializedForm R] in
theorem walkable_of_not_inherited : ∀ (rest : List String) (tree : Tree R),
    (∀ key ∈ rest, key ∉ inheritedNames) → Walkable tree rest := by
  intro rest
  induction rest with
  | nil => exact fun tree _ => trivial
  | cons key rest ih =>
      intro tree ordinary
      have below := fun child => ih child fun key member => ordinary key (List.mem_cons_of_mem _ member)
      rw [Walkable, readChild_of_not_inherited _ _ (ordinary key List.mem_cons_self)]
      cases ((tree.children.getD []).lookup key).join with
      | none => exact below Tree.empty
      | some child => exact below child

/-- The decoded tree after the assignments is the tree that `deepTreeSet` persists. -/
theorem assignAlong_root : ∀ (rest : List String) (nodeRef : ChainedObject) (base : List String)
    (memory : Memory R) (tree : Tree R), (memory none).sub base = some tree →
      assignAlong o create edit ttl now nodeRef ⟨none, base⟩ memory rest none =
        (memory none).modifyAt
          (fun node => (walkAny o create edit ttl now nodeRef node rest).tree) base := by
  intro rest
  induction rest with
  | nil =>
      intro nodeRef base memory tree found
      simp only [assignAlong, nodeAt_root found, modify_root]
      exact Tree.modifyAt_congr _ _ base _ tree found rfl
  | cons key rest ih =>
      intro nodeRef base memory tree found
      have below : ∀ (childRef : ChainedObject) (here : Tree R → Tree R) (entries : TreeChildren R)
          (child : Tree R), (entries.lookup key).join = some child →
          assignAlong o create edit ttl now childRef ⟨none, base ++ [key]⟩
              (memory.modify ⟨none, base⟩ fun node => (here node).withChildren (some entries)) rest
              none =
            (memory none).modifyAt (fun node => (here node).withChildren (some (Entries.put key
              (some (walkAny o create edit ttl now childRef child rest).tree) entries))) base := by
        intro childRef here entries child listed
        have childFound : ∀ node, ((here node).withChildren (some entries)).child key = some child := by
          intro node
          rw [Tree.child_eq_lookup, Tree.withChildren_children, Option.getD_some, listed]
        have subFound := (sub_modify_child found
          (fun node => (here node).withChildren (some entries)) key).trans (childFound tree)
        rw [ih childRef _ _ child subFound, modify_root, Tree.modifyAt_append, Tree.modifyAt_modifyAt]
        apply Tree.modifyAt_congr _ _ base _ tree found
        simp only [Tree.modifyAt, childFound, Tree.withChildren_withChildren,
          Tree.withChildren_children, Option.getD_some]
      simp only [assignAlong, nodeAt_root found]
      cases read : readChild (tree.children.getD []) key with
      | own child =>
          have listed : ((tree.children.getD []).lookup key).join = some child := by
            rw [← Tree.child_eq_lookup]
            exact child_of_own read
          refine (below _ _ _ child listed).trans ?_
          apply Tree.modifyAt_congr _ _ base _ tree found
          simp only [walkAny, read]
      | missing =>
          have listed : ((Entries.put key (some (Tree.empty : Tree R))
              (tree.children.getD [])).lookup key).join = some Tree.empty := by
            rw [Entries.lookup_put_self]
            rfl
          refine (below _ _ _ Tree.empty listed).trans ?_
          apply Tree.modifyAt_congr _ _ base _ tree found
          simp only [walkAny, read, Entries.put_put]
      | inherited =>
          refine (assignAlong_shared o create edit ttl now _ _ ⟨some key, []⟩ _
            (Option.some_ne_none key)).trans ?_
          rw [modify_root]
          apply Tree.modifyAt_congr _ _ base _ tree found
          simp only [walkAny, read]

theorem assignAlong_walkable (name : String) : ∀ (rest : List String) (nodeRef : ChainedObject)
    (base : List String) (memory : Memory R) (tree : Tree R), (memory none).sub base = some tree →
      Walkable tree rest →
      assignAlong o create edit ttl now nodeRef ⟨none, base⟩ memory rest (some name) =
        memory (some name) := by
  intro rest
  have kept : ∀ (memory : Memory R) (base : List String) f,
      memory.modify ⟨none, base⟩ f (some name) = memory (some name) :=
    fun memory base f => Function.update_of_ne (Option.some_ne_none name) _ _
  induction rest with
  | nil => exact fun nodeRef base memory tree _ _ => kept memory base _
  | cons key rest ih =>
      intro nodeRef base memory tree found walkable
      have below : ∀ (childRef : ChainedObject) (here : Tree R → Tree R) (entries : TreeChildren R)
          (child : Tree R), (entries.lookup key).join = some child → Walkable child rest →
          assignAlong o create edit ttl now childRef ⟨none, base ++ [key]⟩
              (memory.modify ⟨none, base⟩ fun node => (here node).withChildren (some entries)) rest
              (some name) = memory (some name) := by
        intro childRef here entries child listed walkableBelow
        have subFound : (memory.modify ⟨none, base⟩ (fun node => (here node).withChildren
            (some entries)) none).sub (base ++ [key]) = some child := by
          rw [sub_modify_child found, Tree.child_eq_lookup, Tree.withChildren_children,
            Option.getD_some, listed]
        rw [ih childRef _ _ child subFound walkableBelow, kept]
      simp only [Walkable] at walkable
      simp only [assignAlong, nodeAt_root found]
      cases read : readChild (tree.children.getD []) key with
      | own child =>
          rw [read] at walkable
          apply below _ _ _ child _ walkable
          rw [← Tree.child_eq_lookup]
          exact child_of_own read
      | missing =>
          rw [read] at walkable
          apply below _ _ _ Tree.empty _ walkable
          rw [Entries.lookup_put_self]
          rfl
      | inherited =>
          rw [read] at walkable
          exact absurd walkable id

theorem walkAny_walkable : ∀ (rest : List String) (nodeRef : ChainedObject) (tree : Tree R),
    Walkable tree rest →
      walkAny o create edit ttl now nodeRef tree rest = walk o create edit ttl now nodeRef tree rest := by
  intro rest
  induction rest with
  | nil => exact fun nodeRef tree _ => rfl
  | cons key rest ih =>
      intro nodeRef tree walkable
      simp only [Walkable] at walkable
      simp only [walkAny, walk]
      cases read : readChild (tree.children.getD []) key with
      | own child =>
          rw [read] at walkable
          simp only [child_of_own read, Option.getD_some, Option.isNone_some, Bool.or_false,
            ih _ child walkable]
      | missing =>
          rw [read] at walkable
          simp only [child_of_missing read, Option.getD_none, Option.isNone_none, Bool.or_true,
            Bool.true_or, ih _ Tree.empty walkable]
      | inherited =>
          rw [read] at walkable
          exact absurd walkable id

/-- Below an inherited name the tree has no node before the walk and none after it. -/
theorem walkAny_labelAt_unwalkable : ∀ (q rest : List String) (nodeRef : ChainedObject)
    (tree : Tree R), q <+: rest → ¬ Walkable tree q →
      (walkAny o create edit ttl now nodeRef tree rest).tree.labelAt q = Label.none ∧
        tree.labelAt q = Label.none := by
  intro q
  induction q with
  | nil => exact fun rest nodeRef tree _ unwalkable => absurd trivial unwalkable
  | cons key q ih =>
      intro rest nodeRef tree onPath unwalkable
      obtain ⟨tail, rfl⟩ := onPath
      rw [List.cons_append]
      by_cases found : readChild (tree.children.getD []) key = .inherited
      · exact walkAny_labelAt_inherited o create edit ttl now nodeRef tree found _ q
      · rw [walkAny_labelAt_cons o create edit ttl now nodeRef tree found, Tree.labelAt_cons]
        apply ih _ _ _ (List.prefix_append q tail)
        exact fun below => unwalkable ((walkable_cons tree key q).mpr ⟨found, below⟩)

end

/-! ## A call and the nodes -/

section
variable [SerializedForm R] (o : LawfulOptions T R) (v : T) (w : World R) {path : List String}

/-- The keys that make up storage keys are proper. -/
def ProperKeys (path : List String) : Prop := ∀ key ∈ path.take o.keyLevelNodes, ProperKey key

theorem levelKey_eq (proper : ProperKeys o path) (n : Nat) (level : n + 1 ≤ o.keyLevelNodes)
    (bound : n < path.length) : levelKey path (n + 1) = joinKeys (path.take (n + 1)) := by
  have same : (path.take o.keyLevelNodes).take (n + 1) = path.take (n + 1) := by
    rw [List.take_take, Nat.min_eq_left level]
  have chained := chainedKeyOf_eq_joinKeys (path.take o.keyLevelNodes)
    (fun key member => (proper key member).1) n (by rw [List.length_take]; omega)
  rw [same] at chained
  rw [levelKey, chained, Option.getD_some]

theorem proper_take (proper : ProperKeys o path) (n : Nat) (level : n ≤ o.keyLevelNodes) :
    ∀ key ∈ path.take n, ProperKey key := by
  intro key member
  apply proper key
  rw [← Nat.min_eq_left level, ← List.take_take] at member
  exact List.mem_of_mem_take member

theorem ownKeys_of_proper (proper : ProperKeys o path) : OwnKeys o path := by
  apply List.Nodup.map_on _ List.nodup_range
  intro m mBound n nBound same
  rw [List.mem_range] at mBound nBound
  rw [levelKey_eq o proper m (by omega) (by omega), levelKey_eq o proper n (by omega) (by omega)]
    at same
  have taken := joinKeys_injective _ _ (take_ne_nil path m (by omega)) (take_ne_nil path n (by omega))
    (fun key member => (proper_take o proper (m + 1) (by omega) key member).2)
    (fun key member => (proper_take o proper (n + 1) (by omega) key member).2) same
  have lengths := congrArg List.length taken
  rw [List.length_take, List.length_take] at lengths
  omega

theorem reachesTree_of_proper (twoLevels : 2 ≤ o.keyLevelNodes) (proper : ProperKeys o path)
    (deep : o.keyLevelNodes ≤ path.length) : ReachesTree o path := by
  refine ⟨deep, ?_⟩
  have key := levelKey_eq o proper (o.keyLevelNodes - 2) (by omega) (by omega)
  rw [show o.keyLevelNodes - 2 + 1 = o.keyLevelNodes - 1 by omega] at key
  change levelKey path (o.keyLevelNodes - 1) ≠ ""
  rw [key, show o.keyLevelNodes - 1 = o.keyLevelNodes - 2 + 1 by omega]
  exact joinKeys_ne_empty _ (take_ne_nil path _ (by omega)) fun key member =>
    (proper_take o proper _ (by omega) key member).1

theorem mem_callSections_keys (proper : ProperKeys o path) (key : String)
    (listed : key ∈ (callSections o none v w path).map Section.key) :
    ∃ n, n + 1 ≤ o.keyLevelNodes ∧ n < path.length ∧ key = joinKeys (path.take (n + 1)) := by
  rw [callSections, anySections, List.map_append, List.mem_append] at listed
  rcases listed with above | tree
  · rw [List.map_map] at above
    obtain ⟨n, bound, same⟩ := List.mem_map.mp above
    rw [List.mem_range] at bound
    refine ⟨n, by omega, by omega, same.symm.trans ?_⟩
    exact levelKey_eq o proper n (by omega) (by omega)
  · split at tree
    · rename_i reached
      have positive := keyLevelNodes_pos o reached.1
      have deep := reached.1.1
      refine ⟨o.keyLevelNodes - 1, by omega, by omega, (List.mem_singleton.mp tree).trans ?_⟩
      rw [← levelKey_eq o proper _ (by omega) (by omega),
        show o.keyLevelNodes - 1 + 1 = o.keyLevelNodes by omega]
      rfl
    · cases tree

/-- What a node reads when the call has no section for its storage key. -/
theorem read_of_unlisted (key : String)
    (unlisted : key ∉ (callSections o none v w path).map Section.key) :
    (performAll w (callSections o none v w path)).read key = w.read key :=
  World.read_congr _ _ _ (performAll_store_of_not_mem _ _ _ unlisted) (performAll_clock _ _)

theorem read_of_listed (proper : ProperKeys o path) (s : Section (Step T) R)
    (listed : s ∈ callSections o none v w path)
    (untimed : ∀ content r rule, s.writes content = some (r, rule) → rule = .exactly none) :
    (performAll w (callSections o none v w path)).read s.key = s.after (w.read s.key) := by
  have distinct := callSections_distinct o none v w (ownKeys_of_proper o proper)
  have stored := performAll_store s _ w distinct listed
  have clock : (performAll w (callSections o none v w path)).clock = (w.perform s).clock := by
    rw [performAll_clock, World.perform_clock]
  rw [World.read_congr _ _ _ stored clock, World.read_perform w s untimed, if_pos rfl]

theorem chainSection_untimed (n : Nat) (content : Option R) (r : R) (rule : TtlRule)
    (written : (chainSection o (some fun _ => none) (setEdit path.length v) none path n).writes content =
      some (r, rule)) : rule = .exactly none := by
  simp only [chainSection, stepWrites] at written
  split at written
  · cases written
  · split at written
    · cases written
      rfl
    · cases written

theorem anyTreeSection_untimed (now : ℚ) (content : Option R) (r : R) (rule : TtlRule)
    (written : (anyTreeSection o (some fun _ => none) (setEdit path.length v) none path now).writes
      content = some (r, rule)) : rule = .exactly none := by
  have untimed : ∀ (rest : List String) (nodeRef : ChainedObject) (tree : Tree R),
      (walkAny o (some fun _ => none) (setEdit path.length v) none now nodeRef tree rest).ttl =
        none := by
    intro rest
    induction rest with
    | nil => exact fun nodeRef tree => rfl
    | cons key rest ih =>
        intro nodeRef tree
        simp only [walkAny]
        split
        · exact ih _ _
        · exact ih _ _
        · exact ih _ _
  simp only [anyTreeSection, anyTreeWalk, untimed, ttlRule] at written
  split at written
  · cases written
    rfl
  · cases written

theorem label_above (proper : ProperKeys o path) (n : Nat) (keyLevel : n + 1 < o.keyLevelNodes)
    (bound : n < path.length) :
    nodeLabel o ((performAll w (callSections o none v w path)).read (nodeKey o (path.take (n + 1))))
        (path.take (n + 1)) =
      (nodeLabel o (w.read (nodeKey o (path.take (n + 1)))) (path.take (n + 1))).visited o
        (some fun _ => none) (setEdit path.length v) none (path.take (n + 1)) false w.clock := by
  have length : (path.take (n + 1)).length = n + 1 := List.length_take_of_le (by omega)
  have label : ∀ content : Option R, nodeLabel o content (path.take (n + 1)) = ⟨content, none⟩ :=
    fun content => by rw [nodeLabel, if_pos (by omega)]
  have key : (chainSection o (some fun _ => none) (setEdit path.length v) none path n).key =
      nodeKey o (path.take (n + 1)) := by
    rw [nodeKey, List.take_take, Nat.min_eq_right (by omega)]
    exact levelKey_eq o proper n (by omega) bound
  have read := read_of_listed o v w proper _ (chainSection_mem o none v w (by omega) bound)
    (chainSection_untimed o v n)
  rw [key] at read
  rw [label, label, read]
  exact keySection_after o (some fun _ => none) (setEdit path.length v) path 0 n _ w.clock

/-- The labels of the nodes in the tree when the path is walkable. -/
theorem label_in_tree (proper : ProperKeys o path) (twoLevels : 2 ≤ o.keyLevelNodes)
    (deep : o.keyLevelNodes ≤ path.length)
    (listed : anyTreeSection o (some fun _ => none) (setEdit path.length v) none path w.clock ∈
      callSections o none v w path)
    (walkable : Walkable (rootTree o (w.read (nodeKey o path))) (path.drop o.keyLevelNodes))
    (q : List String) (same : q.take o.keyLevelNodes = path.take o.keyLevelNodes) :
    nodeLabel o ((performAll w (callSections o none v w path)).read (nodeKey o q)) q =
      if q <+: path then
        (nodeLabel o (w.read (nodeKey o q)) q).visited o (some fun _ => none)
          (setEdit path.length v) none q (decide (q = path)) w.clock
      else nodeLabel o (w.read (nodeKey o q)) q := by
  have key : (anyTreeSection o (some fun _ => none) (setEdit path.length v) none path w.clock).key =
      nodeKey o q := by
    have joined := levelKey_eq o proper (o.keyLevelNodes - 1) (by omega) (by omega)
    rw [show o.keyLevelNodes - 1 + 1 = o.keyLevelNodes by omega] at joined
    rw [nodeKey, same]
    exact joined
  have sameKey : nodeKey o q = nodeKey o path := by rw [nodeKey, nodeKey, same]
  have read := read_of_listed o v w proper _ listed (anyTreeSection_untimed o v w.clock)
  rw [key] at read
  have walked : (anyTreeSection o (some fun _ => none) (setEdit path.length v) none path
      w.clock).after (w.read (nodeKey o q)) = (treeSection o (some fun _ => none)
        (setEdit path.length v) none path 0 w.clock).after (w.read (nodeKey o q)) := by
    unfold Section.after anyTreeSection treeSection anyTreeWalk treeWalk
    rw [sameKey]
    simp only [walkAny_walkable o _ _ none w.clock _ _ _ walkable]
  rw [read, walked]
  exact treeSection_label o _ _ none path 0 w.clock _ (by omega) deep q same

theorem visited_untimed (q : List String) (last : Bool) (now : ℚ) (label : Label R)
    (edit : Step T → Option T) :
    label.visited o (some fun _ => none) edit none q last now =
      label.visited o (some fun _ => none) edit none q false now := by
  unfold Label.visited
  simp only [stepTtl, ite_self]

/-- `q` spells the key of an entry on the path with other keys, as `["a:b"]` does for
`["a", "b"]`. -/
def Respells (q path : List String) : Prop :=
  ∃ n, n + 1 ≤ o.keyLevelNodes ∧ n < path.length ∧ nodeKey o q = joinKeys (path.take (n + 1)) ∧
    q.take o.keyLevelNodes ≠ path.take (n + 1)

theorem not_respells (proper : ProperKeys o path) {q : List String} (properNode : ProperKeys o q)
    (nonempty : q ≠ []) (positive : 1 ≤ o.keyLevelNodes) : ¬ Respells o q path := by
  rintro ⟨n, level, bound, key, differ⟩
  have qPositive : 0 < q.length := List.length_pos_iff.mpr nonempty
  refine differ (joinKeys_injective _ _ ?_ (take_ne_nil path n bound)
    (fun key member => (properNode key member).2)
    (fun key member => (proper_take o proper (n + 1) level key member).2) key)
  rw [← List.length_pos_iff, List.length_take]
  omega

theorem label_after (proper : ProperKeys o path) (twoLevels : 2 ≤ o.keyLevelNodes)
    (listed : o.keyLevelNodes ≤ path.length →
      anyTreeSection o (some fun _ => none) (setEdit path.length v) none path w.clock ∈
        callSections o none v w path)
    (walkable : o.keyLevelNodes ≤ path.length →
      Walkable (rootTree o (w.read (nodeKey o path))) (path.drop o.keyLevelNodes))
    (q : List String) (apart : ¬ Respells o q path) (nonempty : q ≠ []) :
    nodeLabel o ((performAll w (callSections o none v w path)).read (nodeKey o q)) q =
      if q <+: path then
        (nodeLabel o (w.read (nodeKey o q)) q).visited o (some fun _ => none)
          (setEdit path.length v) none q false w.clock
      else nodeLabel o (w.read (nodeKey o q)) q := by
  have qPositive : 0 < q.length := List.length_pos_iff.mpr nonempty
  by_cases sameKey : o.keyLevelNodes ≤ path.length ∧
      q.take o.keyLevelNodes = path.take o.keyLevelNodes
  · rw [label_in_tree o v w proper twoLevels sameKey.1 (listed sameKey.1) (walkable sameKey.1) q
      sameKey.2, visited_untimed]
  · by_cases onPath : q <+: path
    · have bound := onPath.length_le
      have taken := List.prefix_iff_eq_take.mp onPath
      have short : q.length < o.keyLevelNodes := by
        by_contra deep
        refine sameKey ⟨by omega, ?_⟩
        rw [taken, List.take_take, Nat.min_eq_left (by omega)]
      have above := label_above o v w proper (q.length - 1) (by omega) (by omega)
      rw [show q.length - 1 + 1 = q.length by omega, ← taken] at above
      rw [if_pos onPath]
      exact above
    · rw [if_neg onPath, read_of_unlisted]
      intro member
      obtain ⟨n, level, bound, key⟩ := mem_callSections_keys o v w proper _ member
      have taken : q.take o.keyLevelNodes = path.take (n + 1) := by
        by_contra differ
        exact apart ⟨n, level, bound, key, differ⟩
      have lengths := congrArg List.length taken
      rw [List.length_take, List.length_take] at lengths
      by_cases atTree : n + 1 = o.keyLevelNodes
      · rw [atTree] at taken
        exact sameKey ⟨by omega, taken⟩
      · rw [List.take_of_length_le (by omega)] at taken
        rw [taken] at onPath
        exact onPath (List.take_prefix _ _)

theorem nodeLabel_none (q : List String) : nodeLabel o (none : Option R) q = Label.none := by
  unfold nodeLabel
  split
  · rfl
  · exact Tree.labelAt_empty _

theorem getNode_label (positive : 1 ≤ o.keyLevelNodes) (get : String → Option R) (now : ℚ)
    (q : List String) (nonempty : q ≠ []) :
    getNode o.toOptions get now q =
      .ok ((truthy? ((nodeLabel o (get (nodeKey o q)) q).live now)).map (stepFor o.toOptions q)) := by
  rw [getNode_eq o.toOptions get now q positive nonempty]
  by_cases short : q.length < o.keyLevelNodes
  · rw [serializedAt, if_pos short, nodeLabel, if_pos short, nodeKey,
      List.take_of_length_le (by omega), truthy?_truthy?]
    rfl
  · rw [serializedAt_eq_live o get now q (by omega)]

omit [SerializedForm R] in
theorem live_rewritten (label : Label R) (r : R) (now : ℚ) :
    (Label.mk (some r) (if truthyNumber label.deadline then none else label.deadline)).live now =
      some r := by
  unfold Label.live
  split
  · rfl
  · rename_i d dated
    have zero : d = 0 := by
      simp only at dated
      split at dated
      · cases dated
      · rename_i undated
        rw [dated] at undated
        by_contra nonzero
        exact undated (decide_eq_true nonzero)
    rw [if_pos (Or.inl zero)]

theorem answer_written (label : Label R) (nonempty : path ≠ []) (now : ℚ) :
    (truthy? ((label.visited o (some fun _ => none) (setEdit path.length v) none path false
        now).live now)).map (stepFor o.toOptions path) =
      some (mountStep (nodeRefOf path) (some v)) := by
  have assigned : setEdit path.length v (present o.toOptions (some fun _ => none) (nodeRefOf path)
      (label.live now)) = some v := by
    rw [setEdit, if_pos]
    exact nodeRefOf_level path nonempty
  have encoded : (truthy? (some (o.encode v))).map (stepFor o.toOptions path) =
      some (mountStep (nodeRefOf path) (some v)) := by
    rw [truthy?, Option.filter_some_pos (o.truthy_value v), Option.map_some, stepFor,
      deserializeValue_encode]
  rw [Label.visited, Label.enriched, editStep]
  simp only [assigned, truthyNumber_none, Bool.false_eq_true, if_false]
  by_cases changed : differs (label.live now) (o.encode v) = true
  · rw [if_pos changed, live_rewritten]
    exact encoded
  · rw [if_neg changed]
    unfold differs at changed
    cases live : label.live now with
    | none =>
        rw [live] at changed
        exact absurd rfl changed
    | some r =>
        rw [live] at changed
        have same : r = o.encode v := by
          apply SerializedForm.same_eq
          simpa using changed
        rw [same]
        exact encoded

/-- An ancestor answers as before, unless it held a falsy serialized value that decodes. -/
theorem answer_passing_iff (label : Label R) (q : List String) (nonempty : q ≠ [])
    (above : q.length ≠ path.length) (now : ℚ) :
    (truthy? ((label.visited o (some fun _ => none) (setEdit path.length v) none q false
        now).live now)).map (stepFor o.toOptions q) =
      (truthy? (label.live now)).map (stepFor o.toOptions q) ↔
      ∀ r value, label.live now = some r → o.valueSerializer.deserialize r = .ok (some value) →
        SerializedForm.truthy r = true := by
  rw [Label.visited, Label.enriched, editStep]
  simp only [setEdit_above o v q _ nonempty above]
  cases live : label.live now with
  | none =>
      simp only [Option.bind_none, live]
      refine ⟨?_, fun _ => trivial⟩
      intro _ r value found
      cases found
  | some r =>
      cases decoded : deserializeValue o.toOptions r with
      | none =>
          simp only [Option.bind_some, decoded, live]
          refine ⟨fun _ r' value found ok => ?_, fun _ => trivial⟩
          rw [← Option.some.inj found, ← deserializeValue_eq_some, decoded] at ok
          cases ok
      | some value =>
          have encoded : (truthy? (some (o.encode value))).map (stepFor o.toOptions q) =
              some (mountStep (nodeRefOf q) (some value)) := by
            rw [truthy?, Option.filter_some_pos (o.truthy_value value), Option.map_some, stepFor,
              deserializeValue_encode]
          simp only [Option.bind_some, decoded, truthyNumber_none, Bool.false_eq_true, if_false]
          by_cases changed : differs (some r) (o.encode value) = true
          · rw [if_pos changed, live_rewritten, encoded]
            cases form : SerializedForm.truthy r with
            | true =>
                refine ⟨fun _ r' value' found _ => Option.some.inj found ▸ form, fun _ => ?_⟩
                rw [truthy?, Option.filter_some_pos form, Option.map_some, stepFor, decoded]
            | false =>
                refine ⟨fun kept => ?_, fun truthy => ?_⟩
                · rw [truthy?, Option.filter_some_neg (by simp [form])] at kept
                  cases kept
                · have contrary := truthy r value rfl (deserializeValue_eq_some.mp decoded)
                  rw [form] at contrary
                  cases contrary
          · rw [if_neg changed, live]
            refine ⟨fun _ r' value' found _ => ?_, fun _ => rfl⟩
            have same : r = o.encode value := by
              apply SerializedForm.same_eq
              simpa [differs] using changed
            rw [← Option.some.inj found, same]
            exact o.truthy_value value

/-- The objects after the walk of `setNode` through the decoded tree. -/
def objectsAfter (path : List String) : Memory R :=
  assignAlong o (some fun _ => none) (setEdit path.length v) none w.clock
    (nodeRefOf (path.take o.keyLevelNodes)) Place.root
    (Memory.start (rootTree o (w.read (nodeKey o path)))) (path.drop o.keyLevelNodes)

theorem objectsAfter_root : objectsAfter o v w path none =
    (anyTreeWalk o (some fun _ => none) (setEdit path.length v) none path w.clock
      (w.read (nodeKey o path))).tree :=
  assignAlong_root o _ _ none w.clock _ _ [] _ _ rfl

/-- The node holds the value, every other path reads as before, and no shared object has
been assigned to.  A path under a storage key that is not on the way reads as before at any
time. -/
structure WritesOneNode (path : List String) (w' : World R) : Prop where
  written : getNode o.toOptions w'.read w'.clock path =
    .ok (some (mountStep (nodeRefOf path) (some v)))
  others : ∀ q, q ≠ path → ¬ Respells o q path →
    getNode o.toOptions w'.read w'.clock q = getNode o.toOptions w.read w.clock q
  elsewhere : ∀ q, (∀ n, n + 1 ≤ o.keyLevelNodes → n < path.length →
      nodeKey o q ≠ joinKeys (path.take (n + 1))) →
    ∀ t, getNode o.toOptions (w'.readAt t) t q = getNode o.toOptions (w.readAt t) t q
  shared : o.keyLevelNodes ≤ path.length → ∀ name, objectsAfter o v w path (some name) = Tree.empty

/-- No name in the tree is found by inheritance, and no live ancestor holds a falsy serialized
value that decodes. -/
structure OwnNames (path : List String) : Prop where
  walkable : o.keyLevelNodes ≤ path.length →
    Walkable (rootTree o (w.read (nodeKey o path))) (path.drop o.keyLevelNodes)
  ancestors : ∀ q, q <+: path → q ≠ [] → q ≠ path → ∀ r value,
    (nodeLabel o (w.read (nodeKey o q)) q).live w.clock = some r →
      o.valueSerializer.deserialize r = .ok (some value) → SerializedForm.truthy r = true

theorem label_not_walkable (proper : ProperKeys o path) (twoLevels : 2 ≤ o.keyLevelNodes)
    (deep : o.keyLevelNodes ≤ path.length)
    (listed : anyTreeSection o (some fun _ => none) (setEdit path.length v) none path w.clock ∈
      callSections o none v w path)
    (unwalkable : ¬ Walkable (rootTree o (w.read (nodeKey o path))) (path.drop o.keyLevelNodes)) :
    nodeLabel o ((performAll w (callSections o none v w path)).read (nodeKey o path)) path =
      Label.none := by
  have key : (anyTreeSection o (some fun _ => none) (setEdit path.length v) none path w.clock).key =
      nodeKey o path := by
    have joined := levelKey_eq o proper (o.keyLevelNodes - 1) (by omega) (by omega)
    rw [show o.keyLevelNodes - 1 + 1 = o.keyLevelNodes by omega] at joined
    exact joined
  have read := read_of_listed o v w proper _ listed (anyTreeSection_untimed o v w.clock)
  rw [key] at read
  have gone := (walkAny_labelAt_unwalkable o (some fun _ => none) (setEdit path.length v) none w.clock
    (path.drop o.keyLevelNodes) _ (nodeRefOf (path.take o.keyLevelNodes)) _ (List.prefix_refl _)
    unwalkable).1
  rw [read, nodeLabel, if_neg (by omega), Section.after, anyTreeSection]
  simp only
  by_cases changed : (anyTreeWalk o (some fun _ => none) (setEdit path.length v) none path w.clock
      (w.read (nodeKey o path))).changed = true
  · rw [if_pos changed]
    exact (labelAt_encodeTree o _
      (walkAny_wellFormed o _ _ none w.clock _ _ _ (rootTree_wellFormed o _)) _).trans gone
  · rw [if_neg changed]
    simp only
    rw [← walkAny_unchanged o _ _ none w.clock _ _ _ ((Bool.not_eq_true _).mp changed)]
    exact gone

section
variable (twoLevels : 2 ≤ o.keyLevelNodes) (proper : ProperKeys o path) (nonempty : path ≠ [])
  (listed : o.keyLevelNodes ≤ path.length →
    anyTreeSection o (some fun _ => none) (setEdit path.length v) none path w.clock ∈
      callSections o none v w path)
include twoLevels proper nonempty listed

theorem ownNames_of_writesOneNode
    (writes : WritesOneNode o v w path (performAll w (callSections o none v w path))) :
    OwnNames o w path := by
  have clock : (performAll w (callSections o none v w path)).clock = w.clock := performAll_clock _ _
  have answers := getNode_label o (by omega : 1 ≤ o.keyLevelNodes)
  have walkable : o.keyLevelNodes ≤ path.length →
      Walkable (rootTree o (w.read (nodeKey o path))) (path.drop o.keyLevelNodes) := by
    intro deep
    by_contra unwalkable
    have written := writes.written
    rw [answers _ _ path nonempty,
      label_not_walkable o v w proper twoLevels deep (listed deep) unwalkable] at written
    cases written
  refine ⟨walkable, ?_⟩
  intro q onPath qNonempty notAll
  have properNode : ProperKeys o q :=
    fun key member => proper key ((onPath.take o.keyLevelNodes).subset member)
  have apart := not_respells o proper properNode qNonempty (by omega)
  have kept := writes.others q notAll apart
  rw [answers _ _ q qNonempty, answers _ _ q qNonempty, clock,
    label_after o v w proper twoLevels listed walkable q apart qNonempty, if_pos onPath] at kept
  refine (answer_passing_iff o v _ q qNonempty ?_ w.clock).mp (Except.ok.inj kept)
  intro lengths
  exact notAll (onPath.eq_of_length lengths)

theorem writesOneNode_of_ownNames (own : OwnNames o w path) :
    WritesOneNode o v w path (performAll w (callSections o none v w path)) := by
  have clock : (performAll w (callSections o none v w path)).clock = w.clock := performAll_clock _ _
  have answers := getNode_label o (by omega : 1 ≤ o.keyLevelNodes)
  have labels := label_after o v w proper twoLevels listed own.walkable
  constructor
  · rw [answers _ _ path nonempty, clock,
      labels path (not_respells o proper proper nonempty (by omega)) nonempty,
      if_pos List.prefix_rfl, answer_written o v _ nonempty]
  · intro q other apart
    by_cases qNonempty : q = []
    · rw [qNonempty, getNode_nil, getNode_nil]
    · rw [answers _ _ q qNonempty, answers _ _ q qNonempty, clock, labels q apart qNonempty]
      by_cases onPath : q <+: path
      · rw [if_pos onPath]
        refine congrArg Except.ok ((answer_passing_iff o v _ q qNonempty ?_ w.clock).mpr ?_)
        · intro lengths
          exact other (onPath.eq_of_length lengths)
        · exact own.ancestors q onPath qNonempty other
      · rw [if_neg onPath]
  · intro q aside t
    by_cases qNonempty : q = []
    · rw [qNonempty, getNode_nil, getNode_nil]
    · have untouched := performAll_store_of_not_mem (nodeKey o q) (callSections o none v w path) w
        fun member => by
          obtain ⟨n, level, bound, key⟩ := mem_callSections_keys o v w proper _ member
          exact aside n level bound key
      rw [answers _ _ q qNonempty, answers _ _ q qNonempty, World.readAt, World.readAt, untouched]
  · intro deep name
    exact assignAlong_walkable o _ _ none w.clock name _ _ _ _ _ rfl (own.walkable deep)

end

theorem setNode_writes_one_node_iff (consumer : Step T → Option T) (twoLevels : 2 ≤ o.keyLevelNodes)
    (proper : ProperKeys o path) (nonempty : path ≠ [])
    (returned : ((setNode o.toOptions path (some (.value v)) none).run consumer w).result = .ok ()) :
    WritesOneNode o v w path ((setNode o.toOptions path (some (.value v)) none).run consumer w).world ↔
      OwnNames o w path := by
  have performed := setNode_alone o none consumer path v w
  have listed : o.keyLevelNodes ≤ path.length →
      anyTreeSection o (some fun _ => none) (setEdit path.length v) none path w.clock ∈
        callSections o none v w path :=
    fun deep => performed.2 returned (reachesTree_of_proper o twoLevels proper deep)
  rw [performed.1]
  exact ⟨ownNames_of_writesOneNode o v w twoLevels proper nonempty listed,
    writesOneNode_of_ownNames o v w twoLevels proper nonempty listed⟩

end

theorem setNode_writes_one_node_c :
    WritesOneNode (Text.options 2) 1 (World.emptyAt 0) ["a", "b", "c"]
      ((setNode (Text.options 2).toOptions ["a", "b", "c"] (some (.value 1)) none).run
        (fun step => step.value) (World.emptyAt 0)).world := by
  apply (setNode_writes_one_node_iff (Text.options 2) 1 (World.emptyAt 0) _ (by decide)
    (by unfold ProperKeys; decide) (by decide) (by decide +kernel)).mpr
  constructor
  · intro _
    exact walkable_of_not_inherited ["c"] Tree.empty (by decide)
  · intro q onPath _ _ r value live
    change (nodeLabel (Text.options 2) none q).live 0 = some r at live
    rw [nodeLabel_none] at live
    cases live

/-- `setNode(["a", "b", "constructor"], 1)` writes to the function `Object`. -/
theorem setNode_writes_to_inherited_object :
    ProperKeys (Text.options 2) ["a", "b", "constructor"] ∧
      ((setNode (Text.options 2).toOptions ["a", "b", "constructor"] (some (.value 1)) none).run
        (fun step => step.value) (World.emptyAt 0)).result = .ok () ∧
      ¬ WritesOneNode (Text.options 2) 1 (World.emptyAt 0) ["a", "b", "constructor"]
        ((setNode (Text.options 2).toOptions ["a", "b", "constructor"] (some (.value 1)) none).run
          (fun step => step.value) (World.emptyAt 0)).world := by
  refine ⟨by unfold ProperKeys; decide, by decide +kernel, ?_⟩
  intro writes
  have lost : (getNode (Text.options 2).toOptions
      ((setNode (Text.options 2).toOptions ["a", "b", "constructor"] (some (.value 1)) none).run
        (fun step => step.value) (World.emptyAt 0)).world.read
      ((setNode (Text.options 2).toOptions ["a", "b", "constructor"] (some (.value 1)) none).run
        (fun step => step.value) (World.emptyAt 0)).world.clock
      ["a", "b", "constructor"]).toOption.map Option.isSome = some false := by decide +kernel
  rw [writes.written] at lost
  cases lost

end TreeKeyCache
