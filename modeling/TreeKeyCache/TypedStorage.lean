import TreeKeyCache.ConcurrentRegistry
import TreeKeyCache.Enumerations
import TreeKeyCache.KeyHistories

/-! # What the storage may hold

A key of `keyLevelNodes` parts holds a serialized tree whose nodes hold serialized values, a
shorter key holds a serialized value, and there are no other keys.  Every writer keeps the
storage so as long as what it reads is so, however it is interleaved with others, whatever
fails and whatever the consumers do. -/
set_option autoImplicit false
namespace TreeKeyCache

open Prog

variable {Y T R A : Type} [SerializedForm R]

section
variable (o : LawfulOptions T R)

/-- What the value serializer gives. -/
def Encoded (r : R) : Prop := ∃ v, r = o.encode v

/-- The nodes of the tree hold serialized values. -/
structure TypedTree (tree : Tree R) : Prop where
  wellFormed : tree.wellFormed = true
  encoded : ∀ q r, (tree.labelAt q).value = some r → Encoded o r

variable {o} in
theorem TypedTree.sameNodes {tree other : Tree R} (typed : TypedTree o tree)
    (same : other.SameNodes tree) (wellFormed : other.wellFormed = true) : TypedTree o other where
  wellFormed := wellFormed
  encoded q r stored := typed.encoded q r (same.labelAt q ▸ stored)

/-- A content that its key calls for. -/
structure TypedContent (key : String) (r : R) : Prop where
  parts : ∀ part ∈ splitKey key, part ≠ ""
  short : (splitKey key).length ≤ o.keyLevelNodes
  value : (splitKey key).length < o.keyLevelNodes → Encoded o r
  tree : TreeKey o key → ∃ tree, TypedTree o tree ∧ r = o.encodeTree tree

def TypedStore (w : World R) : Prop :=
  ∀ key entry, w.store key = some entry → TypedContent o key entry.content

/-! ## Trees -/

variable {o}

theorem TypedTree.empty : TypedTree o (Tree.empty : Tree R) := by
  refine ⟨rfl, fun q r held => ?_⟩
  rw [Tree.labelAt_empty] at held
  cases held

theorem TypedTree.child {tree child : Tree R} {key : String} (typed : TypedTree o tree)
    (found : tree.child key = some child) : TypedTree o child := by
  refine ⟨tree.wellFormed_child child key typed.wellFormed found, fun q r held => ?_⟩
  refine typed.encoded (key :: q) r ?_
  rw [Tree.labelAt_cons, found]
  exact held

/-- A tree with the same children. -/
theorem TypedTree.relabel {tree other : Tree R} (typed : TypedTree o tree)
    (children : other.children = tree.children) (value : ∀ r, other.value = some r → Encoded o r) :
    TypedTree o other := by
  refine ⟨?_, fun q r held => ?_⟩
  · have wellFormed := typed.wellFormed
    rw [Tree.wellFormed_iff] at wellFormed ⊢
    rwa [children]
  · cases q with
    | nil => exact value r held
    | cons key rest =>
        refine typed.encoded (key :: rest) r ?_
        rwa [Tree.labelAt_cons, Tree.child_eq_lookup, children, ← Tree.child_eq_lookup,
          ← Tree.labelAt_cons] at held

theorem TypedTree.value {tree : Tree R} (typed : TypedTree o tree) (r : R) (held : tree.value = some r) :
    Encoded o r := typed.encoded [] r held

theorem TypedTree.withValue {tree : Tree R} (typed : TypedTree o tree) {r : R} (encoded : Encoded o r) :
    TypedTree o (tree.withValue (some r)) := by
  refine typed.relabel (tree.withValue_children _) fun other held => ?_
  rw [Tree.withValue_value] at held
  obtain rfl := Option.some.inj held
  exact encoded

theorem TypedTree.withDeadline {tree : Tree R} (typed : TypedTree o tree) (deadline : Option ℚ) :
    TypedTree o (tree.withDeadline deadline) := by
  refine typed.relabel (tree.withDeadline_children _) fun r held => typed.value r ?_
  rwa [Tree.withDeadline_value] at held

/-- A child replaced or added. -/
theorem TypedTree.put {tree below : Tree R} (key : String) (typed : TypedTree o tree)
    (typedBelow : TypedTree o below) : TypedTree o
      (tree.withChildren (some (Entries.put key (some below) (tree.children.getD [])))) := by
  refine ⟨tree.wellFormed_withChildren_put tree below key typed.wellFormed typedBelow.wellFormed, ?_⟩
  intro q r held
  cases q with
  | nil =>
      rw [Tree.labelAt_nil, Tree.label_withChildren] at held
      exact typed.value r held
  | cons other rest =>
      rw [Tree.labelAt_cons, Tree.child_withChildren_put] at held
      split at held
      · exact typedBelow.encoded rest r held
      · rw [← Tree.child_eq_lookup, ← Tree.labelAt_cons] at held
        exact typed.encoded _ r held

/-- A missing children map that is created empty. -/
theorem TypedTree.opened {tree : Tree R} (typed : TypedTree o tree) :
    TypedTree o (tree.withChildren (some (tree.children.getD []))) := by
  have lookups : ∀ key, (tree.withChildren (some (tree.children.getD []))).child key = tree.child key := by
    intro key
    rw [Tree.child_eq_lookup, Tree.child_eq_lookup, Tree.withChildren_children]
    rfl
  refine ⟨?_, fun q r held => ?_⟩
  · have wellFormed := typed.wellFormed
    rw [Tree.wellFormed_iff] at wellFormed ⊢
    intro entries listed
    rw [Tree.withChildren_children, Option.some.injEq] at listed
    subst listed
    cases children : tree.children with
    | none => exact ⟨List.nodup_nil, fun _ _ member => (List.not_mem_nil member).elim⟩
    | some entries => exact wellFormed entries children
  · cases q with
    | nil =>
        rw [Tree.labelAt_nil, Tree.label_withChildren] at held
        exact typed.value r held
    | cons key rest =>
        rw [Tree.labelAt_cons, lookups, ← Tree.labelAt_cons] at held
        exact typed.encoded _ r held

theorem TypedTree.modifyAt {f : Tree R → Tree R} (keeps : ∀ tree, TypedTree o tree → TypedTree o (f tree)) :
    ∀ (path : List String) (tree : Tree R), TypedTree o tree → TypedTree o (tree.modifyAt f path) := by
  intro path
  induction path with
  | nil => exact fun tree typed => keeps tree typed
  | cons key rest ih =>
      intro tree typed
      rw [Tree.modifyAt]
      cases found : tree.child key with
      | none => exact typed
      | some child => exact typed.put key (ih child (typed.child found))

theorem TypedTree.sub : ∀ (path : List String) {tree node : Tree R}, TypedTree o tree →
    tree.sub path = some node → TypedTree o node := by
  intro path
  induction path with
  | nil =>
      intro tree node typed found
      obtain rfl := Option.some.inj found
      exact typed
  | cons key rest ih =>
      intro tree node typed found
      obtain ⟨child, here, below⟩ := Option.bind_eq_some_iff.mp found
      exact ih (typed.child here) below

/-- Pruning only takes away. -/
theorem TypedTree.pruned {tree : Tree R} (typed : TypedTree o tree) (now : ℚ)
    (parentRef : Option ChainedObject) : TypedTree o (pruneTree now tree parentRef).1 := by
  refine ⟨pruneTree_wellFormed now tree parentRef typed.wellFormed, fun q r held => ?_⟩
  rcases pruneTree_fades now tree parentRef typed.wellFormed q with same | ⟨cleared, _⟩
  · rw [same] at held
    exact typed.encoded q r held
  · rw [cleared] at held
    cases held

/-! ## Contents -/

theorem typedContent_value {path : List String} (proper : ∀ key ∈ path, ProperKey key)
    (nonempty : path ≠ []) (above : path.length < o.keyLevelNodes) (v : T) :
    TypedContent o (joinKeys path) (o.encode v) := by
  have parts := splitKey_joinKeys path nonempty fun key member => (proper key member).2
  refine ⟨?_, ?_, fun _ => ⟨v, rfl⟩, fun level => ?_⟩
  · rw [parts]
    exact fun part member => (proper part member).1
  · rw [parts]
    exact above.le
  · rw [TreeKey, parts] at level
    exact absurd level above.ne

theorem typedContent_tree {path : List String} (proper : ∀ key ∈ path, ProperKey key)
    (nonempty : path ≠ []) (level : path.length = o.keyLevelNodes) {tree : Tree R}
    (typed : TypedTree o tree) : TypedContent o (joinKeys path) (o.encodeTree tree) := by
  have parts := splitKey_joinKeys path nonempty fun key member => (proper key member).2
  refine ⟨?_, ?_, fun above => ?_, fun _ => ⟨tree, typed, rfl⟩⟩
  · rw [parts]
    exact fun part member => (proper part member).1
  · rw [parts]
    exact level.le
  · rw [parts] at above
    exact absurd level above.ne

/-- What is decoded is what was encoded. -/
theorem TypedContent.decoded {key : String} {r : R} (typed : TypedContent o key r)
    (treeKey : TreeKey o key) {tree : Tree R} (decoded : o.treeSerializer.deserialize r = .ok tree) :
    TypedTree o tree := by
  obtain ⟨stored, typedTree, rfl⟩ := typed.tree treeKey
  obtain ⟨read, decoded', same⟩ := o.deserialize_tree stored typedTree.wellFormed
  obtain rfl := Except.ok.inj (decoded'.symm.trans decoded)
  exact typedTree.sameNodes same (o.treeSerializer.deserialize_wellFormed _ _ decoded)

theorem typed_decodeRoot {key : String} {content : Option R} (treeKey : TreeKey o key)
    (typed : ∀ r, content = some r → TypedContent o key r) {tree : Tree R}
    (decoded : decodeRoot o.toOptions content = .ok tree) : TypedTree o tree := by
  rw [decodeRoot] at decoded
  cases buffer : truthy? content with
  | none =>
      simp only [buffer] at decoded
      obtain rfl := Except.ok.inj decoded
      exact TypedTree.empty
  | some r =>
      simp only [buffer] at decoded
      exact (typed r (Option.filter_eq_some_iff.mp buffer).1).decoded treeKey decoded

/-! ## The contract -/

variable (o)

def storageContract : Contract Unit R where
  hears _ key content := ∀ r, content = some r → TypedContent o key r
  learns s _ _ := s
  stores _ key value _ := TypedContent o key value
  registers _ _ _ := True
  registered s _ _ := s

theorem storageContract_upholds : (storageContract o).Upholds (TypedStore o) fun _ _ => True where
  hears w _ key typed _ r read := by
    obtain ⟨expiry, stored, _⟩ := w.exists_entry w.clock key r read
    exact typed key _ stored
  learns _ _ _ _ _ := trivial
  acts w _ event typed _ permitted := by
    refine ⟨?_, trivial⟩
    cases event with
    | acquired key => exact typed
    | released key => exact typed
    | registered parent child => exact typed
    | stored key value ttl =>
        intro other entry stored
        by_cases same : other = key
        · rw [same] at stored ⊢
          obtain rfl := Option.some.inj ((w.store_write_self key value ttl).symm.trans stored)
          exact permitted
        · exact typed other entry ((w.store_write_of_ne value ttl same).symm.trans stored)
  others _ _ _ _ _ _ _ _ := trivial
  clock _ _ _ typed := ⟨typed, fun _ _ => trivial⟩

section
variable {o} {s : Unit}

/-- A program that changes nothing and returns `P`. -/
theorem Prog.Quiet.typed {B : Type} {P : A → Prop} {p : Prog Y T R A} {f : A → Prog Y T R B}
    {post : Unit → B → Prop} (quiet : p.Quiet) (returns : p.Returns P)
    (second : ∀ a, P a → (f a).Ensures (storageContract o) (onOk post) s) :
    (p >>= f).Ensures (storageContract o) (onOk post) s :=
  Ensures.bindOk (fun _ a => P a)
    ((quiet.ensures returns fun _ _ => rfl).monoOk fun _ _ reached => reached.2)
    fun _ a holds => second a holds

theorem typed_storageGet {B : Type} {key : String} {f : Option R → Prog Y T R B}
    {post : Unit → B → Prop} (second : ∀ content, (∀ r, content = some r → TypedContent o key r) →
      (f content).Ensures (storageContract o) (onOk post) s) :
    (storageGet key >>= f).Ensures (storageContract o) (onOk post) s :=
  ⟨fun content heard => second content heard, fun e => ensures_ret fun _ failed => by cases failed⟩

theorem typed_storageSet {key : String} {value : R} {ttl : Option ℚ} (typed : TypedContent o key value) :
    (storageSet key value ttl : Prog Y T R Unit).Ensures (storageContract o) (onOk fun _ _ => True) s :=
  ⟨typed, fun _ _ _ => trivial⟩

theorem typed_storageRegister {B : Type} {parent : Option String} {child : String}
    {f : Unit → Prog Y T R B} {post : Unit → B → Prop}
    (second : (f ()).Ensures (storageContract o) (onOk post) s) :
    (storageRegister parent child >>= f).Ensures (storageContract o) (onOk post) s :=
  ⟨trivial, second, fun e => ensures_ret fun _ failed => by cases failed⟩

theorem persistStep_typed (step : Step T) (current : Option R) (key : String) (ttl : Option (StepTtl T))
    (typed : ∀ v, TypedContent o key (o.encode v)) :
    (persistStep o.toOptions step current key ttl : Prog Y T R Unit).Ensures (storageContract o)
      (onOk fun _ _ => True) s := by
  unfold persistStep
  rw [o.given_eq]
  cases step.value with
  | none => exact ensures_pure trivial
  | some value =>
      simp only [o.serialize_value, Prog.ret_ok_bind]
      split
      · exact typed_storageSet (typed value)
      · exact ensures_pure trivial

theorem persistTree_typed (key : String) (ttl : Option ℚ) (tree : Tree R)
    (typed : TypedContent o key (o.encodeTree tree)) :
    (persistTree o.toOptions key ttl tree : Prog Y T R Unit).Ensures (storageContract o)
      (onOk fun _ _ => True) s := by
  unfold persistTree
  simp only [o.serialize_tree, Prog.ret_ok_bind, Prog.pure_eq]
  split
  · exact (quiet_storageTtl key).typed returns_any fun current _ => typed_storageSet typed
  · exact typed_storageSet typed

/-! ## Writing along a path -/

theorem enrichTree_typed {step : Step T} {current : Option R} {tree : Tree R} {ttl : Option (StepTtl T)}
    {now : ℚ} {maxTtl : Option ℚ} (typed : TypedTree o tree) {result : Enriched R}
    (enriches : enrichTree o.toOptions step current tree ttl now maxTtl = .ok result) :
    TypedTree o result.tree := by
  unfold enrichTree at enriches
  rw [o.given_eq] at enriches
  cases value : step.value with
  | none =>
      simp only [value] at enriches
      obtain rfl := Except.ok.inj enriches
      exact typed
  | some v =>
      have valued := typed.withValue ⟨v, rfl⟩
      simp only [value, o.serialize_value, Bind.bind, Except.bind, pure, Except.pure] at enriches
      split at enriches
      · split at enriches
        · obtain rfl := Except.ok.inj enriches
          exact valued.withDeadline _
        · split at enriches
          · obtain rfl := Except.ok.inj enriches
            exact valued.withDeadline _
          · obtain rfl := Except.ok.inj enriches
            exact valued
      · obtain rfl := Except.ok.inj enriches
        exact typed

omit [SerializedForm R] in
theorem lookup_of_readChild {entries : TreeChildren R} {key : String} {tree : Tree R}
    (own : readChild entries key = .own tree) : entries.lookup key = some (some tree) := by
  unfold readChild at own
  split at own
  · rename_i found
    rw [found, ChildRead.own.inj own]
  · cases own
  · split at own
    · cases own
    · cases own

omit [SerializedForm R] in
theorem returns_ret {P : A → Prop} {result : Except Err A} (holds : ∀ a, result = .ok a → P a) :
    (Prog.ret result : Prog Y T R A).Returns P := holds

variable (path : List String) (createValue : Option (CreateValue T)) (ttl : Option (StepTtl T))

theorem treeLevels_typed (now : ℚ) : ∀ (n level : Nat) (key : String)
    (parentRef : Option ChainedObject) (tree : Tree R) (maxTtl : Option ℚ), TypedTree o tree →
      (treeLevels o.toOptions path createValue ttl now n level key parentRef tree maxTtl).Returns
        fun result => TypedTree o result.tree := by
  intro n
  induction n with
  | zero =>
      intro level key parentRef tree maxTtl typed
      unfold treeLevels
      refine Returns.bind returns_any fun found _ => ?_
      exact returns_ret fun result enriches => enrichTree_typed typed enriches
  | succ n ih =>
      intro level key parentRef tree maxTtl typed
      unfold treeLevels
      refine Returns.bind returns_any fun found _ => ?_
      refine Returns.bind (P := fun here => TypedTree o here.tree)
        (returns_ret fun result enriches => enrichTree_typed typed enriches) fun here typedHere => ?_
      refine Returns.bind returns_any fun nextKey _ => ?_
      dsimp only
      split
      · rename_i next own
        refine Returns.bind (ih _ _ _ next _ ?_) fun below typedBelow => ?_
        · have found : here.tree.child nextKey = some next := by
            rw [Tree.child_eq_lookup, lookup_of_readChild own]
            rfl
          exact typedHere.child found
        · exact returns_ret fun result same => Except.ok.inj same ▸ typedHere.put _ typedBelow
      · refine Returns.bind (ih _ _ _ _ _ TypedTree.empty) fun below typedBelow => ?_
        exact returns_ret fun result same => Except.ok.inj same ▸ typedHere.put _ typedBelow
      · refine Returns.bind (ih _ _ _ _ _ TypedTree.empty) fun below _ => ?_
        exact returns_ret fun result same => Except.ok.inj same ▸ typedHere.opened

variable {path} (minLevelSemaphore : Nat)

/-- The cursor is `n` levels down the path. -/
structure CursorAt (path : List String) (n : Nat) (cursor : Cursor) : Prop where
  level : cursor.currentLevel = n
  chained : cursor.chainedKey = prefixKey path n

theorem keyLevel_typed (proper : ∀ key ∈ path, ProperKey key) (n : Nat) (bound : n < path.length)
    (above : n + 1 < o.keyLevelNodes) (cursor : Cursor) (at_n : CursorAt path n cursor) :
    (keyLevel o.toOptions path createValue ttl minLevelSemaphore cursor).Ensures (storageContract o)
      (onOk fun _ next => CursorAt path (n + 1) next) s := by
  have found : path[n]? = some path[n] := List.getElem?_eq_getElem bound
  have chained := getChainedKey_prefix path n path[n] (fun key member => (proper key member).1) found
  have shorter : (path.take (n + 1)).length = n + 1 := by
    rw [List.length_take]
    omega
  have typed : ∀ v, TypedContent o (joinKeys (path.take (n + 1))) (o.encode v) :=
    typedContent_value (fun key member => proper key (List.mem_of_mem_take member))
      (take_ne_nil path n bound) (by omega)
  unfold keyLevel
  rw [at_n.level, at_n.chained, chained]
  simp only [Prog.ret_ok_bind]
  refine typed_storageRegister ?_
  apply Ensures.locked
  refine typed_storageGet fun currentSerialized _ => ?_
  refine (quiet_ret _).typed returns_any fun step _ => ?_
  refine (quiet_yieldItem _).typed returns_any fun value _ => ?_
  refine Ensures.bindOk (fun _ _ => True) (persistStep_typed _ _ _ ttl typed) fun _ _ _ => ?_
  exact ensures_pure ⟨rfl, rfl⟩

theorem keyLevels_typed (proper : ∀ key ∈ path, ProperKey key) :
    ∀ (count n : Nat) (cursor : Cursor), n + count ≤ path.length → n + count < o.keyLevelNodes →
      CursorAt path n cursor →
      (keyLevels o.toOptions path createValue ttl minLevelSemaphore count cursor).Ensures
        (storageContract o) (onOk fun _ next => CursorAt path (n + count) next) s := by
  intro count
  induction count with
  | zero => exact fun n cursor _ _ at_n => ensures_pure at_n
  | succ count ih =>
      intro n cursor bound above at_n
      refine Ensures.bindOk (fun _ next => CursorAt path (n + 1) next)
        (keyLevel_typed createValue ttl minLevelSemaphore proper n (by omega) (by omega) cursor at_n) ?_
      intro _ next descended
      have rest := ih (n + 1) next (by omega) (by omega) descended
      rwa [Nat.add_right_comm, Nat.add_assoc] at rest

theorem treeLevel_typed (proper : ∀ key ∈ path, ProperKey key) (n : Nat) (bound : n < path.length)
    (level : n + 1 = o.keyLevelNodes) (now : ℚ) (cursor : Cursor) (at_n : CursorAt path n cursor) :
    (treeLevel o.toOptions path createValue ttl minLevelSemaphore now cursor).Ensures
      (storageContract o) (onOk fun _ _ => True) s := by
  have found : path[n]? = some path[n] := List.getElem?_eq_getElem bound
  have chained := getChainedKey_prefix path n path[n] (fun key member => (proper key member).1) found
  have properPrefix : ∀ key ∈ path.take (n + 1), ProperKey key := fun key member =>
    proper key (List.mem_of_mem_take member)
  have nonempty := take_ne_nil path n bound
  have length : (path.take (n + 1)).length = o.keyLevelNodes := by
    rw [List.length_take]
    omega
  have treeKey : TreeKey o (joinKeys (path.take (n + 1))) := by
    rw [TreeKey, splitKey_joinKeys _ nonempty fun key member => (properPrefix key member).2, length]
  unfold treeLevel
  rw [at_n.level, at_n.chained, chained]
  simp only [Prog.ret_ok_bind]
  apply Ensures.locked
  refine typed_storageGet fun buffer heard => ?_
  refine (quiet_ret _).typed (P := TypedTree o)
    (returns_ret fun tree decoded => typed_decodeRoot treeKey heard decoded) fun rootTree typed => ?_
  refine (treeLevels_quiet o.toOptions createValue ttl now _ _ _ _ _ _).typed
    (treeLevels_typed path createValue ttl now _ _ _ _ _ _ typed) fun result typedResult => ?_
  split
  · exact persistTree_typed _ _ _ (typedContent_tree properPrefix nonempty length typedResult)
  · exact ensures_pure trivial

theorem deepTreeSet_typed (positive : 1 ≤ o.keyLevelNodes) (proper : ∀ key ∈ path, ProperKey key) :
    (deepTreeSet o.toOptions path createValue ttl [] minLevelSemaphore).Ensures (storageContract o)
      (onOk fun _ _ => True) s := by
  unfold deepTreeSet
  refine quiet_now.typed returns_any fun now _ => ?_
  refine Ensures.bindOk (fun _ cursor => CursorAt path (min (o.keyLevelNodes - 1) path.length) cursor) ?_ ?_
  · have above : 0 + min (o.keyLevelNodes - 1) path.length < o.keyLevelNodes := by omega
    have levels := keyLevels_typed (s := s) createValue ttl minLevelSemaphore proper
      (min (o.keyLevelNodes - 1) path.length) 0 ⟨0, none, none⟩ (by omega) above ⟨rfl, rfl⟩
    rw [Nat.zero_add] at levels
    exact levels
  · intro _ cursor descended
    by_cases deep : cursor.currentLevel < path.length
    · rw [if_pos deep]
      rw [descended.level] at deep
      have level : min (o.keyLevelNodes - 1) path.length = o.keyLevelNodes - 1 := by omega
      rw [level] at descended
      split
      · exact ensures_ret fun _ failed => by cases failed
      · exact treeLevel_typed createValue ttl minLevelSemaphore proper (o.keyLevelNodes - 1)
          (by omega) (by omega) now cursor descended
    · rw [if_neg deep]
      exact ensures_pure trivial

theorem setNode_typed (positive : 1 ≤ o.keyLevelNodes) (proper : ∀ key ∈ path, ProperKey key)
    (value : Option (NodeValue T)) : (setNode o.toOptions path value ttl).Ensures (storageContract o)
      (onOk fun _ _ => True) s := by
  unfold setNode
  cases value.filter fun value => !value.isNull o.toOptions with
  | none => exact ensures_pure trivial
  | some value =>
      apply Ensures.forAwait
      exact deepTreeSet_typed _ ttl path.length positive proper

/-! ## Writing a whole tree -/

variable (o) in
def TypedMemory (memory : Memory R) : Prop := ∀ object, TypedTree o (memory object)

theorem TypedMemory.start {rootTree : Tree R} (typed : TypedTree o rootTree) :
    TypedMemory o (Memory.start rootTree) := by
  intro object
  cases object with
  | none => exact typed
  | some name => exact TypedTree.empty

theorem TypedMemory.nodeAt {memory : Memory R} (typed : TypedMemory o memory) (place : Place) :
    TypedTree o (memory.nodeAt place) := by
  unfold Memory.nodeAt
  cases found : (memory place.object).sub place.path with
  | none => exact TypedTree.empty
  | some node => exact (typed place.object).sub place.path found

theorem TypedMemory.modify {memory : Memory R} (typed : TypedMemory o memory) (place : Place)
    {f : Tree R → Tree R} (keeps : ∀ tree, TypedTree o tree → TypedTree o (f tree)) :
    TypedMemory o (memory.modify place f) := by
  intro object
  unfold Memory.modify
  by_cases same : object = place.object
  · rw [same, Function.update_self]
    exact TypedTree.modifyAt keeps place.path _ (typed place.object)
  · rw [Function.update_of_ne same]
    exact typed object

/-- The children map of another typed tree. -/
theorem TypedTree.adopt {tree top : Tree R} {children : TreeChildren R} (typedTop : TypedTree o top)
    (typed : TypedTree o (tree.withChildren (some children))) :
    TypedTree o (top.withChildren (some children)) := by
  refine typed.relabel ?_ fun r held => typedTop.value r ?_
  · rw [Tree.withChildren_children, Tree.withChildren_children]
  · rwa [Tree.withChildren_value] at held

theorem createNode_typed {value : Option T} {tree : Tree R}
    (created : createNode o.toOptions value = .ok tree) : TypedTree o tree := by
  unfold createNode at created
  cases value with
  | none =>
      obtain rfl := Except.ok.inj created
      exact TypedTree.empty
  | some v =>
      simp only [o.serialize_value, Bind.bind, Except.bind, pure, Except.pure, Except.ok.injEq] at created
      rw [← created]
      exact TypedTree.empty.withValue ⟨v, rfl⟩

theorem enterChild_typed {create : CreateValue T} {depthNode : TraversalItem T} {st next : Saving R}
    (typed : TypedMemory o st.memory)
    (entered : enterChild o.toOptions create depthNode st = .ok next) : TypedMemory o next.memory := by
  unfold enterChild at entered
  cases above : st.stack (depthNode.ref.level - 1) with
  | none => simp [above] at entered
  | some parent =>
      have node := typed.nodeAt parent
      have opened : TypedMemory o (st.memory.modify parent fun tree => tree.withChildren
          (some ((st.memory.nodeAt parent).children.getD []))) :=
        typed.modify parent fun top typedTop => typedTop.adopt node.opened
      simp only [above] at entered
      split at entered
      · obtain rfl := Except.ok.inj entered
        exact opened
      · obtain rfl := Except.ok.inj entered
        exact opened
      · cases value : create depthNode.ref with
        | error e => simp [value, Bind.bind, Except.bind] at entered
        | ok v =>
            cases created : createNode o.toOptions v with
            | error e => simp [value, created, Bind.bind, Except.bind] at entered
            | ok tree =>
                simp only [value, o.given_eq, created, Bind.bind, Except.bind, pure, Except.pure,
                  Except.ok.injEq] at entered
                subst entered
                exact typed.modify parent fun top typedTop =>
                  typedTop.adopt (node.put _ (createNode_typed created))

variable (create : CreateValue T)

theorem saveItem_typed (now : ℚ) (rootLevel : Nat) (depthNode : TraversalItem T) (st : Saving R)
    (typed : TypedMemory o st.memory) :
    (saveItem o.toOptions create ttl now rootLevel depthNode st).Returns
      fun next => TypedMemory o next.memory := by
  unfold saveItem
  refine Returns.bind (P := fun next => TypedMemory o next.memory)
    (returns_ret fun next entered => ?_) fun next typedNext => ?_
  · split at entered
    · obtain rfl := Except.ok.inj entered
      exact typed
    · exact enterChild_typed typed entered
  · refine Returns.bind returns_any fun value _ => ?_
    refine Returns.bind (P := fun changed => ∀ r, changed = some r → Encoded o r)
      (returns_ret fun changed checked => ?_) fun changed encoded => ?_
    · rintro r rfl
      unfold checkFullSetItemChange at checked
      dsimp only at checked
      cases value with
      | none => cases checked
      | some v =>
          simp only [o.serialize_value, Bind.bind, Except.bind, pure, Except.pure,
            Except.ok.injEq] at checked
          split at checked
          · exact ⟨v, (Option.some.inj checked).symm⟩
          · cases checked
    · cases changed with
      | none => exact returns_ret fun next same => Except.ok.inj same ▸ typedNext
      | some serialized =>
          refine returns_ret fun next same => ?_
          obtain rfl := Except.ok.inj same
          exact typedNext.modify _ fun tree typedTree => typedTree.withValue (encoded serialized rfl)

theorem saveItems_typed (now : ℚ) (rootLevel : Nat) : ∀ (items : List (TraversalItem T)) (st : Saving R),
    TypedMemory o st.memory → (saveItems o.toOptions create ttl now rootLevel items st).Returns
      fun next => TypedMemory o next.memory := by
  intro items
  induction items with
  | nil => exact fun st typed => returns_ret fun next same => Except.ok.inj same ▸ typed
  | cons item rest ih =>
      intro st typed
      exact Returns.bind (saveItem_typed ttl create now rootLevel item st typed) fun next => ih next

theorem registerChildren_typed (chainedKey : String) : ∀ children : TreeChildren T,
    (registerChildren chainedKey children : Prog Y T R Unit).Ensures (storageContract o)
      (onOk fun _ _ => True) s := by
  intro children
  induction children with
  | nil => exact ensures_pure trivial
  | cons first rest ih => exact typed_storageRegister ih

theorem fullTreeSetNode_typed {depth : Nat} (item : TraversalItem T)
    (spelled : item.Spelled properTest depth) (above : item.ref.level ≤ o.keyLevelNodes) :
    (fullTreeSetNode o.toOptions create minLevelSemaphore ttl item).Ensures (storageContract o)
      (onOk fun _ _ => True) s := by
  have proper : ∀ key ∈ item.ref.keys, ProperKey key := fun key member =>
    of_decide_eq_true (spelled.keys key member)
  have nonempty := item.ref.keys_ne_nil
  unfold fullTreeSetNode
  simp only [Prog.pure_eq]
  apply Ensures.locked
  rw [buildKey_eq]
  split
  · rename_i level
    rw [spelled.level] at level
    have treeKey : TreeKey o (joinKeys item.ref.keys) := by
      rw [TreeKey, splitKey_joinKeys _ nonempty fun key member => (proper key member).2, level]
    unfold saveFullTreeValue
    refine quiet_now.typed returns_any fun now _ => ?_
    refine typed_storageGet fun serializedTree heard => ?_
    refine (quiet_ret _).typed (P := TypedTree o)
      (returns_ret fun tree decoded => typed_decodeRoot treeKey heard decoded) fun rootTree typed => ?_
    refine quiet_now.typed returns_any fun traversalNow _ => ?_
    refine (saveItems_quiet o.toOptions create ttl now _ _ _).typed
      (saveItems_typed ttl create now _ _ _ (TypedMemory.start typed)) fun last typedLast => ?_
    split
    · exact persistTree_typed _ _ _ (typedContent_tree proper nonempty level (typedLast none))
    · exact ensures_pure trivial
  · rename_i other
    rw [spelled.level] at other above
    unfold saveKeyLevelValue registerKeyLevelChildren
    refine Ensures.bindOk (fun _ _ => True) (registerChildren_typed _ _) fun _ _ _ => ?_
    refine typed_storageGet fun currentSerialized _ => ?_
    refine (quiet_ret _).typed returns_any fun old _ => ?_
    refine (quiet_yieldItem _).typed returns_any fun value _ => ?_
    exact persistStep_typed _ _ _ ttl (typedContent_value proper nonempty (by omega))

theorem fullTreeSetNodes_typed {depth : Nat} : ∀ items : List (TraversalItem T),
    (∀ item ∈ items, item.Spelled properTest depth) →
    (fullTreeSetNodes o.toOptions create minLevelSemaphore ttl items).Ensures (storageContract o)
      (onOk fun _ _ => True) s := by
  intro items
  induction items with
  | nil => exact fun _ => ensures_pure trivial
  | cons item rest ih =>
      intro spelled
      unfold fullTreeSetNodes
      by_cases below : o.keyLevelNodes < item.ref.level
      · rw [if_pos below]
        exact ensures_pure trivial
      · rw [if_neg below]
        refine Ensures.bindOk (fun _ _ => True) (fullTreeSetNode_typed ttl minLevelSemaphore create item
          (spelled item List.mem_cons_self) (by omega)) fun _ _ _ => ?_
        exact ih fun other member => spelled other (List.mem_cons_of_mem _ member)

theorem fullTreeSet_typed (tree : Tree T) (proper : tree.allKeys properTest = true) :
    (fullTreeSet o.toOptions tree create minLevelSemaphore ttl).Ensures (storageContract o)
      (onOk fun _ _ => True) s := by
  unfold fullTreeSet
  refine quiet_now.typed returns_any fun now _ => ?_
  exact fullTreeSetNodes_typed ttl minLevelSemaphore create _ fun item listed =>
    treePreOrderTraversal_spelled .fifo now tree properTest proper item listed

end

end

/-! ## The storage at every moment -/

section
variable (o : LawfulOptions T R)

theorem WriterCall.typed (positive : 1 ≤ o.keyLevelNodes) (call : WriterCall T R)
    (proper : call.ProperKeys) :
    (call.thread o.toOptions).prog.Ensures (storageContract o) (fun _ _ => True) () := by
  cases call with
  | setNode path value ttl =>
      exact ((setNode_typed ttl positive proper value).mono fun _ _ _ => trivial).mapItem _
  | deepTreeSet path createValue ttl minLevelSemaphore consumer =>
      exact ((deepTreeSet_typed createValue ttl minLevelSemaphore positive proper).mono
        fun _ _ _ => trivial).forAwait.mapItem _
  | fullTreeSet tree createValue minLevelSemaphore ttl consumer =>
      exact ((fullTreeSet_typed ttl minLevelSemaphore createValue tree proper).mono
        fun _ _ _ => trivial).forAwait.mapItem _

variable {o} in
theorem TypedStore.content {w : World R} (typed : TypedStore o w) {key : String} {r : R}
    (read : w.read key = some r) : TypedContent o key r := by
  obtain ⟨expiry, stored, _⟩ := w.exists_entry w.clock key r read
  exact typed key _ stored

variable {o} in
/-- A node of a typed storage holds a serialized value. -/
theorem TypedStore.encoded {w : World R} (typed : TypedStore o w) {now : ℚ} {path : List String}
    (nonempty : path ≠ []) (positive : 1 ≤ o.keyLevelNodes)
    (proper : ∀ key ∈ path.take o.keyLevelNodes, ProperKey key) {r : R}
    (held : serializedAt o.toOptions w.read now path = some r) : Encoded o r := by
  rw [serializedAt] at held
  split at held
  · rename_i above
    have content := typed.content (Option.filter_eq_some_iff.mp held).1
    refine content.value ?_
    rw [List.take_of_length_le above.le] at proper
    rwa [splitKey_joinKeys path nonempty fun key member => (proper key member).2]
  · rename_i deep
    have length : (path.take o.keyLevelNodes).length = o.keyLevelNodes :=
      List.length_take_of_le (Nat.le_of_not_lt deep)
    have treeKey : TreeKey o (joinKeys (path.take o.keyLevelNodes)) := by
      rw [TreeKey, splitKey_joinKeys _ (List.length_pos_iff.mp (by omega)) fun key member =>
        (proper key member).2]
      exact length
    obtain ⟨tree, found, value⟩ := Option.bind_eq_some_iff.mp held
    obtain ⟨content, stored, decoded⟩ := Option.bind_eq_some_iff.mp found
    have typedTree : TypedTree o tree := by
      refine (typed.content (Option.filter_eq_some_iff.mp stored).1).decoded treeKey ?_
      rw [deserializeTree] at decoded
      split at decoded
      · rename_i same
        exact same.trans (congrArg Except.ok (Option.some.inj decoded))
      · cases decoded
    refine typedTree.encoded (path.drop o.keyLevelNodes) r ?_
    rw [Tree.valueAt_eq_live, Label.live] at value
    split at value
    · exact value
    · split at value
      · exact value
      · cases value

end

/-- A number whose deadline has passed, under `a:b`. -/
def expiredTree : Tree String := .mk (some (Text.encodeNat 1)) (some 5) none

def typedWorld : World String :=
  ⟨fun key => if key = "a:b" then some ⟨Text.encodeTree expiredTree, none⟩ else none, 9,
    [(none, "a"), (some "a", "b")]⟩

theorem typedStore_typedWorld : TypedStore (Text.options 2) typedWorld := by
  intro key entry stored
  have parts := splitKey_joinKeys ["a", "b"] (by decide) (by decide)
  have name : joinKeys ["a", "b"] = "a:b" := by decide +kernel
  rw [name] at parts
  rw [typedWorld] at stored
  dsimp only at stored
  split at stored
  · rename_i same
    subst same
    obtain rfl := Option.some.inj stored
    refine ⟨by rw [parts]; decide, by rw [parts]; decide, fun above => ?_, fun _ => ⟨expiredTree, ?_, rfl⟩⟩
    · rw [parts] at above
      exact absurd above (by decide)
    · refine ⟨rfl, fun q r held => ?_⟩
      cases q with
      | nil => exact ⟨1, (Option.some.inj held).symm⟩
      | cons key rest => cases held
  · cases stored

end TreeKeyCache
