import TreeKeyCache.KeyLifetimes
import TreeKeyCache.NodeLifetimes

/-! # Histories of timed calls

Sequences of `setNode`, `deepTreeSet`, `fullTreeSet` and `prune` calls at non-decreasing
times.  As long as every call with a ttl finds a tree whose nodes it does not condemn, no
key expires before a node of its tree. -/
set_option autoImplicit false
namespace TreeKeyCache

variable {T R : Type} [SerializedForm R]

/-! ## Trees under construction -/

section
omit [SerializedForm R]

theorem Tree.wellFormed_modifyAt (f : Tree R → Tree R)
    (keeps : ∀ tree, tree.wellFormed = true → (f tree).wellFormed = true) :
    ∀ (path : List String) (tree : Tree R), tree.wellFormed = true →
      (tree.modifyAt f path).wellFormed = true := by
  intro path
  induction path with
  | nil => exact fun tree wellFormed => keeps tree wellFormed
  | cons key rest ih =>
      intro tree wellFormed
      rw [modifyAt]
      cases found : tree.child key with
      | none => exact wellFormed
      | some child =>
          have below := ih child (tree.wellFormed_child child key wellFormed found)
          exact tree.wellFormed_withChildren_put tree _ key wellFormed below

def Memory.WellFormed (memory : Memory R) : Prop := ∀ object, (memory object).wellFormed = true

theorem Memory.WellFormed.start {rootTree : Tree R} (wellFormed : rootTree.wellFormed = true) :
    (Memory.start rootTree).WellFormed := by
  intro object
  cases object with
  | none => exact wellFormed
  | some name => rfl

theorem Memory.WellFormed.nodeAt {memory : Memory R} (wellFormed : memory.WellFormed)
    (place : Place) : (memory.nodeAt place).wellFormed = true := by
  unfold Memory.nodeAt
  cases found : (memory place.object).sub place.path with
  | none => rfl
  | some node => exact Tree.wellFormed_sub place.path _ node (wellFormed place.object) found

theorem Memory.WellFormed.modify {memory : Memory R} (wellFormed : memory.WellFormed) (place : Place)
    {f : Tree R → Tree R} (keeps : ∀ tree, tree.wellFormed = true → (f tree).wellFormed = true) :
    (memory.modify place f).WellFormed := by
  intro object
  unfold Memory.modify
  by_cases same : object = place.object
  · rw [same, Function.update_self]
    exact Tree.wellFormed_modifyAt f keeps place.path _ (wellFormed place.object)
  · rw [Function.update_of_ne same]
    exact wellFormed object

end

omit [SerializedForm R] in
theorem createNode_wellFormed (o : Options T R) (value : Option T) (tree : Tree R)
    (created : createNode o value = .ok tree) : tree.wellFormed = true := by
  unfold createNode at created
  cases value with
  | none =>
      obtain rfl := Except.ok.inj created
      rfl
  | some value =>
      cases serialized : o.valueSerializer.serialize value with
      | error e => simp [serialized, bind, Except.bind] at created
      | ok r =>
          simp only [serialized, bind, Except.bind, pure, Except.pure, Except.ok.injEq] at created
          rw [← created]
          rfl

/-- No ttl so far, and trees in memory. -/
structure Untimed (st : Saving R) : Prop where
  memory : st.memory.WellFormed
  maxTtl : st.maxTtl = none

omit [SerializedForm R] in
theorem enterChild_untimed (o : Options T R) (createValue : CreateValue T)
    (depthNode : TraversalItem T) (st next : Saving R) (untimed : Untimed st)
    (entered : enterChild o createValue depthNode st = .ok next) : Untimed next := by
  unfold enterChild at entered
  cases above : st.stack (depthNode.ref.level - 1) with
  | none => simp [above] at entered
  | some parent =>
      have node := untimed.memory.nodeAt parent
      have opened : (st.memory.modify parent fun tree => tree.withChildren
          (some ((st.memory.nodeAt parent).children.getD []))).WellFormed := by
        refine untimed.memory.modify parent fun tree _ => ?_
        rw [Tree.wellFormed_iff] at node ⊢
        intro entries listed
        rw [Tree.withChildren_children, Option.some.injEq] at listed
        subst listed
        cases children : (st.memory.nodeAt parent).children with
        | none => exact ⟨List.nodup_nil, fun _ _ member => (nomatch member)⟩
        | some entries => exact node entries children
      simp only [above] at entered
      split at entered
      · obtain rfl := Except.ok.inj entered
        exact ⟨opened, untimed.maxTtl⟩
      · obtain rfl := Except.ok.inj entered
        exact ⟨opened, untimed.maxTtl⟩
      · cases value : createValue depthNode.ref with
        | error e => simp [value, bind, Except.bind] at entered
        | ok v =>
            cases created : createNode o (o.given v) with
            | error e => simp [value, created, bind, Except.bind] at entered
            | ok tree =>
                simp only [value, created, bind, Except.bind, pure, Except.pure,
                  Except.ok.injEq] at entered
                subst entered
                refine ⟨untimed.memory.modify parent fun top _ => ?_, untimed.maxTtl⟩
                exact (st.memory.nodeAt parent).wellFormed_withChildren_put top tree _ node
                  (createNode_wellFormed o (o.given v) tree created)

/-! ## Writing a whole tree without a ttl -/

open Prog

/-- Trees are stored for good. -/
def untimedMonitor (o : LawfulOptions T R) : Monitor Unit R where
  permits _ event := match event with
    | .stored key value ttl => TreeKey o key →
        ttl = none ∧ ∃ tree : Tree R, tree.wellFormed = true ∧ value = o.encodeTree tree
    | _ => True
  after s _ := s

theorem untimedMonitor_lockBlind (o : LawfulOptions T R) : LockBlind (untimedMonitor o) :=
  ⟨fun _ _ => trivial, fun _ _ => trivial, fun _ _ => rfl, fun _ _ => rfl⟩

theorem untimedMonitor_tracks (o : LawfulOptions T R) :
    Tracks (untimedMonitor o) fun w _ => Lasting o w where
  stored w _ key value ttl lasting permitted := by
    refine lasting.change rfl fun other entry treeKey stored => ?_
    by_cases same : other = key
    · subst same
      obtain ⟨rfl, tree, wellFormed, rfl⟩ := permitted treeKey
      have written : (w.write other (o.encodeTree tree) none).store other =
          some ⟨o.encodeTree tree, none⟩ := Function.update_self _ _ _
      rw [written] at stored
      obtain rfl := Option.some.inj stored
      exact Or.inr ⟨fun r buffer => (decodes_encodeTree o tree wellFormed r buffer).imp fun _ => And.left,
        fun keys => Label.within_permanent _ _⟩
    · have untouched : (w.write key value ttl).store other = w.store other :=
        Function.update_of_ne same _ _
      rw [untouched] at stored
      exact Or.inl stored
  registered w _ parent child lasting _ := lasting.change rfl fun _ _ _ stored => Or.inl stored
  acquired _ _ _ lasting := lasting
  released _ _ _ lasting := lasting

section
variable {Y : Type} (o : LawfulOptions T R) (ttl : Option (StepTtl T))

theorem persistStep_untimed (step : Step T) (current : Option R) (key : String)
    (keyLevel : ¬ TreeKey o key) :
    (persistStep o.toOptions step current key ttl : Prog Y T R Unit).Obeys (untimedMonitor o)
      (onOk fun _ _ => True) () := by
  unfold persistStep
  cases o.given step.value with
  | none => exact obeys_pure trivial
  | some value =>
      refine (quiet_ret _).thenOk fun serialized => ?_
      split
      · exact obeys_storageSet (fun treeKey => absurd treeKey keyLevel) trivial
      · exact obeys_pure trivial

theorem registerChildren_untimed (chainedKey : String) : ∀ children : TreeChildren T,
    (registerChildren chainedKey children : Prog Y T R Unit).Obeys (untimedMonitor o)
      (onOk fun _ _ => True) () := by
  intro children
  induction children with
  | nil => exact obeys_pure trivial
  | cons first rest ih =>
      exact Obeys.bindOk (fun _ _ => True) (obeys_storageRegister trivial trivial) fun _ _ _ => ih

theorem persistTree_untimed (key : String) (tree : Tree R) (wellFormed : tree.wellFormed = true) :
    (persistTree o.toOptions key none tree : Prog Y T R Unit).Obeys (untimedMonitor o)
      (onOk fun _ _ => True) () := by
  simp only [persistTree, truthyNumber_none, Bool.false_eq_true, if_false, Prog.pure_eq,
    Prog.ret_ok_bind, o.serialize_tree]
  exact obeys_storageSet (fun _ => ⟨rfl, tree, wellFormed, rfl⟩) trivial

/-- No step of level `level` or below has a ttl. -/
def NoTtlFrom (level : Nat) : Prop :=
  ∀ step : Step T, level ≤ step.level → truthyNumber (stepTtl ttl step) = false

omit [SerializedForm R] in
theorem getTtl_of_falsy (step : Step T) (maxTtl : Option ℚ)
    (falsy : truthyNumber (stepTtl ttl step) = false) : (getTtl ttl step maxTtl).2 = maxTtl := by
  unfold getTtl
  cases seconds : stepTtl ttl step with
  | none => rfl
  | some current =>
      rw [seconds] at falsy
      have zero : current = 0 := by simpa [truthyNumber] using falsy
      simp only [zero, ne_eq, not_true_eq_false, false_and, if_false]

variable (createValue : CreateValue T)

theorem saveItem_untimed (now : ℚ) (rootLevel : Nat) (noTtl : NoTtlFrom ttl rootLevel)
    (depthNode : TraversalItem T) (below : rootLevel ≤ depthNode.ref.level) (st : Saving R)
    (untimed : Untimed st) :
    (saveItem o.toOptions createValue ttl now rootLevel depthNode st).Obeys (untimedMonitor o)
      (onOk fun _ next => Untimed next) () := by
  unfold saveItem
  refine Obeys.bindOk (fun _ next => Untimed next) (obeys_ret fun next entered => ?_) ?_
  · split at entered
    · obtain rfl := Except.ok.inj entered
      exact untimed
    · exact enterChild_untimed o.toOptions createValue depthNode st next untimed entered
  · intro _ next nextUntimed
    refine (quiet_yieldItem _).thenOk fun value => ?_
    refine (quiet_ret _).thenOk fun changed => ?_
    cases changed with
    | none => exact obeys_pure nextUntimed
    | some serialized =>
        refine obeys_pure ⟨nextUntimed.memory.modify _ fun tree wellFormed => ?_, ?_⟩
        · rw [Tree.wellFormed_iff] at wellFormed ⊢
          rw [Tree.withValue_children]
          exact wellFormed
        · exact (getTtl_of_falsy ttl _ _ (noTtl _ below)).trans nextUntimed.maxTtl

theorem saveItems_untimed (now : ℚ) (rootLevel : Nat) (noTtl : NoTtlFrom ttl rootLevel) :
    ∀ (items : List (TraversalItem T)) (st : Saving R),
      (∀ item ∈ items, rootLevel ≤ item.ref.level) → Untimed st →
      (saveItems o.toOptions createValue ttl now rootLevel items st).Obeys (untimedMonitor o)
        (onOk fun _ next => Untimed next) () := by
  intro items
  induction items with
  | nil => exact fun st _ untimed => obeys_pure untimed
  | cons item rest ih =>
      intro st below untimed
      refine Obeys.bindOk (fun _ next => Untimed next) (saveItem_untimed o ttl createValue now
        rootLevel noTtl item (below item List.mem_cons_self) st untimed) ?_
      intro _ next nextUntimed
      exact ih next (fun other member => below other (List.mem_cons_of_mem _ member)) nextUntimed

theorem saveFullTreeValue_untimed (node : TraversalItem T) (key : String)
    (noTtl : NoTtlFrom ttl node.ref.level) :
    (saveFullTreeValue o.toOptions node key createValue ttl).Obeys (untimedMonitor o)
      (onOk fun _ _ => True) () := by
  unfold saveFullTreeValue
  refine quiet_now.thenOk fun now => ?_
  refine (quiet_storageGet _).thenOk fun buffer => ?_
  refine Obeys.bindOk (fun _ rootTree => rootTree.wellFormed = true)
    (obeys_ret fun rootTree decoded => ?_) ?_
  · unfold decodeRoot at decoded
    split at decoded
    · obtain rfl := Except.ok.inj decoded
      rfl
    · exact o.treeSerializer.deserialize_wellFormed _ _ decoded
  · intro _ rootTree wellFormed
    refine quiet_now.thenOk fun traversalNow => ?_
    refine Obeys.bindOk (fun _ last => Untimed last) (saveItems_untimed o ttl createValue now
      node.ref.level noTtl _ _ (fun item listed => ?_) ⟨Memory.WellFormed.start wellFormed, rfl⟩) ?_
    · exact treePreOrderTraversal_level .lifo traversalNow node.treeRef node.ref item listed
    · intro _ last untimed
      split
      · rw [untimed.maxTtl]
        exact persistTree_untimed o key _ (untimed.memory none)
      · exact obeys_pure trivial

/-- A node with proper keys above the tree level does not have the key of a tree. -/
theorem keyLevel_of_spelled {depth : Nat} {item : TraversalItem T}
    (spelled : item.Spelled properTest depth) (above : item.ref.level < o.keyLevelNodes) :
    ¬ TreeKey o (buildKey item.ref) := by
  rw [TreeKey, buildKey_eq, splitKey_joinKeys _ item.ref.keys_ne_nil fun key member =>
    (of_decide_eq_true (spelled.keys key member)).2, ← spelled.level]
  exact Nat.ne_of_lt above

/-- The tree does not reach the tree level, or nothing from there on has a ttl. -/
def PermanentTrees (tree : Tree T) : Prop :=
  tree.height < o.keyLevelNodes ∨ NoTtlFrom ttl o.keyLevelNodes

theorem fullTreeSetNode_untimed (tree : Tree T) (permanent : PermanentTrees o ttl tree)
    (minLevelSemaphore : Nat) (item : TraversalItem T)
    (spelled : item.Spelled properTest tree.height) (above : item.ref.level ≤ o.keyLevelNodes) :
    (fullTreeSetNode o.toOptions createValue minLevelSemaphore ttl item).Obeys (untimedMonitor o)
      (onOk fun _ _ => True) () := by
  unfold fullTreeSetNode
  simp only [Prog.pure_eq]
  apply (untimedMonitor_lockBlind o).acquire
  apply (untimedMonitor_lockBlind o).tryFinally
  split
  · rename_i treeLevel
    rcases permanent with flat | noTtl
    · have bounded := spelled.bounded
      omega
    · rw [← treeLevel] at noTtl
      exact saveFullTreeValue_untimed o ttl createValue item _ noTtl
  · rename_i other
    unfold saveKeyLevelValue registerKeyLevelChildren
    refine Obeys.bindOk (fun _ _ => True) (registerChildren_untimed o _ _) fun _ _ _ => ?_
    refine (quiet_storageGet _).thenOk fun currentSerialized => ?_
    refine (quiet_ret _).thenOk fun old => ?_
    refine (quiet_yieldItem _).thenOk fun value => ?_
    exact persistStep_untimed o ttl _ _ _ (keyLevel_of_spelled o spelled (by omega))

theorem fullTreeSetNodes_untimed (tree : Tree T) (permanent : PermanentTrees o ttl tree)
    (minLevelSemaphore : Nat) : ∀ items : List (TraversalItem T),
      (∀ item ∈ items, item.Spelled properTest tree.height) →
      (fullTreeSetNodes o.toOptions createValue minLevelSemaphore ttl items).Obeys (untimedMonitor o)
        (onOk fun _ _ => True) () := by
  intro items
  induction items with
  | nil => exact fun _ => obeys_pure trivial
  | cons item rest ih =>
      intro spelled
      unfold fullTreeSetNodes
      by_cases below : o.keyLevelNodes < item.ref.level
      · rw [if_pos below]
        exact obeys_pure trivial
      · rw [if_neg below]
        have first := fullTreeSetNode_untimed o ttl createValue tree permanent minLevelSemaphore item
          (spelled item List.mem_cons_self) (by omega)
        refine Obeys.bindOk (fun _ _ => True) first fun _ _ _ => ?_
        exact ih fun other member => spelled other (List.mem_cons_of_mem _ member)

theorem fullTreeSet_lasting (tree : Tree T) (proper : tree.allKeys properTest = true)
    (permanent : PermanentTrees o ttl tree) (minLevelSemaphore : Nat)
    (consumer : FullSetItem T R → Option T) (w : World R) (lasting : Lasting o w) :
    Lasting o ((fullTreeSet o.toOptions tree createValue minLevelSemaphore ttl).run consumer w).world := by
  have obeys : (fullTreeSet o.toOptions tree createValue minLevelSemaphore ttl).Obeys
      (untimedMonitor o) (onOk fun _ _ => True) () := by
    unfold fullTreeSet
    refine quiet_now.thenOk fun now => ?_
    refine fullTreeSetNodes_untimed o ttl createValue tree permanent minLevelSemaphore _ ?_
    exact fun item listed => treePreOrderTraversal_spelled .fifo now tree properTest proper item listed
  obtain ⟨_, kept⟩ := (untimedMonitor_tracks o).run consumer obeys lasting
  exact kept

end

/-! ## The other calls -/

section
variable (o : LawfulOptions T R)

theorem Lasting.treeEntry {o : LawfulOptions T R} {w : World R} (lasting : Lasting o w)
    (key : String) : TreeEntry o key (w.read key) := by
  intro _ treeKey r buffer
  cases read : w.read key with
  | none =>
      rw [read] at buffer
      cases buffer
  | some content =>
      rw [read] at buffer
      obtain ⟨expiry, stored, _⟩ := w.exists_entry w.clock key content read
      exact lasting.decodable key _ stored treeKey r buffer

theorem deepTreeSet_lasting (path : List String) (create : Option (ChainedObject → Option T))
    (consumer : Step T → Option T) (ttl : Option (StepTtl T)) (minLevelSemaphore : Nat)
    (twoLevels : 2 ≤ o.keyLevelNodes) (plain : PlainPath path) (positive : PositiveTtl ttl)
    (w : World R) (keeps : KeepsKey o create consumer ttl w path) (lasting : Lasting o w) :
    Lasting o ((deepTreeSet o.toOptions path (pureCreate create) ttl [] minLevelSemaphore).run
      consumer w).world := by
  have distinct := deepSections_nodup o create consumer ttl path plain minLevelSemaphore w.clock
    (by omega)
  rw [(deepTreeSet_starts o create consumer ttl path minLevelSemaphore twoLevels plain).run_eq _ _ _ _
    w (readsAll_of_nodup (TreeEntry o) _ w distinct fun s _ => lasting.treeEntry s.key)]
  exact deepSections_lasting o create consumer ttl lasting keeps positive (by omega) plain
    minLevelSemaphore

theorem setNode_run (path : List String) (v : T) (ttl : Option (StepTtl T)) (w : World R)
    (consumer : Step T → Option T) (twoLevels : 2 ≤ o.keyLevelNodes) (plain : PlainPath path)
    (decodes : ∀ key, TreeEntry o key (w.read key)) :
    (setNode o.toOptions path (some (.value v)) ttl).run consumer w =
      ⟨.ok (), performAll w (setSections o path v ttl w.clock), []⟩ := by
  have distinct := setSections_nodup o ttl path plain v w.clock (by omega)
  rw [(setNode_starts o consumer path v ttl twoLevels plain).run_eq _ _ _ _ w
    (readsAll_of_nodup (TreeEntry o) _ w distinct fun s _ => decodes s.key)]
  rw [setSections, presented_silent]

omit [SerializedForm R] in
theorem performAll_silent {Y : Type} : ∀ (ss : List (Section Y R)) (w : World R),
    performAll w (ss.map Section.silent) = performAll w ss := by
  intro ss
  induction ss with
  | nil => exact fun w => rfl
  | cons s rest ih => exact fun w => ih (w.perform s)

theorem setNode_lasting (path : List String) (v : T) (consumer : Step T → Option T)
    (ttl : Option (StepTtl T)) (twoLevels : 2 ≤ o.keyLevelNodes) (plain : PlainPath path)
    (positive : PositiveTtl ttl) (w : World R)
    (keeps : KeepsKey o (some fun _ => none) (setEdit path.length v) ttl w path)
    (lasting : Lasting o w) :
    Lasting o ((setNode o.toOptions path (some (.value v)) ttl).run consumer w).world := by
  rw [setNode_run o path v ttl w consumer twoLevels plain lasting.treeEntry, setSections,
    performAll_silent]
  exact deepSections_lasting o (some fun _ => none) (setEdit path.length v) ttl lasting keeps positive
    (by omega) plain path.length

theorem prune_lasting {Y : Type} (twoLevels : 2 ≤ o.keyLevelNodes) (w : World R)
    (lasting : Lasting o w) (keys : List String) (schedule : List PruneAction)
    (instant : ∀ action ∈ schedule, action.instant) (run : PruneRun Y T R)
    (executed : (PruneRun.start w [] keys).exec o.toOptions schedule = some run) :
    Lasting o run.pool.world := by
  have keeps := PruneRun.exec_invariant o.toOptions PruneAction.instant
    (fun run action next => PruneKeeps.step twoLevels lasting.decodable run action next) schedule
    instant _ run (pruneKeeps_start o w keys) executed
  refine lasting.change keeps.clock fun key entry treeKey stored => ?_
  rcases keeps.entries key with same | ⟨before, after, expiry, _, old, _, new, fades⟩
  · rw [same] at stored
    exact Or.inl stored
  · rw [new] at stored
    obtain rfl := Option.some.inj stored
    exact Or.inr ⟨fades.decodes, fun labels =>
      (lasting.outlives key _ treeKey old labels).fades (fades.fades labels)⟩

end

/-! ## Histories -/

inductive TimedCall (T R : Type) where
  | setNode (path : List String) (value : T) (ttl : Option (StepTtl T))
  | deepTreeSet (path : List String) (createValue : Option (ChainedObject → Option T))
      (consumer : Step T → Option T) (ttl : Option (StepTtl T)) (minLevelSemaphore : Nat)
  | fullTreeSet (tree : Tree T) (createValue : CreateValue T) (minLevelSemaphore : Nat)
      (ttl : Option (StepTtl T)) (consumer : FullSetItem T R → Option T)
  /-- The keys the pattern enumerates, and an order of the steps of the run. -/
  | prune (keys : List String) (schedule : List PruneAction)

namespace TimedCall

/-- Arguments a caller may pass: keys that are data, and ttls that are positive. -/
def Valid : TimedCall T R → Prop
  | setNode path _ ttl => PlainPath path ∧ PositiveTtl ttl
  | deepTreeSet path _ _ ttl _ => PlainPath path ∧ PositiveTtl ttl
  | fullTreeSet tree _ _ ttl _ => tree.allKeys properTest = true ∧ PositiveTtl ttl
  | prune _ schedule => ∀ action ∈ schedule, action.instant

/-- The world the call leaves; a schedule that cannot be followed leaves none. -/
def gives (o : Options T R) (w : World R) : TimedCall T R → Option (World R)
  | setNode path v ttl =>
      some ((TreeKeyCache.setNode o path (some (.value v)) ttl).run Step.value w).world
  | deepTreeSet path create consumer ttl minLevelSemaphore =>
      some ((TreeKeyCache.deepTreeSet o path (pureCreate create) ttl [] minLevelSemaphore).run
        consumer w).world
  | fullTreeSet tree createValue minLevelSemaphore ttl consumer =>
      some ((TreeKeyCache.fullTreeSet o tree createValue minLevelSemaphore ttl).run consumer w).world
  | prune keys schedule =>
      ((PruneRun.start (Y := Step T) w [] keys).exec o schedule).map fun run => run.pool.world

/-- The call condemns no node of a tree it writes. -/
def Spares (o : LawfulOptions T R) (w : World R) : TimedCall T R → Prop
  | setNode path v ttl => KeepsKey o (some fun _ => none) (setEdit path.length v) ttl w path
  | deepTreeSet path create consumer ttl _ => KeepsKey o create consumer ttl w path
  | fullTreeSet tree _ _ ttl _ => PermanentTrees o ttl tree
  | prune _ _ => True

theorem gives_lasting (o : LawfulOptions T R) (twoLevels : 2 ≤ o.keyLevelNodes) (w w' : World R)
    (call : TimedCall T R) (valid : call.Valid) (spares : call.Spares o w)
    (given : call.gives o.toOptions w = some w') (lasting : Lasting o w) : Lasting o w' := by
  cases call with
  | setNode path v ttl =>
      obtain rfl := Option.some.inj given
      exact setNode_lasting o path v Step.value ttl twoLevels valid.1 valid.2 w spares lasting
  | deepTreeSet path create consumer ttl minLevelSemaphore =>
      obtain rfl := Option.some.inj given
      exact deepTreeSet_lasting o path create consumer ttl minLevelSemaphore twoLevels valid.1 valid.2
        w spares lasting
  | fullTreeSet tree createValue minLevelSemaphore ttl consumer =>
      obtain rfl := Option.some.inj given
      exact fullTreeSet_lasting o ttl createValue tree valid.1 spares minLevelSemaphore consumer w
        lasting
  | prune keys schedule =>
      obtain ⟨run, executed, rfl⟩ := Option.map_eq_some_iff.mp given
      exact prune_lasting o twoLevels w lasting keys schedule valid run executed

end TimedCall

/-- The worlds that calls meeting a condition lead to, from the empty storage, at
non-decreasing times. -/
inductive Reached (o : LawfulOptions T R) (meets : World R → TimedCall T R → Prop) :
    World R → Prop where
  | start (t : ℚ) (started : 0 ≤ t) : Reached o meets (World.emptyAt t)
  | wait (w : World R) (t : ℚ) (before : Reached o meets w) (later : w.clock ≤ t) :
      Reached o meets { w with clock := t }
  | call (w w' : World R) (call : TimedCall T R) (before : Reached o meets w) (valid : call.Valid)
      (met : meets w call) (given : call.gives o.toOptions w = some w') : Reached o meets w'

/-- Histories of calls that spare the other nodes of the trees they write never let a key
expire before a live node of its tree. -/
theorem key_outlives_nodes (o : LawfulOptions T R) (twoLevels : 2 ≤ o.keyLevelNodes) (w : World R)
    (reached : Reached o (fun w call => call.Spares o w) w) : KeyOutlives o w := by
  have lasting : Lasting o w := by
    induction reached with
    | start t started => exact lasting_start o t started
    | wait w t before later ih => exact ih.wait t later
    | call w w' call before valid met given ih =>
        exact call.gives_lasting o twoLevels w w' valid met given ih
  exact lasting.outlives

/-- `setNode` does not rewrite a node without a value on the way. -/
theorem setNode_not_rewrites (o : LawfulOptions T R) (path q : List String) (v : T) (now : ℚ)
    (label : Label R) (nonempty : q ≠ []) (short : q.length ≠ path.length)
    (bare : label.live now = none) :
    ¬ Rewrites o (some fun _ => none) (setEdit path.length v) q now label := by
  rintro ⟨v', handed, _⟩
  have level : (present o.toOptions (some fun _ => none) (nodeRefOf q) (label.live now)).level ≠
      path.length := by
    change (nodeRefOf q).level ≠ path.length
    rw [nodeRefOf_level q nonempty]
    exact short
  simp only [handedBack, editStep, setEdit] at handed
  rw [if_neg level, bare] at handed
  cases handed

/-- Two nodes of one tree with lives of their own: 5 ms from the start and 10 ms one later. -/
def firstLife : World String :=
  ((setNode (Text.options 2).toOptions ["a", "b", "x"] (some (.value 1)) (some (.seconds (1 / 200)))).run
    Step.value (World.emptyAt 0)).world

def secondLife : World String :=
  ((setNode (Text.options 2).toOptions ["a", "b", "y"] (some (.value 2)) (some (.seconds (1 / 100)))).run
    Step.value { firstLife with clock := 1 }).world

omit [SerializedForm R] in
theorem eq_of_prefix_of_length {q path : List String} {n : Nat} (onPath : q <+: path)
    (long : n ≤ q.length) (other : q ≠ path) (last : path.length = n + 1) : q = path.take n := by
  have shorter : q.length < path.length :=
    lt_of_le_of_ne onPath.length_le fun same => other (onPath.eq_of_length same)
  have length : q.length = n := by omega
  rw [← length]
  exact List.prefix_iff_eq_take.mp onPath

theorem positiveTtl_seconds (s : ℚ) (positive : 0 < s) :
    PositiveTtl (some (.seconds s) : Option (StepTtl T)) := by
  intro step s' same
  obtain rfl := Option.some.inj same
  exact positive

theorem key_outlives_nodes_two_lives :
    KeyOutlives (Text.options 2) secondLife ∧
      (secondLife.store "a:b").map Entry.expiry = some (some 11) := by
  refine ⟨key_outlives_nodes (Text.options 2) (le_refl 2) secondLife ?_, by decide +kernel⟩
  have empty : Reached (Text.options 2) (fun w call => call.Spares (Text.options 2) w)
      (World.emptyAt 0) := .start 0 (le_refl 0)
  have first : Reached (Text.options 2) (fun w call => call.Spares (Text.options 2) w) firstLife := by
    refine .call _ _ (.setNode ["a", "b", "x"] 1 (some (.seconds (1 / 200)))) empty
      ⟨by decide, positiveTtl_seconds (1 / 200) (by norm_num)⟩ ?_ rfl
    intro deep s _
    refine ⟨fun q onPath long other => ?_, Or.inr fun q same alive _ => absurd ?_ alive⟩
    · rw [eq_of_prefix_of_length onPath long other rfl]
      exact setNode_not_rewrites _ _ _ _ _ _ (by decide) (by decide) (by decide +kernel)
    · have bare : nodeLabel (Text.options 2) ((World.emptyAt 0 : World String).read
          (nodeKey (Text.options 2) ["a", "b", "x"])) q = ⟨none, none⟩ := by
        unfold nodeLabel
        split
        · rfl
        · exact Tree.labelAt_empty _
      rw [bare]
      rfl
  have waited := Reached.wait firstLife 1 first (by decide +kernel)
  refine .call _ _ (.setNode ["a", "b", "y"] 2 (some (.seconds (1 / 100)))) waited
    ⟨by decide, positiveTtl_seconds (1 / 100) (by norm_num)⟩ ?_ rfl
  intro deep s _
  refine ⟨fun q onPath long other => ?_, Or.inl ?_⟩
  · rw [eq_of_prefix_of_length onPath long other rfl]
    exact setNode_not_rewrites _ _ _ _ _ _ (by decide) (by decide) (by decide +kernel)
  · decide +kernel

/-- A permanent node, and then a ttl for a node below it. -/
def condemned : World String :=
  ((setNode (Text.options 2).toOptions ["a", "b", "x"] (some (.value 2)) (some (.seconds (1 / 1000)))).run
    Step.value
    ((setNode (Text.options 2).toOptions ["a", "b"] (some (.value 1)) none).run Step.value
      (World.emptyAt 0)).world).world

theorem key_dies_before_node :
    ¬ ∀ w : World String, Reached (Text.options 2) (fun _ _ => True) w →
      KeyOutlives (Text.options 2) w := by
  intro all
  have untimed : PositiveTtl (none : Option (StepTtl Nat)) := fun _ _ same => (nomatch same)
  have permanent : Reached (Text.options 2) (fun _ _ => True)
      ((setNode (Text.options 2).toOptions ["a", "b"] (some (.value 1)) none).run Step.value
        (World.emptyAt 0)).world :=
    .call _ _ (.setNode ["a", "b"] 1 none) (.start 0 (le_refl 0)) ⟨by decide, untimed⟩ trivial rfl
  have reached : Reached (Text.options 2) (fun _ _ => True) condemned :=
    .call _ _ (.setNode ["a", "b", "x"] 2 (some (.seconds (1 / 1000)))) permanent
      ⟨by decide, positiveTtl_seconds (1 / 1000) (by norm_num)⟩ trivial rfl
  have state : (condemned.store "a:b").map (fun entry => (entry.expiry,
      ((rootTree (Text.options 2) (some entry.content)).labelAt []).deadline,
      (((rootTree (Text.options 2) (some entry.content)).labelAt []).live condemned.clock).isSome)) =
      some (some 1, none, true) := by decide +kernel
  obtain ⟨entry, stored, shape⟩ := Option.map_eq_some_iff.mp state
  simp only [Prod.mk.injEq] at shape
  obtain ⟨expiry, deadline, alive⟩ := shape
  have live := Option.isSome_iff_ne_none.mp alive
  obtain ⟨d, dated, _⟩ := all condemned reached "a:b" entry (by rw [TreeKey]; decide +kernel) stored []
    live 1 expiry
  rw [deadline] at dated
  cases dated

end TreeKeyCache
