import TreeKeyCache.KeyLifetimes
import TreeKeyCache.Monitors

/-! # The ttls that the writers hand to the storage

`getTtl` and `persistTree` combine ttls by tests for truthiness and by maxima.  Where the caller
gives no ttl or positive ones, `setNode`, `deepTreeSet` and `fullTreeSet` hand no other to
`storage.set`, whatever the storage answers to `getCurrentTtl`. -/
set_option autoImplicit false
namespace TreeKeyCache

open Prog

variable {Y T R : Type}

/-- Undefined or positive. -/
def ValidTtl (ttl : Option ℚ) : Prop := ∀ seconds ∈ ttl, 0 < seconds

instance (ttl : Option ℚ) : Decidable (ValidTtl ttl) := by
  unfold ValidTtl
  infer_instance

theorem validTtl_none : ValidTtl none := fun _ member => (nomatch member)

theorem stepTtl_seconds (current : Option ℚ) (step : Step T) :
    stepTtl (current.map StepTtl.seconds) step = current := by
  cases current <;> rfl

theorem getTtl_valid {ttl : Option (StepTtl T)} {step : Step T} {maxTtl : Option ℚ}
    (positive : ValidTtl (stepTtl ttl step)) (before : ValidTtl maxTtl) :
    ValidTtl (getTtl ttl step maxTtl).2 := by
  unfold getTtl
  cases current : stepTtl ttl step with
  | none => exact before
  | some seconds =>
      rw [current] at positive
      dsimp only
      split
      · exact positive
      · exact before

/-- Every ttl that is handed over is undefined or positive. -/
def ttlMonitor : Monitor Unit R where
  permits _ event := match event with
    | .stored _ _ ttl => ValidTtl ttl
    | _ => True
  after s _ := s

theorem ttlMonitor_lockBlind : Prog.LockBlind (ttlMonitor (R := R)) :=
  ⟨fun _ _ => trivial, fun _ _ => trivial, fun _ _ => rfl, fun _ _ => rfl⟩

/-- The maximum of a positive ttl and any answer is positive. -/
theorem ValidTtl.max {ttl : Option ℚ} (valid : ValidTtl ttl) (answer : Option ℚ) :
    ValidTtl (match answer with
      | none => ttl
      | some current => ttl.map (max current)) := by
  cases answer with
  | none => exact valid
  | some current =>
      intro seconds member
      obtain ⟨own, listed, rfl⟩ := Option.map_eq_some_iff.mp member
      exact lt_of_lt_of_le (valid own listed) (le_max_right current own)

theorem persistTree_ttlMonitor (o : Options T R) (key : String) {ttl : Option ℚ} (tree : Tree R)
    (valid : ValidTtl ttl) :
    (persistTree o key ttl tree : Prog Y T R Unit).Obeys ttlMonitor (onOk fun _ _ => True) () := by
  have store : ∀ maxTtl : Option ℚ, ValidTtl maxTtl →
      (Prog.ret (o.treeSerializer.serialize tree) >>= fun serialized =>
        Prog.storageSet key serialized maxTtl : Prog Y T R Unit).Obeys ttlMonitor
          (onOk fun _ _ => True) () :=
    fun maxTtl allowed => (quiet_ret _).thenOk fun _ => obeys_storageSet allowed trivial
  unfold persistTree
  by_cases timed : truthyNumber ttl = true
  · simp only [if_pos timed, Prog.pure_eq, Prog.ret_ok_bind]
    exact (quiet_storageTtl key).thenOk fun answer => store _ (valid.max answer)
  · simp only [if_neg timed, Prog.pure_eq, Prog.ret_ok_bind]
    exact store none validTtl_none

theorem enrichTree_valid [SerializedForm R] (o : Options T R) {step : Step T} {current : Option R}
    {tree : Tree R} {own : Option (StepTtl T)} {now : ℚ} {maxTtl : Option ℚ}
    (seconds : ValidTtl (stepTtl own step)) (before : ValidTtl maxTtl) {result : Enriched R}
    (enriches : enrichTree o step current tree own now maxTtl = .ok result) :
    ValidTtl result.maxTtl := by
  unfold enrichTree at enriches
  cases written : o.given step.value with
  | none =>
      rw [written] at enriches
      cases enriches
      exact before
  | some value =>
      simp only [written] at enriches
      cases encoded : o.valueSerializer.serialize value with
      | error e =>
          rw [encoded] at enriches
          cases enriches
      | ok serialized =>
          rw [encoded] at enriches
          change (if differs current serialized then _ else _) = _ at enriches
          have after := getTtl_valid seconds before
          split at enriches
          · split at enriches
            · cases enriches
              exact after
            · split at enriches <;> (cases enriches; exact after)
          · cases enriches
            exact before

theorem registerChildren_ttlMonitor (key : String) : ∀ children : TreeChildren T,
    (registerChildren key children : Prog Y T R Unit).Obeys ttlMonitor (onOk fun _ _ => True) () := by
  intro children
  induction children with
  | nil => exact obeys_pure trivial
  | cons first rest ih =>
      exact Obeys.bindOk (fun _ _ => True) (obeys_storageRegister trivial trivial) fun _ _ _ => ih

theorem enterChild_maxTtl [SerializedForm R] {o : Options T R} {createValue : CreateValue T}
    {item : TraversalItem T} {st entered : Saving R}
    (there : enterChild o createValue item st = .ok entered) : entered.maxTtl = st.maxTtl := by
  unfold enterChild at there
  dsimp only at there
  split at there
  · cases there
  · split at there
    · cases there
      rfl
    · cases there
      rfl
    · cases created : createValue item.ref with
      | error e =>
          rw [created] at there
          cases there
      | ok value =>
          rw [created] at there
          change (createNode o (o.given value) >>= _) = _ at there
          cases leaf : createNode o (o.given value) with
          | error e =>
              rw [leaf] at there
              cases there
          | ok leaf' =>
              rw [leaf] at there
              cases there
              rfl

section
variable [SerializedForm R] (o : Options T R) {ttl : Option (StepTtl T)} (positive : PositiveTtl ttl)
include positive

theorem persistStep_ttlMonitor (step : Step T) (current : Option R) (key : String) :
    (persistStep o step current key ttl : Prog Y T R Unit).Obeys ttlMonitor
      (onOk fun _ _ => True) () := by
  unfold persistStep
  cases o.given step.value with
  | none => exact obeys_pure trivial
  | some value =>
      refine (quiet_ret _).thenOk fun serialized => ?_
      split
      · apply obeys_storageSet _ trivial
        rw [getTtl_fst]
        exact positive step
      · exact obeys_pure trivial

theorem treeLevels_ttlMonitor (path : List String) (createValue : Option (CreateValue T)) (now : ℚ) :
    ∀ (n currentLevel : Nat) (key : String) (parentRef : Option ChainedObject) (tree : Tree R)
      (maxTtl : Option ℚ), ValidTtl maxTtl →
        (treeLevels o path createValue ttl now n currentLevel key parentRef tree maxTtl).Obeys ttlMonitor
          (onOk fun _ result => ValidTtl result.maxTtl) () := by
  have node : ∀ (nodeRef : ChainedObject) (tree : Tree R),
      (treeNode o createValue now nodeRef tree).Quiet := by
    intro nodeRef tree
    unfold treeNode
    exact (quiet_ret _).bind fun step => (quiet_yieldItem _).bind fun value => quiet_ret _
  intro n
  induction n with
  | zero =>
      intro level key parentRef tree maxTtl before
      unfold treeLevels
      refine (node _ _).thenOk fun found => obeys_ret fun result enriches => ?_
      refine enrichTree_valid o ?_ (getTtl_valid (positive found.1) before) enriches
      change ValidTtl (stepTtl ((getTtl ttl found.1 maxTtl).1.map StepTtl.seconds) found.1)
      rw [stepTtl_seconds, getTtl_fst]
      exact positive found.1
  | succ n ih =>
      intro level key parentRef tree maxTtl before
      unfold treeLevels
      refine (node _ _).thenOk fun found => ?_
      have untimed : ValidTtl (stepTtl (none : Option (StepTtl T)) found.1) := validTtl_none
      refine Obeys.bindOk (fun _ here => ValidTtl here.maxTtl)
        (obeys_ret fun here enriches => enrichTree_valid o untimed before enriches) ?_
      intro _ here valid
      refine (quiet_ret _).thenOk fun nextKey => ?_
      dsimp only
      split <;> exact Obeys.bindOk _ (ih _ _ _ _ _ valid) fun _ below reached => obeys_pure reached

theorem keyLevel_ttlMonitor (path : List String) (createValue : Option (CreateValue T))
    (minLevelSemaphore : Nat) (cursor : Cursor) :
    (keyLevel o path createValue ttl minLevelSemaphore cursor).Obeys ttlMonitor
      (onOk fun _ _ => True) () := by
  unfold keyLevel
  refine (quiet_ret _).thenOk fun chained => ?_
  refine Obeys.bindOk (fun _ _ => True) (obeys_storageRegister trivial trivial) fun _ _ _ => ?_
  apply ttlMonitor_lockBlind.acquire
  apply ttlMonitor_lockBlind.tryFinally
  refine (quiet_storageGet _).thenOk fun currentSerialized => ?_
  refine (quiet_ret _).thenOk fun step => ?_
  refine (quiet_yieldItem _).thenOk fun value => ?_
  exact Obeys.bindOk _ (persistStep_ttlMonitor o positive _ _ _) fun _ _ _ => obeys_pure trivial

theorem keyLevels_ttlMonitor (path : List String) (createValue : Option (CreateValue T))
    (minLevelSemaphore : Nat) : ∀ (n : Nat) (cursor : Cursor),
      (keyLevels o path createValue ttl minLevelSemaphore n cursor).Obeys ttlMonitor
        (onOk fun _ _ => True) () := by
  intro n
  induction n with
  | zero => exact fun cursor => obeys_pure trivial
  | succ n ih =>
      intro cursor
      unfold keyLevels
      exact Obeys.bindOk _ (keyLevel_ttlMonitor o positive path createValue minLevelSemaphore cursor)
        fun _ next _ => ih next

theorem treeLevel_ttlMonitor (path : List String) (createValue : Option (CreateValue T))
    (minLevelSemaphore : Nat) (now : ℚ) (cursor : Cursor) :
    (treeLevel o path createValue ttl minLevelSemaphore now cursor).Obeys ttlMonitor
      (onOk fun _ _ => True) () := by
  unfold treeLevel
  refine (quiet_ret _).thenOk fun chained => ?_
  apply ttlMonitor_lockBlind.acquire
  apply ttlMonitor_lockBlind.tryFinally
  refine (quiet_storageGet _).thenOk fun buffer => ?_
  refine (quiet_ret _).thenOk fun rootTree => ?_
  refine Obeys.bindOk _ (treeLevels_ttlMonitor o positive path createValue now _ _ _ _ _ _
    validTtl_none) fun _ result valid => ?_
  split
  · exact persistTree_ttlMonitor o _ _ valid
  · exact obeys_pure trivial

theorem deepTreeSet_ttlMonitor (path : List String) (createValue : Option (CreateValue T))
    (previousKeys : List String) (minLevelSemaphore : Nat) :
    (deepTreeSet o path createValue ttl previousKeys minLevelSemaphore).Obeys ttlMonitor
      (onOk fun _ _ => True) () := by
  unfold deepTreeSet
  refine quiet_now.thenOk fun now => ?_
  refine Obeys.bindOk _ (keyLevels_ttlMonitor o positive path createValue minLevelSemaphore _ _)
    fun _ cursor _ => ?_
  split
  · split
    · exact obeys_ret fun _ _ => trivial
    · exact treeLevel_ttlMonitor o positive path createValue minLevelSemaphore now cursor
  · exact obeys_pure trivial

theorem setNode_ttlMonitor (path : List String) (value : Option (NodeValue T)) :
    (setNode o path value ttl).Obeys ttlMonitor (onOk fun _ _ => True) () := by
  unfold setNode
  cases value.filter fun value => !value.isNull o with
  | none => exact obeys_pure trivial
  | some value =>
      apply Obeys.forAwait
      exact deepTreeSet_ttlMonitor o positive path _ [] path.length

/-! ## Whole trees -/

theorem saveItem_ttlMonitor (createValue : CreateValue T) (now : ℚ) (rootLevel : Nat)
    (item : TraversalItem T) (st : Saving R) (before : ValidTtl st.maxTtl) :
    (saveItem o createValue ttl now rootLevel item st).Obeys ttlMonitor
      (onOk fun _ last => ValidTtl last.maxTtl) () := by
  unfold saveItem
  refine Obeys.bindOk (fun _ entered => ValidTtl entered.maxTtl) (obeys_ret fun entered there => ?_)
    fun _ entered valid => ?_
  · split at there
    · cases there
      exact before
    · rw [enterChild_maxTtl there]
      exact before
  · refine (quiet_yieldItem _).thenOk fun value => ?_
    refine (quiet_ret _).thenOk fun changed => ?_
    cases changed with
    | none => exact obeys_pure valid
    | some serialized => exact obeys_pure (getTtl_valid (positive _) valid)

theorem saveItems_ttlMonitor (createValue : CreateValue T) (now : ℚ) (rootLevel : Nat) :
    ∀ (items : List (TraversalItem T)) (st : Saving R), ValidTtl st.maxTtl →
      (saveItems o createValue ttl now rootLevel items st).Obeys ttlMonitor
        (onOk fun _ last => ValidTtl last.maxTtl) () := by
  intro items
  induction items with
  | nil => exact fun st before => obeys_pure before
  | cons item rest ih =>
      intro st before
      unfold saveItems
      exact Obeys.bindOk _ (saveItem_ttlMonitor o positive createValue now rootLevel item st before)
        fun _ next valid => ih next valid

theorem saveFullTreeValue_ttlMonitor (node : TraversalItem T) (key : String)
    (createValue : CreateValue T) :
    (saveFullTreeValue o node key createValue ttl).Obeys ttlMonitor (onOk fun _ _ => True) () := by
  unfold saveFullTreeValue
  refine quiet_now.thenOk fun now => ?_
  refine (quiet_storageGet _).thenOk fun buffer => ?_
  refine (quiet_ret _).thenOk fun rootTree => ?_
  refine quiet_now.thenOk fun traversalNow => ?_
  refine Obeys.bindOk _ (saveItems_ttlMonitor o positive createValue now _ _ _ validTtl_none)
    fun _ last valid => ?_
  split
  · exact persistTree_ttlMonitor o _ _ valid
  · exact obeys_pure trivial

theorem saveKeyLevelValue_ttlMonitor (node : TraversalItem T) (key : String)
    (createValue : CreateValue T) :
    (saveKeyLevelValue o node key createValue ttl).Obeys ttlMonitor (onOk fun _ _ => True) () := by
  unfold saveKeyLevelValue
  refine Obeys.bindOk _ (registerChildren_ttlMonitor key _) fun _ _ _ => ?_
  refine (quiet_storageGet _).thenOk fun currentSerialized => ?_
  refine (quiet_ret _).thenOk fun old => ?_
  refine (quiet_yieldItem _).thenOk fun value => ?_
  exact persistStep_ttlMonitor o positive _ _ _

theorem fullTreeSetNodes_ttlMonitor (createValue : CreateValue T) (minLevelSemaphore : Nat) :
    ∀ items : List (TraversalItem T),
      (fullTreeSetNodes o createValue minLevelSemaphore ttl items).Obeys ttlMonitor
        (onOk fun _ _ => True) () := by
  intro items
  induction items with
  | nil => exact obeys_pure trivial
  | cons item rest ih =>
      unfold fullTreeSetNodes
      split
      · exact obeys_pure trivial
      · refine Obeys.bindOk (fun _ _ => True) ?_ fun _ _ _ => ih
        unfold fullTreeSetNode
        simp only [Prog.pure_eq]
        apply ttlMonitor_lockBlind.acquire
        apply ttlMonitor_lockBlind.tryFinally
        split
        · exact saveFullTreeValue_ttlMonitor o positive item _ createValue
        · exact saveKeyLevelValue_ttlMonitor o positive item _ createValue

theorem fullTreeSet_ttlMonitor (tree : Tree T) (createValue : CreateValue T)
    (minLevelSemaphore : Nat) :
    (fullTreeSet o tree createValue minLevelSemaphore ttl).Obeys ttlMonitor
      (onOk fun _ _ => True) () := by
  unfold fullTreeSet
  refine quiet_now.thenOk fun now => ?_
  exact fullTreeSetNodes_ttlMonitor o positive createValue minLevelSemaphore _

end

end TreeKeyCache
