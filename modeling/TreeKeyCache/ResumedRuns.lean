import TreeKeyCache.Nodes
import TreeKeyCache.TextSerializers

/-! # Runs resumed from previous keys

`deepTreeSet` started with `previousKeys` begins at their level and with their joined key,
but the chain of its nodes begins anew: the first node it presents has no parent. -/
set_option autoImplicit false
namespace TreeKeyCache

/-! ## What programs present -/

namespace Prog

variable {Y T R A B : Type}

/-- Whatever is answered, every item that is yielded satisfies `holds`, and a run that does not
fail ends in `post`. -/
def Presents (holds : Y → Prop) : Prog Y T R A → (A → Prop) → Prop
  | ret result, post => ∀ a, result = .ok a → post a
  | dateNow k, post => ∀ t, (k t).Presents holds post
  | get _ k, post => ∀ answer, (k answer).Presents holds post
  | set _ _ _ k, post => ∀ answer, (k answer).Presents holds post
  | getCurrentTtl _ k, post => ∀ answer, (k answer).Presents holds post
  | registerChild _ _ k, post => ∀ answer, (k answer).Presents holds post
  | acquire _ k, post => ∀ answer, (k answer).Presents holds post
  | release _ k, post => k.Presents holds post
  | yield item k, post => holds item ∧ ∀ answer, (k answer).Presents holds post

variable {holds : Y → Prop}

theorem Presents.then {p : Prog Y T R A} {f : A → Prog Y T R B} {middle : A → Prop} {post : B → Prop}
    (first : p.Presents holds middle) (second : ∀ a, middle a → (f a).Presents holds post) :
    (p >>= f).Presents holds post := by
  induction p with
  | ret result =>
      cases result with
      | ok a => exact second a (first a rfl)
      | error e => exact fun b failed => (nomatch failed)
  | dateNow k ih => exact fun t => ih t (first t)
  | get key k ih => exact fun answer => ih answer (first answer)
  | set key v ttl k ih => exact fun answer => ih answer (first answer)
  | getCurrentTtl key k ih => exact fun answer => ih answer (first answer)
  | registerChild parent child k ih => exact fun answer => ih answer (first answer)
  | acquire key k ih => exact fun answer => ih answer (first answer)
  | release key k ih => exact ih first
  | yield item k ih => exact ⟨first.1, fun answer => ih answer (first.2 answer)⟩

theorem Presents.tryFinally {p : Prog Y T R A} {last : Prog Y T R Unit} {post : A → Prop}
    (first : p.Presents holds post) (quiet : last.Presents holds fun _ => True) :
    (p.tryFinally last).Presents holds post := by
  induction p with
  | ret result => exact quiet.then fun _ _ => first
  | dateNow k ih => exact fun t => ih t (first t)
  | get key k ih => exact fun answer => ih answer (first answer)
  | set key v ttl k ih => exact fun answer => ih answer (first answer)
  | getCurrentTtl key k ih => exact fun answer => ih answer (first answer)
  | registerChild parent child k ih => exact fun answer => ih answer (first answer)
  | acquire key k ih => exact fun answer => ih answer (first answer)
  | release key k ih => exact ih first
  | yield item k ih => exact ⟨first.1, fun answer => ih answer (first.2 answer)⟩

theorem presents_ret {result : Except Err A} (post : A → Prop) (ends : ∀ a, result = .ok a → post a) :
    (ret result : Prog Y T R A).Presents holds post := ends

theorem Presents.locked {p : Prog Y T R A} {post : A → Prop} (locked : Bool) (key : String)
    (body : p.Presents holds post) :
    (do
      if locked then semaphoreAcquire key else pure ()
      p.tryFinally (if locked then dontWait key else pure ())).Presents holds post := by
  cases locked with
  | false => exact body.tryFinally fun _ _ => trivial
  | true =>
      have released : (dontWait key : Prog Y T R Unit).Presents holds fun _ => True :=
        fun _ _ => trivial
      have acquired : (semaphoreAcquire key : Prog Y T R Unit).Presents holds fun _ => True :=
        fun _ _ _ => trivial
      exact acquired.then fun _ _ => body.tryFinally released

theorem Presents.run {p : Prog Y T R A} {post : A → Prop} (edit : Y → Option T) :
    ∀ {w : World R}, p.Presents holds post → ∀ item ∈ (p.run edit w).yielded, holds item := by
  induction p with
  | ret result => exact fun _ item listed => (nomatch listed)
  | dateNow k ih => exact fun presents => ih _ (presents _)
  | get key k ih => exact fun presents => ih _ (presents _)
  | set key v ttl k ih => exact fun presents => ih _ (presents _)
  | getCurrentTtl key k ih => exact fun presents => ih _ (presents _)
  | registerChild parent child k ih => exact fun presents => ih _ (presents _)
  | acquire key k ih => exact fun presents => ih _ (presents _)
  | release key k ih => exact fun presents => ih presents
  | yield first k ih =>
      intro w presents item listed
      rcases List.mem_cons.mp listed with rfl | later
      · exact presents.1
      · exact ih _ (presents.2 _) item later

/-- Whatever is answered, the program does not return before it has yielded an item. -/
def Speaks : Prog Y T R A → Prop
  | ret result => ∀ a, result ≠ .ok a
  | dateNow k => ∀ t, (k t).Speaks
  | get _ k => ∀ answer, (k answer).Speaks
  | set _ _ _ k => ∀ answer, (k answer).Speaks
  | getCurrentTtl _ k => ∀ answer, (k answer).Speaks
  | registerChild _ _ k => ∀ answer, (k answer).Speaks
  | acquire _ k => ∀ answer, (k answer).Speaks
  | release _ k => k.Speaks
  | yield _ _ => True

theorem Speaks.first {p : Prog Y T R A} (speaks : p.Speaks) (f : A → Prog Y T R B) :
    (p >>= f).Speaks := by
  induction p with
  | ret result =>
      cases result with
      | ok a => exact absurd rfl (speaks a)
      | error e => exact fun b same => (nomatch same)
  | dateNow k ih => exact fun t => ih t (speaks t)
  | get key k ih => exact fun answer => ih answer (speaks answer)
  | set key v ttl k ih => exact fun answer => ih answer (speaks answer)
  | getCurrentTtl key k ih => exact fun answer => ih answer (speaks answer)
  | registerChild parent child k ih => exact fun answer => ih answer (speaks answer)
  | acquire key k ih => exact fun answer => ih answer (speaks answer)
  | release key k ih => exact ih speaks
  | yield item k ih => trivial

theorem Speaks.second (p : Prog Y T R A) {f : A → Prog Y T R B} (speaks : ∀ a, (f a).Speaks) :
    (p >>= f).Speaks := by
  induction p with
  | ret result =>
      cases result with
      | ok a => exact speaks a
      | error e => exact fun b same => (nomatch same)
  | dateNow k ih => exact fun t => ih t
  | get key k ih => exact fun answer => ih answer
  | set key v ttl k ih => exact fun answer => ih answer
  | getCurrentTtl key k ih => exact fun answer => ih answer
  | registerChild parent child k ih => exact fun answer => ih answer
  | acquire key k ih => exact fun answer => ih answer
  | release key k ih => exact ih
  | yield item k ih => trivial

theorem Speaks.tryFinally {p : Prog Y T R A} (speaks : p.Speaks) (last : Prog Y T R Unit) :
    (p.tryFinally last).Speaks := by
  induction p with
  | ret result => exact Speaks.second last fun _ => speaks
  | dateNow k ih => exact fun t => ih t (speaks t)
  | get key k ih => exact fun answer => ih answer (speaks answer)
  | set key v ttl k ih => exact fun answer => ih answer (speaks answer)
  | getCurrentTtl key k ih => exact fun answer => ih answer (speaks answer)
  | registerChild parent child k ih => exact fun answer => ih answer (speaks answer)
  | acquire key k ih => exact fun answer => ih answer (speaks answer)
  | release key k ih => exact ih speaks
  | yield item k ih => trivial

theorem Speaks.locked {p : Prog Y T R A} (locked : Bool) (key : String) (body : p.Speaks) :
    (do
      if locked then semaphoreAcquire key else pure ()
      p.tryFinally (if locked then dontWait key else pure ())).Speaks := by
  cases locked with
  | false => exact body.tryFinally _
  | true => exact Speaks.second (semaphoreAcquire key) fun _ => body.tryFinally _

theorem Speaks.run {p : Prog Y T R A} (edit : Y → Option T) : ∀ {w : World R}, p.Speaks →
    ∀ a, (p.run edit w).result = .ok a → (p.run edit w).yielded ≠ [] := by
  induction p with
  | ret result => exact fun speaks a returned => absurd returned (speaks a)
  | dateNow k ih => exact fun speaks => ih _ (speaks _)
  | get key k ih => exact fun speaks => ih _ (speaks _)
  | set key v ttl k ih => exact fun speaks => ih _ (speaks _)
  | getCurrentTtl key k ih => exact fun speaks => ih _ (speaks _)
  | registerChild parent child k ih => exact fun speaks => ih _ (speaks _)
  | acquire key k ih => exact fun speaks => ih _ (speaks _)
  | release key k ih => exact fun speaks => ih speaks
  | yield item k ih => exact fun _ _ _ silent => (nomatch silent)

end Prog

open Prog

/-! ## The steps of a resumed run -/

section
variable {T R : Type} [SerializedForm R] (o : Options T R) (path : List String)
  (createValue : Option (CreateValue T)) (ttl : Option (StepTtl T)) (minLevelSemaphore : Nat)
  (start : Nat)

/-- The step is for the node of its level, and its chain of nodes begins above `start`. -/
structure ChainedFrom (step : Step T) : Prop where
  above : start < step.level
  onPath : step.level ≤ path.length
  key : path[step.level - 1]? = some step.key
  keys : step.nodeRef.keys = (path.take step.level).drop start

def ChainSoFar (level : Nat) (nodeRef : Option ChainedObject) : Prop :=
  start ≤ level ∧ (nodeRef.map ChainedObject.keys).getD [] = (path.take level).drop start

variable {path} {start}

theorem ChainSoFar.next {level : Nat} {nodeRef : Option ChainedObject} {key : String}
    (chain : ChainSoFar path start level nodeRef) (found : path[level]? = some key) :
    (ChainedObject.ofParent key (level + 1) nodeRef).keys = (path.take (level + 1)).drop start := by
  obtain ⟨bound, _⟩ := List.getElem?_eq_some_iff.mp found
  have length : (path.take level).length = level := List.length_take_of_le (by omega)
  have extended : (path.take (level + 1)).drop start = (path.take level).drop start ++ [key] := by
    rw [List.take_add_one, found, Option.toList_some,
      List.drop_append_of_le_length (by rw [length]; exact chain.1)]
  rw [extended, ← chain.2]
  cases nodeRef with
  | none => rfl
  | some parent => rfl

theorem ChainSoFar.step {level : Nat} {nodeRef : Option ChainedObject} {key : String}
    (chain : ChainSoFar path start level nodeRef) (found : path[level]? = some key)
    (value : Option T) :
    ChainedFrom path start (mountStep (.ofParent key (level + 1) nodeRef) value) := by
  obtain ⟨bound, _⟩ := List.getElem?_eq_some_iff.mp found
  have atLevel : (ChainedObject.ofParent key (level + 1) nodeRef).level = level + 1 :=
    ChainedObject.level_ofParent key (level + 1) nodeRef
  refine ⟨?_, ?_, ?_, ?_⟩
  · change start < (ChainedObject.ofParent key (level + 1) nodeRef).level
    rw [atLevel]
    exact Nat.lt_succ_of_le chain.1
  · change (ChainedObject.ofParent key (level + 1) nodeRef).level ≤ path.length
    rw [atLevel]
    exact bound
  · change path[(ChainedObject.ofParent key (level + 1) nodeRef).level - 1]? =
      some (ChainedObject.ofParent key (level + 1) nodeRef).key
    rw [atLevel, ChainedObject.key_ofParent]
    exact found
  · change (ChainedObject.ofParent key (level + 1) nodeRef).keys =
      (path.take (ChainedObject.ofParent key (level + 1) nodeRef).level).drop start
    rw [atLevel]
    exact chain.next found

theorem ChainSoFar.extend {level : Nat} {nodeRef : Option ChainedObject} {key : String}
    (chain : ChainSoFar path start level nodeRef) (found : path[level]? = some key) :
    ChainSoFar path start (level + 1) (some (.ofParent key (level + 1) nodeRef)) :=
  ⟨Nat.le_succ_of_le chain.1, chain.next found⟩

omit [SerializedForm R] in
theorem getStep_mounts {o : Options T R} {content : Option R} {nodeRef : ChainedObject}
    {createValue : Option (CreateValue T)} {step : Step T}
    (mounted : getStep o content nodeRef createValue = .ok step) :
    ∃ value, step = mountStep nodeRef value := by
  unfold getStep at mounted
  cases content with
  | some serialized => exact ⟨_, (Except.ok.inj mounted).symm⟩
  | none =>
      cases createValue with
      | none => exact ⟨_, (Except.ok.inj mounted).symm⟩
      | some create =>
          simp only at mounted
          cases answer : create nodeRef with
          | error e => rw [answer] at mounted; exact nomatch mounted
          | ok value =>
              rw [answer] at mounted
              exact ⟨value, (Except.ok.inj mounted).symm⟩

theorem getKey_eq_ok {level : Nat} {key : String} (read : getKey path level = .ok key) :
    path[level]? = some key := by
  unfold getKey at read
  cases found : path[level]? with
  | none => rw [found] at read; exact nomatch read
  | some key' =>
      rw [found] at read
      rw [Except.ok.inj read]

theorem getChainedKey_eq_ok {level : Nat} {prior : Option String} {chainedKey key : String}
    (read : getChainedKey path level prior = .ok (chainedKey, key)) :
    path[level]? = some key ∧ chainedKey = chainKey prior key := by
  unfold getChainedKey at read
  cases found : getKey path level with
  | error e => rw [found] at read; exact nomatch read
  | ok key' =>
      rw [found] at read
      obtain ⟨rfl, rfl⟩ := Prod.mk.inj (Except.ok.inj read)
      exact ⟨getKey_eq_ok found, rfl⟩

/-! ### Operations that yield nothing -/

omit [SerializedForm R] in
theorem presents_any_ret {A : Type} (result : Except Err A) :
    (Prog.ret result : Prog (Step T) T R A).Presents (ChainedFrom path start) fun _ => True :=
  fun _ _ => trivial

theorem persistStep_presents (o : Options T R) (step : Step T) (content : Option R) (key : String) :
    (persistStep o step content key ttl : Prog (Step T) T R Unit).Presents (ChainedFrom path start)
      fun _ => True := by
  unfold persistStep
  cases o.given step.value with
  | none => exact fun _ _ => trivial
  | some value =>
      refine (presents_any_ret _).then fun serialized _ => ?_
      split
      · exact fun _ _ _ => trivial
      · exact fun _ _ => trivial

omit [SerializedForm R] in
theorem persistTree_presents (o : Options T R) (key : String) (seconds : Option ℚ) (tree : Tree R) :
    (persistTree o key seconds tree : Prog (Step T) T R Unit).Presents (ChainedFrom path start)
      fun _ => True := by
  have written : ∀ maxTtl : Option ℚ,
      (Prog.ret (o.treeSerializer.serialize tree) >>= fun serialized =>
        Prog.storageSet key serialized maxTtl : Prog (Step T) T R Unit).Presents
          (ChainedFrom path start) fun _ => True :=
    fun maxTtl => (presents_any_ret _).then fun serialized _ => fun _ _ _ => trivial
  unfold persistTree
  split
  · intro answer
    refine (presents_any_ret answer).then fun remaining _ => ?_
    exact written _
  · exact written none

/-! ### The levels -/

theorem keyLevel_presents (cursor : Cursor)
    (chain : ChainSoFar path start cursor.currentLevel cursor.nodeRef) :
    (keyLevel o path createValue ttl minLevelSemaphore cursor).Presents (ChainedFrom path start)
      fun next => ChainSoFar path start next.currentLevel next.nodeRef := by
  unfold keyLevel
  refine (presents_ret (fun read => path[cursor.currentLevel]? = some read.2) ?_).then ?_
  · rintro ⟨chainedKey, key⟩ read
    exact (getChainedKey_eq_ok read).1
  rintro ⟨chainedKey, key⟩ found
  intro answer
  refine (presents_any_ret answer).then fun _ _ => ?_
  apply Presents.locked
  intro content
  refine (presents_any_ret content).then fun currentSerialized _ => ?_
  refine (presents_ret (fun step : Step T => ∃ value, step = mountStep
    (.ofParent key (cursor.currentLevel + 1) cursor.nodeRef) value) ?_).then ?_
  · exact fun step mounted => getStep_mounts mounted
  rintro step ⟨value, rfl⟩
  refine ⟨chain.step found value, fun assigned => ?_⟩
  refine (presents_any_ret assigned).then fun assignedValue _ => ?_
  refine (persistStep_presents ttl o _ currentSerialized chainedKey).then fun _ _ => ?_
  exact presents_ret _ fun next ends => Except.ok.inj ends ▸ chain.extend found

theorem keyLevels_presents : ∀ (n : Nat) (cursor : Cursor),
    ChainSoFar path start cursor.currentLevel cursor.nodeRef →
      (keyLevels o path createValue ttl minLevelSemaphore n cursor).Presents (ChainedFrom path start)
        fun next => ChainSoFar path start next.currentLevel next.nodeRef
  | 0, _, chain => presents_ret _ fun _ ends => Except.ok.inj ends ▸ chain
  | n + 1, _, chain =>
      (keyLevel_presents o createValue ttl minLevelSemaphore _ chain).then fun _ further =>
        keyLevels_presents n _ further

omit [SerializedForm R] in
theorem treeNode_presents (now : ℚ) {level : Nat} {key : String} {parentRef : Option ChainedObject}
    (chain : ChainSoFar path start level parentRef) (found : path[level]? = some key)
    (tree : Tree R) :
    (treeNode o createValue now (.ofParent key (level + 1) parentRef) tree).Presents
      (ChainedFrom path start) fun _ => True := by
  unfold treeNode
  refine (presents_ret (fun step : Step T => ∃ value, step = mountStep
    (.ofParent key (level + 1) parentRef) value) fun step mounted => getStep_mounts mounted).then ?_
  rintro step ⟨value, rfl⟩
  refine ⟨chain.step found value, fun assigned => ?_⟩
  exact (presents_any_ret assigned).then fun _ _ => fun _ _ => trivial

theorem treeLevels_presents (now : ℚ) : ∀ (n level : Nat) (key : String)
    (parentRef : Option ChainedObject) (tree : Tree R) (maxTtl : Option ℚ),
    ChainSoFar path start level parentRef → path[level]? = some key →
      (treeLevels o path createValue ttl now n (level + 1) key parentRef tree maxTtl).Presents
        (ChainedFrom path start) fun _ => True
  | 0, level, key, parentRef, tree, maxTtl, chain, found => by
      rw [treeLevels]
      refine (treeNode_presents o createValue now chain found tree).then fun handed _ => ?_
      exact presents_any_ret _
  | n + 1, level, key, parentRef, tree, maxTtl, chain, found => by
      rw [treeLevels]
      refine (treeNode_presents o createValue now chain found tree).then fun handed _ => ?_
      refine (presents_any_ret _).then fun here _ => ?_
      refine (presents_ret _ fun nextKey read => getKey_eq_ok read).then fun nextKey next => ?_
      have below := fun tree => treeLevels_presents now n (level + 1) nextKey
        (some (.ofParent key (level + 1) parentRef)) tree here.maxTtl (chain.extend found) next
      simp only
      split
      · exact (below _).then fun _ _ => fun _ _ => trivial
      · exact (below _).then fun _ _ => fun _ _ => trivial
      · exact (below _).then fun _ _ => fun _ _ => trivial

theorem treeLevel_presents (now : ℚ) (cursor : Cursor)
    (chain : ChainSoFar path start cursor.currentLevel cursor.nodeRef) :
    (treeLevel o path createValue ttl minLevelSemaphore now cursor).Presents (ChainedFrom path start)
      fun _ => True := by
  unfold treeLevel
  refine (presents_ret (fun read => path[cursor.currentLevel]? = some read.2) ?_).then ?_
  · rintro ⟨chainedKey, key⟩ read
    exact (getChainedKey_eq_ok read).1
  rintro ⟨chainedKey, key⟩ found
  apply Presents.locked
  intro content
  refine (presents_any_ret content).then fun buffer _ => ?_
  refine (presents_any_ret _).then fun rootTree _ => ?_
  refine (treeLevels_presents o createValue ttl now _ _ key cursor.nodeRef rootTree none chain
    found).then fun result _ => ?_
  split
  · exact persistTree_presents o chainedKey result.maxTtl result.tree
  · exact fun _ _ => trivial

/-- Every step of a run is for the node of its level, with the nodes between that level and the
previous keys as its chain. -/
theorem deepTreeSet_presents (previousKeys : List String) :
    (deepTreeSet o path createValue ttl previousKeys minLevelSemaphore).Presents
      (ChainedFrom path previousKeys.length) fun _ => True := by
  have chain : ChainSoFar path previousKeys.length previousKeys.length none := by
    refine ⟨le_refl _, ?_⟩
    rw [List.drop_eq_nil_of_le (List.length_take_le _ _)]
    rfl
  unfold deepTreeSet
  intro now
  refine (keyLevels_presents o createValue ttl minLevelSemaphore _ _ chain).then fun cursor further => ?_
  split
  · split
    · exact presents_any_ret _
    · exact treeLevel_presents o createValue ttl minLevelSemaphore now cursor further
  · exact fun _ _ => trivial

/-! ### A run that returns has yielded a step -/

theorem keyLevel_speaks (cursor : Cursor) :
    (keyLevel o path createValue ttl minLevelSemaphore cursor : Prog (Step T) T R Cursor).Speaks := by
  unfold keyLevel
  apply Speaks.second
  rintro ⟨chainedKey, key⟩
  apply Speaks.second
  intro _
  apply Speaks.locked
  apply Speaks.second
  intro currentSerialized
  exact Speaks.second _ fun step => trivial

theorem treeLevels_speaks (now : ℚ) (n level : Nat) (key : String) (parentRef : Option ChainedObject)
    (tree : Tree R) (maxTtl : Option ℚ) :
    (treeLevels o path createValue ttl now n level key parentRef tree maxTtl).Speaks := by
  cases n with
  | zero =>
      rw [treeLevels]
      apply Speaks.first
      exact Speaks.second _ fun step => trivial
  | succ n =>
      rw [treeLevels]
      apply Speaks.first
      exact Speaks.second _ fun step => trivial

theorem treeLevel_speaks (now : ℚ) (cursor : Cursor) :
    (treeLevel o path createValue ttl minLevelSemaphore now cursor : Prog (Step T) T R Unit).Speaks := by
  unfold treeLevel
  apply Speaks.second
  rintro ⟨chainedKey, key⟩
  apply Speaks.locked
  apply Speaks.second
  intro buffer
  apply Speaks.second
  intro rootTree
  exact Speaks.first (treeLevels_speaks o createValue ttl now _ _ key cursor.nodeRef rootTree none) _

theorem deepTreeSet_speaks {previousKeys : List String} (proper : previousKeys.length < path.length) :
    (deepTreeSet o path createValue ttl previousKeys minLevelSemaphore).Speaks := by
  unfold deepTreeSet
  apply Speaks.second
  intro now
  cases levels : min (o.keyLevelNodes - 1) path.length - previousKeys.length with
  | succ n =>
      simp only [levels]
      exact Speaks.first (Speaks.first (keyLevel_speaks o createValue ttl minLevelSemaphore _) _) _
  | zero =>
      simp only [levels, keyLevels, pure_eq, ret_ok_bind, if_pos proper]
      generalize (if 0 < previousKeys.length then some (joinKeys previousKeys) else none) = chainedKey
      by_cases unchained : chainedKey.getD "" = ""
      · rw [if_pos unchained]
        intro _ failed
        cases failed
      · rw [if_neg unchained]
        exact treeLevel_speaks o createValue ttl minLevelSemaphore now _

end

/-! ## Resumed and whole runs -/

section
variable {T R : Type}

/-- Two steps with the same key, level and value, whose nodes have the same joined key. -/
structure SameStep (resumed whole : Step T) : Prop where
  key : resumed.key = whole.key
  level : resumed.level = whole.level
  value : resumed.value = whole.value
  joined : buildKey resumed.nodeRef = buildKey whole.nodeRef

theorem SameStep.map_joined {resumed whole : List (Step T)} (steps : List.Forall₂ SameStep resumed whole) :
    resumed.map (fun step => buildKey step.nodeRef) = whole.map fun step => buildKey step.nodeRef := by
  induction steps with
  | nil => rfl
  | cons same _ ih => rw [List.map_cons, List.map_cons, same.joined, ih]

variable [SerializedForm R] (o : Options T R) (path : List String)
  (createValue : Option (CreateValue T)) (ttl : Option (StepTtl T)) (minLevelSemaphore : Nat)
  (edit : Step T → Option T) (w : World R)

/-- A fully consumed run that is told the previous keys. -/
def resumedRun (previousKeys : List String) : Outcome (Step T) R Unit :=
  (deepTreeSet o path createValue ttl previousKeys minLevelSemaphore).run edit w

/-- The run over the whole path changes no node on the way to `previousKeys`. -/
def KeepsPrefix (previousKeys : List String) : Prop :=
  ∀ p, p ≠ [] → p <+: previousKeys →
    serializedAt o (resumedRun o path createValue ttl minLevelSemaphore edit w []).world.read w.clock p =
      serializedAt o w.read w.clock p

/-- The resumed run does what the run over the whole path does below `previousKeys`. -/
structure Resumes (previousKeys : List String) : Prop where
  steps : List.Forall₂ SameStep
    (resumedRun o path createValue ttl minLevelSemaphore edit w previousKeys).yielded
    ((resumedRun o path createValue ttl minLevelSemaphore edit w []).yielded.filter
      fun step => previousKeys.length < step.level)
  storage : KeepsPrefix o path createValue ttl minLevelSemaphore edit w previousKeys →
    (resumedRun o path createValue ttl minLevelSemaphore edit w previousKeys).world.store =
      (resumedRun o path createValue ttl minLevelSemaphore edit w []).world.store

variable {o} {path} {createValue} {ttl} {minLevelSemaphore} {edit} {w}

theorem resumedRun_chained (previousKeys : List String) : ∀ step ∈
    (resumedRun o path createValue ttl minLevelSemaphore edit w previousKeys).yielded,
      ChainedFrom path previousKeys.length step :=
  (deepTreeSet_presents o createValue ttl minLevelSemaphore previousKeys).run edit

/-- The joined key of a step is that of its node only if no key comes before the first. -/
theorem ChainedFrom.start_eq_zero {start : Nat} {resumed whole : Step T}
    (colonFree : ∀ key ∈ path, ColonFree key) (below : ChainedFrom path start resumed)
    (node : ChainedFrom path 0 whole) (same : SameStep resumed whole) : start = 0 := by
  have free : ∀ n m, ∀ key ∈ (path.take n).drop m, ColonFree key := fun n m key member =>
    colonFree key (List.mem_of_mem_take (List.mem_of_mem_drop member))
  have joined := same.joined
  rw [buildKey_eq, buildKey_eq, below.keys, node.keys, ← same.level] at joined
  have levels : (path.take resumed.level).length = resumed.level := List.length_take_of_le below.onPath
  have above := below.above
  have nonempty : ∀ m, m ≤ start → (path.take resumed.level).drop m ≠ [] := by
    intro m bound nothing
    have length := congrArg List.length nothing
    rw [List.length_drop, levels, List.length_nil] at length
    omega
  have equal := congrArg List.length (joinKeys_injective _ _ (nonempty start (le_refl _))
    (nonempty 0 (Nat.zero_le _)) (free _ _) (free _ _) joined)
  rw [List.length_drop, List.length_drop, levels] at equal
  omega

/-- A resumed run does what the run over the whole path does below its previous keys exactly if
there are none. -/
theorem deepTreeSet_resumes_iff (proper : ∀ key ∈ path, ProperKey key) (previousKeys : List String)
    (above : previousKeys <+: path) (notWhole : previousKeys ≠ path)
    (consumed : (resumedRun o path createValue ttl minLevelSemaphore edit w previousKeys).result =
      .ok ()) :
    Resumes o path createValue ttl minLevelSemaphore edit w previousKeys ↔ previousKeys = [] := by
  constructor
  · intro resumes
    have shorter : previousKeys.length < path.length := by
      refine lt_of_le_of_ne above.length_le fun same => notWhole ?_
      exact above.eq_of_length same
    have speaks := (deepTreeSet_speaks o createValue ttl minLevelSemaphore shorter).run edit () consumed
    have steps := resumes.steps
    cases yielded : (resumedRun o path createValue ttl minLevelSemaphore edit w previousKeys).yielded with
    | nil => exact absurd yielded speaks
    | cons first rest =>
        rw [yielded] at steps
        cases matched : (resumedRun o path createValue ttl minLevelSemaphore edit w []).yielded.filter
          fun step => previousKeys.length < step.level with
        | nil => rw [matched] at steps; exact nomatch steps
        | cons whole others =>
            rw [matched] at steps
            obtain ⟨same, _⟩ := List.forall₂_cons.mp steps
            have below := resumedRun_chained previousKeys first (by rw [yielded]; exact List.mem_cons_self)
            have listed : whole ∈
                (resumedRun o path createValue ttl minLevelSemaphore edit w []).yielded :=
              List.mem_of_mem_filter (by rw [matched]; exact List.mem_cons_self)
            have none := below.start_eq_zero (fun key member => (proper key member).2)
              (resumedRun_chained [] whole listed) same
            exact List.eq_nil_of_length_eq_zero none
  · rintro rfl
    refine ⟨?_, fun _ => rfl⟩
    have all : (resumedRun o path createValue ttl minLevelSemaphore edit w []).yielded.filter
        (fun step => decide (([] : List String).length < step.level)) =
        (resumedRun o path createValue ttl minLevelSemaphore edit w []).yielded :=
      List.filter_eq_self.mpr fun step listed => decide_eq_true (resumedRun_chained [] step listed).above
    rw [all]
    exact List.forall₂_same.mpr fun step _ => ⟨rfl, rfl, rfl, rfl⟩

end

theorem deepTreeSet_resumes_iff_twoKeys :
    ¬ Resumes (Text.options 2).toOptions ["a", "b"] (some fun _ => .ok (some 7)) none 0 Step.value
      (World.emptyAt 0) ["a"] := by
  intro resumes
  exact nomatch (deepTreeSet_resumes_iff (by decide +kernel) ["a"] (by decide) (by decide)
    (by decide +kernel)).mp resumes

/-- Three keys with a tree from the second on, resumed behind the second: the only step has the key
`"c"` and no parents, and the value is stored under `"a:b:c"`. -/
theorem deepTreeSet_not_resumed_below :
    ¬ Resumes (Text.options 2).toOptions ["a", "b", "c"] (some fun _ => .ok (some 7)) none 0
        Step.value (World.emptyAt 0) ["a", "b"] ∧
      (resumedRun (Text.options 2).toOptions ["a", "b", "c"] (some fun _ => .ok (some 7)) none 0
        Step.value (World.emptyAt 0) ["a", "b"]).world.read "a:b:c" ≠ none := by
  constructor
  · intro resumes
    have differs : (["c"] : List String) = ["a:b:c"] :=
      calc ["c"] = (resumedRun (Text.options 2).toOptions ["a", "b", "c"] (some fun _ => .ok (some 7))
              none 0 Step.value (World.emptyAt 0) ["a", "b"]).yielded.map
                fun step => buildKey step.nodeRef := by decide +kernel
        _ = _ := SameStep.map_joined resumes.steps
        _ = ["a:b:c"] := by decide +kernel
    exact absurd differs (by decide)
  · decide +kernel

end TreeKeyCache
