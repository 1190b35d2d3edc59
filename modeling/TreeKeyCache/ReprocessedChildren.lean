import TreeKeyCache.PairedNodes
import TreeKeyCache.ChildrenRegistry

/-! # Registering the children of every stored key

`reprocessAllKeyLevelChildren` clears the children registry, splits every key the storage
enumerates and registers each part under the parts before it.  The registrations are started
one by one and awaited in batches. -/
set_option autoImplicit false
namespace TreeKeyCache

variable {T R : Type}

open Prog

abbrev ChildPair := Option String × String

/-- A registration that was started, and how it settles. -/
structure Registering where
  pair : ChildPair
  settled : Except Err Unit

/-- `Promise.all` of the started registrations. -/
def allSettled : List Registering → Except Err (List ChildPair)
  | [] => .ok []
  | first :: rest => do
      first.settled
      let pairs ← allSettled rest
      pure (first.pair :: pairs)

def yieldBatch (promises : List Registering) : Prog (List ChildPair) T R Unit := do
  let pairs ← Prog.ret (allSettled promises)
  let _ ← Prog.yieldItem pairs
  pure ()

def registerParts (partition : Nat) : Option String → List String → List String →
    List Registering → Prog (List ChildPair) T R (List Registering)
  | _, _, [], promises => pure promises
  | chainedKey, processed, partialKey :: rest, promises =>
      Prog.registerChild chainedKey partialKey fun settled => do
        let promises := promises ++ [⟨(chainedKey, partialKey), settled⟩]
        let processed := processed ++ [partialKey]
        let chainedKey := some (joinKeys processed)
        if partition ≤ promises.length then
          yieldBatch promises
          registerParts partition chainedKey processed rest []
        else registerParts partition chainedKey processed rest promises

def registerKeys (partition : Nat) : List String → List Registering →
    Prog (List ChildPair) T R (List Registering)
  | [], promises => pure promises
  | key :: rest, promises => do
      let promises ← registerParts partition none [] (splitKey key) promises
      registerKeys partition rest promises

/-- What follows `clearAllChildrenRegistry`, over the keys that `randomIterate` enumerates. -/
def registerAllChildren (partition : Nat) (keys : List String) : Prog (List ChildPair) T R Unit := do
  let promises ← registerKeys partition keys []
  if 0 < promises.length then yieldBatch promises else pure ()

def World.clearAllChildrenRegistry (w : World R) : World R := { w with registry := [] }

/-- The optional methods of the storage that are looked for: the keys `randomIterate` enumerates,
whether there is `registerChild`, and how a call to `clearAllChildrenRegistry` settles. -/
structure ReprocessingStorage where
  randomIterate : Option (List String)
  registerChild : Bool
  clearAllChildrenRegistry : Option (Except Err Unit)

/-- The method, fully consumed against `w`.  Nothing is cleared unless the children can be
registered again. -/
def reprocessAllKeyLevelChildren (storage : ReprocessingStorage) (partition : Nat)
    (edit : List ChildPair → Option T) (w : World R) : Outcome (List ChildPair) R Unit :=
  match storage.randomIterate, storage.registerChild with
  | some keys, true =>
      match storage.clearAllChildrenRegistry with
      | none => (registerAllChildren partition keys).run edit w
      | some (.ok ()) => (registerAllChildren partition keys).run edit w.clearAllChildrenRegistry
      | some (.error e) => ⟨.error e, w, []⟩
  | _, _ => ⟨.error (.typeError
      "Storage implementation does not support key level children reprocessing"), w, []⟩

/-! ## The pairs of a key -/

/-- Each part with the parent that the parts before it lead to. -/
def partPairs : List String → List String → List ChildPair
  | _, [] => []
  | processed, partialKey :: rest =>
      (parentKey processed, partialKey) :: partPairs (processed ++ [partialKey]) rest

def keyPairs (key : String) : List ChildPair := partPairs [] (splitKey key)

theorem mem_partPairs {parent : Option String} {child : String} : ∀ {rest processed : List String},
    (parent, child) ∈ partPairs processed rest ↔
      ∃ front tail, rest = front ++ child :: tail ∧ parent = parentKey (processed ++ front) := by
  intro rest
  induction rest with
  | nil =>
      intro processed
      constructor
      · exact fun listed => (nomatch listed)
      · rintro ⟨front, tail, split, _⟩
        exact absurd split (by simp)
  | cons part rest ih =>
      intro processed
      rw [partPairs, List.mem_cons, ih]
      constructor
      · rintro (first | ⟨front, tail, rfl, rfl⟩)
        · obtain ⟨rfl, rfl⟩ := Prod.mk.inj first
          exact ⟨[], rest, rfl, by rw [List.append_nil]⟩
        · exact ⟨part :: front, tail, rfl, by rw [List.append_assoc, List.singleton_append]⟩
      · rintro ⟨front, tail, split, rfl⟩
        cases front with
        | nil =>
            obtain ⟨rfl, rfl⟩ := List.cons.inj split
            exact Or.inl (by rw [List.append_nil])
        | cons head front =>
            obtain ⟨rfl, rfl⟩ := List.cons.inj split
            exact Or.inr ⟨front, tail, rfl, by rw [List.append_assoc, List.singleton_append]⟩

/-! ## Runs -/

def Fulfilled (promises : List Registering) : Prop := ∀ promise ∈ promises, promise.settled = .ok ()

theorem Fulfilled.concat {promises : List Registering} (fulfilled : Fulfilled promises)
    (pair : ChildPair) : Fulfilled (promises ++ [⟨pair, .ok ()⟩]) := by
  intro promise listed
  rcases List.mem_append.mp listed with old | new
  · exact fulfilled promise old
  · rw [List.mem_singleton.mp new]

theorem Fulfilled.all : ∀ {promises : List Registering}, Fulfilled promises →
    allSettled promises = .ok (promises.map Registering.pair) := by
  intro promises
  induction promises with
  | nil => exact fun _ => rfl
  | cons first rest ih =>
      intro fulfilled
      rw [allSettled, fulfilled first List.mem_cons_self,
        ih fun promise listed => fulfilled promise (List.mem_cons_of_mem _ listed)]
      rfl

/-- The batches so far are full, and what is pending is less than a batch. -/
structure Partitioned (partition : Nat) (items : List (List ChildPair)) (promises : List Registering) :
    Prop where
  full : ∀ batch ∈ items, batch.length = partition
  pending : promises.length < partition

structure InBatches (partition : Nat) (items : List (List ChildPair)) : Prop where
  full : ∀ batch ∈ items.dropLast, batch.length = partition
  last : ∀ batch, items.getLast? = some batch → 1 ≤ batch.length ∧ batch.length ≤ partition

variable (edit : List ChildPair → Option T)

theorem yieldBatch_runs {promises : List Registering} (fulfilled : Fulfilled promises) (w : World R) :
    (yieldBatch promises : Prog (List ChildPair) T R Unit).RunsTo edit w (.ok ()) w
      [promises.map Registering.pair] := by
  unfold yieldBatch
  rw [fulfilled.all]
  rfl

theorem registerParts_runs (partition : Nat) : ∀ (rest processed : List String)
    (promises : List Registering) (w : World R), Fulfilled promises →
    ∃ promises' items,
      (registerParts partition (parentKey processed) processed rest promises :
          Prog (List ChildPair) T R (List Registering)).RunsTo edit w (.ok promises')
        (w.registerAll (partPairs processed rest)) items ∧
      Fulfilled promises' ∧ items.flatten ++ promises'.map Registering.pair =
        promises.map Registering.pair ++ partPairs processed rest ∧
      (promises.length < partition → Partitioned partition items promises') := by
  intro rest
  induction rest with
  | nil =>
      intro processed promises w fulfilled
      exact ⟨promises, [], rfl, fulfilled, by rw [partPairs, List.append_nil]; rfl,
        fun short => ⟨fun _ none => (nomatch none), short⟩⟩
  | cons part rest ih =>
      intro processed promises w fulfilled
      have further := fulfilled.concat (parentKey processed, part)
      have parent : some (joinKeys (processed ++ [part])) = parentKey (processed ++ [part]) := by
        cases processed <;> rfl
      by_cases full : partition ≤
          (promises ++ [Registering.mk (parentKey processed, part) (.ok ())]).length
      · obtain ⟨promises', items, ran, fulfilled', pairs, partitioned⟩ := ih (processed ++ [part]) []
          (w.register (parentKey processed) part) fun _ listed => (nomatch listed)
        refine ⟨promises', (promises.map Registering.pair ++ [(parentKey processed, part)]) :: items,
          ?_, fulfilled', ?_, fun short => ?_⟩
        · have batch := yieldBatch_runs edit further (w.register (parentKey processed) part)
          rw [List.map_append] at batch
          rw [← parent] at ran
          have whole := batch.then (f := fun _ => registerParts partition
            (some (joinKeys (processed ++ [part]))) (processed ++ [part]) rest []) ran
          rw [RunsTo, registerParts]
          simp only [Prog.run, if_pos full]
          exact whole
        · rw [List.flatten_cons, List.append_assoc, pairs, partPairs, List.map_nil, List.nil_append,
            List.append_assoc, List.singleton_append]
        · rw [List.length_append, List.length_singleton] at full
          have rest := partitioned (Nat.lt_of_le_of_lt (Nat.zero_le _) short)
          refine ⟨fun batch listed => ?_, rest.pending⟩
          rcases List.mem_cons.mp listed with rfl | later
          · rw [List.length_append, List.length_map, List.length_singleton]
            omega
          · exact rest.full batch later
      · obtain ⟨promises', items, ran, fulfilled', pairs, partitioned⟩ := ih (processed ++ [part])
          (promises ++ [⟨(parentKey processed, part), .ok ()⟩]) (w.register (parentKey processed) part)
          further
        refine ⟨promises', items, ?_, fulfilled', ?_, fun _ => partitioned (Nat.lt_of_not_le full)⟩
        · rw [← parent] at ran
          rw [RunsTo, registerParts]
          simp only [Prog.run, if_neg full]
          exact ran
        · rw [pairs, partPairs, List.map_append, List.append_assoc]
          rfl

theorem registerAll_append (w : World R) (pairs more : List ChildPair) :
    (w.registerAll pairs).registerAll more = w.registerAll (pairs ++ more) := by
  rw [World.registerAll, World.registerAll, World.registerAll, List.foldl_append]

theorem registerKeys_runs (partition : Nat) : ∀ (keys : List String) (promises : List Registering)
    (w : World R), Fulfilled promises →
    ∃ promises' items,
      (registerKeys partition keys promises : Prog (List ChildPair) T R (List Registering)).RunsTo edit w
        (.ok promises') (w.registerAll (keys.flatMap keyPairs)) items ∧
      Fulfilled promises' ∧ items.flatten ++ promises'.map Registering.pair =
        promises.map Registering.pair ++ keys.flatMap keyPairs ∧
      (promises.length < partition → Partitioned partition items promises') := by
  intro keys
  induction keys with
  | nil =>
      intro promises w fulfilled
      exact ⟨promises, [], rfl, fulfilled, by rw [List.flatMap_nil, List.append_nil]; rfl,
        fun short => ⟨fun _ none => (nomatch none), short⟩⟩
  | cons key rest ih =>
      intro promises w fulfilled
      obtain ⟨between, items, ran, fulfilled', pairs, partitioned⟩ := registerParts_runs edit partition
        (splitKey key) [] promises w fulfilled
      obtain ⟨promises', items', ran', fulfilled'', pairs', partitioned'⟩ := ih between
        (w.registerAll (keyPairs key)) fulfilled'
      rw [registerAll_append] at ran'
      refine ⟨promises', items ++ items', ran.then ran', fulfilled'', ?_, fun short => ?_⟩
      · rw [List.flatten_append, List.append_assoc, pairs', ← List.append_assoc, pairs,
          List.flatMap_cons, List.append_assoc]
        rfl
      · have first := partitioned short
        have later := partitioned' first.pending
        refine ⟨fun batch listed => ?_, later.pending⟩
        rcases List.mem_append.mp listed with before | after
        · exact first.full batch before
        · exact later.full batch after

theorem registerAllChildren_runs (partition : Nat) (keys : List String) (w : World R) :
    ∃ items, (registerAllChildren partition keys :
        Prog (List ChildPair) T R Unit).RunsTo edit w (.ok ())
          (w.registerAll (keys.flatMap keyPairs)) items ∧
      items.flatten = keys.flatMap keyPairs ∧ (1 ≤ partition → InBatches partition items) := by
  obtain ⟨promises, items, ran, fulfilled, pairs, partitioned⟩ := registerKeys_runs edit partition keys
    [] w fun _ listed => (nomatch listed)
  rw [List.map_nil, List.nil_append] at pairs
  by_cases pending : 0 < promises.length
  · refine ⟨items ++ [promises.map Registering.pair], ran.then ?_, ?_, fun positive => ?_⟩
    · rw [if_pos pending]
      exact yieldBatch_runs edit fulfilled _
    · rw [List.flatten_append, List.flatten_singleton]
      exact pairs
    · have whole := partitioned positive
      refine ⟨fun batch listed => ?_, fun batch last => ?_⟩
      · rw [List.dropLast_concat] at listed
        exact whole.full batch listed
      · rw [List.getLast?_concat] at last
        obtain rfl := Option.some.inj last
        rw [List.length_map]
        exact ⟨pending, Nat.le_of_lt whole.pending⟩
  · have none : promises = [] := List.eq_nil_of_length_eq_zero (by omega)
    refine ⟨items ++ [], ran.then ?_, ?_, fun positive => ?_⟩
    · rw [if_neg pending]
      rfl
    · rw [List.append_nil, ← pairs, none, List.map_nil, List.append_nil]
    · have whole := partitioned positive
      rw [List.append_nil]
      refine ⟨fun batch listed => whole.full batch (List.mem_of_mem_dropLast listed),
        fun batch last => ?_⟩
      rw [whole.full batch (List.mem_of_getLast? last)]
      exact ⟨positive, le_refl _⟩

def reprocessedWorld (edit : List ChildPair → Option T) (partition : Nat) (keys : List String)
    (w : World R) : World R :=
  (reprocessAllKeyLevelChildren ⟨some keys, true, some (.ok ())⟩ partition edit w).world

theorem reprocessedWorld_eq (partition : Nat) (keys : List String) (w : World R) :
    reprocessedWorld edit partition keys w = { w with registry := keys.flatMap keyPairs } := by
  obtain ⟨items, ran, _, _⟩ := registerAllChildren_runs edit partition keys w.clearAllChildrenRegistry
  rw [reprocessedWorld, reprocessAllKeyLevelChildren]
  dsimp only
  rw [ran, World.registerAll_eq]
  rfl

theorem mem_reprocessed {partition : Nat} {keys : List String} {w : World R} {parent : Option String}
    {child : String} : (parent, child) ∈ (reprocessedWorld edit partition keys w).registry ↔
      ∃ key ∈ keys, ∃ front tail, splitKey key = front ++ child :: tail ∧ parent = parentKey front := by
  rw [reprocessedWorld_eq, List.mem_flatMap]
  simp only [keyPairs, mem_partPairs, List.nil_append]

/-! ## The pairs in batches -/

def prefixPairs (key : String) : List ChildPair :=
  (splitKey key).mapIdx fun i part => (parentKey ((splitKey key).take i), part)

theorem partPairs_eq : ∀ (rest processed : List String), partPairs processed rest =
    rest.mapIdx fun i part => (parentKey (processed ++ rest.take i), part) := by
  intro rest
  induction rest with
  | nil => exact fun _ => rfl
  | cons part rest ih =>
      intro processed
      rw [partPairs, ih, List.mapIdx_cons, List.take_zero, List.append_nil]
      simp only [List.take_succ_cons, List.append_assoc, List.singleton_append]

theorem keyPairs_eq (key : String) : keyPairs key = prefixPairs key := partPairs_eq (splitKey key) []

/-- The registry is cleared first, if the storage can do that. -/
def ReprocessingStorage.clears (storage : ReprocessingStorage) : Bool :=
  storage.clearAllChildrenRegistry.isSome

/-- The storage has what the method asks for, and clears the registry when it is told to. -/
structure ReprocessingStorage.Supports (storage : ReprocessingStorage) (keys : List String) : Prop where
  randomIterate : storage.randomIterate = some keys
  registerChild : storage.registerChild = true
  cleared : ∀ result, storage.clearAllChildrenRegistry = some result → result = .ok ()

theorem reprocessAllKeyLevelChildren_eq {storage : ReprocessingStorage} {keys : List String}
    (supports : storage.Supports keys) (partition : Nat) (w : World R) :
    reprocessAllKeyLevelChildren storage partition edit w =
      (registerAllChildren partition keys).run edit
        (if storage.clears then w.clearAllChildrenRegistry else w) := by
  rw [reprocessAllKeyLevelChildren, supports.randomIterate, supports.registerChild,
    ReprocessingStorage.clears]
  cases clear : storage.clearAllChildrenRegistry with
  | none => rfl
  | some result =>
      obtain rfl := supports.cleared result clear
      rfl

/-- A fully consumed `reprocessAllKeyLevelChildren` yields the pairs of every key in batches, and
registers each of them, in this order, in a registry that was cleared before if it can be. -/
theorem reprocessAllKeyLevelChildren_registers (storage : ReprocessingStorage) (keys : List String)
    (supports : storage.Supports keys) (partition : Nat) (positive : 1 ≤ partition) (w : World R) :
    let outcome := reprocessAllKeyLevelChildren storage partition edit w
    outcome.result = .ok () ∧ outcome.yielded.flatten = keys.flatMap prefixPairs ∧
      outcome.world = { w with
        registry := (if storage.clears then [] else w.registry) ++ keys.flatMap prefixPairs } ∧
      InBatches partition outcome.yielded := by
  obtain ⟨items, ran, pairs, batches⟩ := registerAllChildren_runs edit partition keys
    (if storage.clears then w.clearAllChildrenRegistry else w)
  have same : keys.flatMap keyPairs = keys.flatMap prefixPairs := by
    congr 1
    funext key
    exact keyPairs_eq key
  intro outcome
  change Prog.run _ _ _ = _ at ran
  rw [show outcome = _ from (reprocessAllKeyLevelChildren_eq edit supports partition w).trans ran]
  refine ⟨rfl, pairs.trans same, ?_, batches positive⟩
  dsimp only
  rw [World.registerAll_eq, same]
  cases storage.clears with
  | true => rfl
  | false => rfl

def clearingStorage : ReprocessingStorage := ⟨some ["a:b", "c", ":d"], true, some (.ok ())⟩

theorem reprocessAllKeyLevelChildren_by_three :
    let outcome := reprocessAllKeyLevelChildren clearingStorage 3 (fun _ => (none : Option Nat))
      ((World.emptyAt 0 : World String).register none "stale")
    outcome.yielded = [[(none, "a"), (some "a", "b"), (none, "c")], [(none, ""), (some "", "d")]] ∧
      outcome.world.registry =
        [(none, "a"), (some "a", "b"), (none, "c"), (none, ""), (some "", "d")] ∧
      InBatches 3 outcome.yielded := by
  refine ⟨by decide +kernel, by decide +kernel, ?_⟩
  have supports : clearingStorage.Supports ["a:b", "c", ":d"] :=
    ⟨rfl, rfl, fun _ same => (Option.some.inj same).symm⟩
  exact (reprocessAllKeyLevelChildren_registers (fun _ => none) clearingStorage _ supports 3
    (by decide) _).2.2.2

end TreeKeyCache
