import TreeKeyCache.Prune
import TreeKeyCache.Pool
import TreeKeyCache.Nodes

/-! # `prune`

`prune` pulls the keys the storage enumerates through one pipeline: it reads the entry
of a key, prunes the decoded tree, and starts a writer for every tree that changed.  The
pipeline goes on with the next key while the writers wait for their semaphores, so a run
of `prune` is a pool of writers that grows.  Other threads may be in the pool from the
beginning. -/
set_option autoImplicit false
namespace TreeKeyCache

variable {Y T R : Type} [SerializedForm R]

/-- The pipeline for one key: the tree to write back, if there is one. -/
def pruneRead (o : Options T R) (key : String) : Prog Y T R (Option (String × Tree R)) := do
  let path := splitKey key
  let now ← Prog.now
  match ← Prog.ret (storageNodeRef o path now) with
  | none => pure none
  | some nodeRef =>
      let buffer ← Prog.storageGet (buildKey nodeRef.ref)
      match ← Prog.ret (finishNodeRef o path true now nodeRef buffer) with
      | none => pure none
      | some item =>
          if item.ref.level = o.keyLevelNodes then do
            let now ← Prog.now
            let (tree, changed) := pruneTree now item.treeRef item.ref.parentRef
            if changed then pure (some (buildKey item.ref, tree)) else pure none
          else pure none

def pruneWrite (o : Options T R) (chainedKey : String) (tree : Tree R) : Prog Y T R Unit := do
  Prog.semaphoreAcquire chainedKey
  let ttl ← Prog.storageTtl chainedKey
  persistTree o chainedKey ttl tree
  Prog.dontWait chainedKey

/-- A run of `prune`: the keys still to come, how far the pipeline is with the current one,
and the writers it has started, after the threads that were there before. -/
structure PruneRun (Y T R : Type) where
  pool : Pool Y T R
  keys : List String
  reader : Prog Y T R (Option (String × Tree R))

inductive PruneAction where
  | pull
  | pool (action : Action)

namespace PruneRun

def start (w : World R) (threads : List (Thread Y T R)) (keys : List String) : PruneRun Y T R :=
  ⟨Pool.start w threads, keys, .ret (.ok none)⟩

/-- The next operation of the pipeline: it only reads the clock and entries. -/
def pull (o : Options T R) (run : PruneRun Y T R) : Option (PruneRun Y T R) :=
  match run.reader with
  | .ret (.ok none) =>
      match run.keys with
      | [] => none
      | key :: rest => some { run with keys := rest, reader := pruneRead o key }
  | .ret (.ok (some (chainedKey, tree))) =>
      let writer : Thread Y T R := ⟨fun _ => none, pruneWrite o chainedKey tree⟩
      some { run with
        pool := { run.pool with threads := run.pool.threads ++ [writer] }
        reader := .ret (.ok none) }
  | .dateNow k => some { run with reader := k run.pool.world.clock }
  | .get key k => some { run with reader := k (.ok (run.pool.world.read key)) }
  | _ => none

def act (o : Options T R) (run : PruneRun Y T R) : PruneAction → Option (PruneRun Y T R)
  | .pull => run.pull o
  | .pool action => (run.pool.act action).map fun pool => { run with pool := pool }

def exec (o : Options T R) (run : PruneRun Y T R) : List PruneAction → Option (PruneRun Y T R)
  | [] => some run
  | action :: rest => (run.act o action).bind fun next => next.exec o rest

def finished (run : PruneRun Y T R) : Bool :=
  run.keys.isEmpty && run.pool.finished && match run.reader with
    | .ret (.ok none) => true
    | _ => false

theorem exec_invariant (o : Options T R) {P : PruneRun Y T R → Prop} (allowed : PruneAction → Prop)
    (step : ∀ run action next, P run → allowed action → run.act o action = some next → P next) :
    ∀ (schedule : List PruneAction), (∀ action ∈ schedule, allowed action) →
      ∀ run final : PruneRun Y T R, P run → run.exec o schedule = some final → P final := by
  intro schedule
  induction schedule with
  | nil =>
      intro _ run final holds executed
      obtain rfl := Option.some.inj executed
      exact holds
  | cons action rest ih =>
      intro permitted run final holds executed
      rw [exec, Option.bind_eq_some_iff] at executed
      obtain ⟨next, stepped, later⟩ := executed
      exact ih (fun a member => permitted a (List.mem_cons_of_mem _ member)) next final
        (step run action next holds (permitted action List.mem_cons_self) stepped) later

end PruneRun

end TreeKeyCache
