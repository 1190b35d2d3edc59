import TreeKeyCache.PruneRuns
import TreeKeyCache.LockPairs
import TreeKeyCache.Lib.Progress

/-! # Runs in which operations fail

In a pool any operation of a thread may be rejected, and a consumer may assign what it likes,
throw, or break off.  A rejected write or registration may have taken effect all the same; a
rejected acquire has acquired nothing.  `Turn` lists how the next operation of a program may
turn out, and `suffer_cases` what one action of such a run can do. -/
set_option autoImplicit false
namespace TreeKeyCache

open SharedCells (Lock)

variable {Y T R A B S : Type}

inductive FaultyAction (T : Type) where
  | pool (action : Action)
  /-- The operation of the thread is rejected; `effective` says whether it changed anything. -/
  | reject (thread : Nat) (e : Err) (effective : Bool)
  /-- The consumer of the thread leaves `value` in the item. -/
  | answer (thread : Nat) (value : Option T)

def FaultyAction.Idle : FaultyAction T → Prop
  | .pool (.tick _) => True
  | _ => False

/-- An operation is performed or a release takes effect; nothing is rejected. -/
def FaultyAction.Regular : FaultyAction T → Prop
  | .pool (.run _) => True
  | .pool (.fire _) => True
  | _ => False

theorem FaultyAction.Regular.not_idle {action : FaultyAction T} (regular : action.Regular) :
    ¬ action.Idle := by
  rcases action with (_ | _ | _) | _ | _
  · exact id
  · exact id
  · exact regular.elim
  · exact regular.elim
  · exact regular.elim

namespace Pool

def reject (p : Pool Y T R) (i : Nat) (e : Err) (effective : Bool) (thread : Thread Y T R) :
    Option (Pool Y T R) :=
  match thread.prog with
  | .get _ k => some (p.resume i thread (k (.error e)))
  | .set key v ttl k =>
      let world := if effective then p.world.write key v ttl else p.world
      some ({ p with world := world }.resume i thread (k (.error e)))
  | .getCurrentTtl _ k => some (p.resume i thread (k (.error e)))
  | .registerChild parent child k =>
      let world := if effective then p.world.register parent child else p.world
      some ({ p with world := world }.resume i thread (k (.error e)))
  | .acquire _ k => some (p.resume i thread (k (.error e)))
  | .yield _ k => some (p.resume i thread (k (.error e)))
  | _ => none

def answer (p : Pool Y T R) (i : Nat) (value : Option T) (thread : Thread Y T R) :
    Option (Pool Y T R) :=
  match thread.prog with
  | .yield _ k => some (p.resume i thread (k (.ok value)))
  | _ => none

def suffer (p : Pool Y T R) : FaultyAction T → Option (Pool Y T R)
  | .pool action => p.act action
  | .reject i e effective => p.threads[i]?.bind (p.reject i e effective)
  | .answer i value => p.threads[i]?.bind (p.answer i value)

end Pool

/-- The thread whose operation the action has rejected. -/
def FaultyAction.rejects : FaultyAction T → Option Nat
  | .reject i _ _ => some i
  | _ => none

theorem FaultyAction.Regular.rejects {action : FaultyAction T} (regular : action.Regular) :
    action.rejects = none := by
  rcases action with (_ | _ | _) | _ | _
  · rfl
  · rfl
  · rfl
  · exact regular.elim
  · rfl

/-! ## One operation -/

/-- What an event does to the world and to the semaphores, for thread `i`. -/
def Event.world (w : World R) : Event R → World R
  | .stored key value ttl => w.write key value ttl
  | .registered parent child => w.register parent child
  | _ => w

def Event.locks (i : Nat) (locks : String → Lock Nat) : Event R → String → Lock Nat
  | .acquired key => Function.update locks key (.held i)
  | .released key => Function.update locks key .releasing
  | _ => locks

def worldAfter (w : World R) (event : Option (Event R)) : World R := event.elim w (Event.world w)

def locksAfter (i : Nat) (locks : String → Lock Nat) (event : Option (Event R)) : String → Lock Nat :=
  event.elim locks (Event.locks i locks)

def AcquiresFree (locks : String → Lock Nat) : Option (Event R) → Prop
  | some (.acquired key) => locks key = .free
  | _ => True

/-- The next operation of a program with the event that it causes, if any, whether it fails, and
how the program goes on. -/
inductive Prog.Turn : Prog Y T R A → Option (Event R) → Bool → Prog Y T R A → Prop where
  | dateNow (t : ℚ) (k : ℚ → Prog Y T R A) : Turn (.dateNow k) none false (k t)
  | get (key : String) (content : Option R) (k : Except Err (Option R) → Prog Y T R A) :
      Turn (.get key k) none false (k (.ok content))
  | getFailed (key : String) (e : Err) (k : Except Err (Option R) → Prog Y T R A) :
      Turn (.get key k) none true (k (.error e))
  | set (key : String) (value : R) (ttl : Option ℚ) (k : Except Err Unit → Prog Y T R A) :
      Turn (.set key value ttl k) (some (.stored key value ttl)) false (k (.ok ()))
  | setFailed (key : String) (value : R) (ttl : Option ℚ) (e : Err) (effective : Bool)
      (k : Except Err Unit → Prog Y T R A) :
      Turn (.set key value ttl k) (if effective then some (.stored key value ttl) else none) true
        (k (.error e))
  | getCurrentTtl (key : String) (ttl : Option ℚ) (k : Except Err (Option ℚ) → Prog Y T R A) :
      Turn (.getCurrentTtl key k) none false (k (.ok ttl))
  | getCurrentTtlFailed (key : String) (e : Err) (k : Except Err (Option ℚ) → Prog Y T R A) :
      Turn (.getCurrentTtl key k) none true (k (.error e))
  | registerChild (parent : Option String) (child : String) (k : Except Err Unit → Prog Y T R A) :
      Turn (.registerChild parent child k) (some (.registered parent child)) false (k (.ok ()))
  | registerChildFailed (parent : Option String) (child : String) (e : Err) (effective : Bool)
      (k : Except Err Unit → Prog Y T R A) :
      Turn (.registerChild parent child k)
        (if effective then some (.registered parent child) else none) true (k (.error e))
  | acquire (key : String) (k : Except Err Unit → Prog Y T R A) :
      Turn (.acquire key k) (some (.acquired key)) false (k (.ok ()))
  | acquireFailed (key : String) (e : Err) (k : Except Err Unit → Prog Y T R A) :
      Turn (.acquire key k) none true (k (.error e))
  | release (key : String) (k : Prog Y T R A) : Turn (.release key k) (some (.released key)) false k
  | yield (item : Y) (value : Option T) (k : Except Err (Option T) → Prog Y T R A) :
      Turn (.yield item k) none false (k (.ok value))
  | yieldFailed (item : Y) (e : Err) (k : Except Err (Option T) → Prog Y T R A) :
      Turn (.yield item k) none true (k (.error e))

/-- Thread `i` performs its next operation. -/
structure Pool.TurnOf (p p' : Pool Y T R) (i : Nat) (thread : Thread Y T R) (event : Option (Event R))
    (failed : Bool) (prog : Prog Y T R Unit) : Prop where
  running : p.threads[i]? = some thread
  turn : thread.prog.Turn event failed prog
  threads : p'.threads = p.threads.set i { thread with prog := prog }
  world : p'.world = worldAfter p.world event
  locks : p'.locks = locksAfter i p.locks event
  free : AcquiresFree p.locks event
  /-- A read that does not fail is answered with what is stored. -/
  reads : ∀ key k, thread.prog = .get key k → failed = false → prog = k (.ok (p.world.read key))

section
variable {p p' : Pool Y T R}

theorem Pool.advance_cases {i : Nat} {thread : Thread Y T R} (running : p.threads[i]? = some thread)
    (advanced : p.advance i thread = some p') :
    ∃ event prog, p.TurnOf p' i thread event false prog := by
  rcases thread with ⟨consumer, prog⟩
  cases prog with
  | ret result => cases advanced
  | dateNow k =>
      obtain rfl := Option.some.inj advanced
      exact ⟨none, _, running, .dateNow _ k, rfl, rfl, rfl, trivial,
        fun _ _ other => by cases other⟩
  | get key k =>
      obtain rfl := Option.some.inj advanced
      refine ⟨none, _, running, .get key _ k, rfl, rfl, rfl, trivial, fun _ _ same _ => ?_⟩
      cases same
      rfl
  | set key value ttl k =>
      obtain rfl := Option.some.inj advanced
      exact ⟨_, _, running, .set key value ttl k, rfl, rfl, rfl, trivial,
        fun _ _ other => by cases other⟩
  | getCurrentTtl key k =>
      obtain rfl := Option.some.inj advanced
      exact ⟨none, _, running, .getCurrentTtl key _ k, rfl, rfl, rfl, trivial,
        fun _ _ other => by cases other⟩
  | registerChild parent child k =>
      obtain rfl := Option.some.inj advanced
      exact ⟨_, _, running, .registerChild parent child k, rfl, rfl, rfl, trivial,
        fun _ _ other => by cases other⟩
  | acquire key k =>
      rw [advance] at advanced
      dsimp only at advanced
      split at advanced
      · rename_i free
        obtain rfl := Option.some.inj advanced
        exact ⟨_, _, running, .acquire key k, rfl, rfl, rfl, free,
          fun _ _ other => by cases other⟩
      · cases advanced
  | release key k =>
      obtain rfl := Option.some.inj advanced
      exact ⟨_, _, running, .release key k, rfl, rfl, rfl, trivial,
        fun _ _ other => by cases other⟩
  | yield item k =>
      obtain rfl := Option.some.inj advanced
      exact ⟨none, _, running, .yield item _ k, rfl, rfl, rfl, trivial,
        fun _ _ other => by cases other⟩

theorem Pool.reject_cases {i : Nat} {e : Err} {effective : Bool} {thread : Thread Y T R}
    (running : p.threads[i]? = some thread) (rejected : p.reject i e effective thread = some p') :
    ∃ event prog, p.TurnOf p' i thread event true prog := by
  rcases thread with ⟨consumer, prog⟩
  cases prog with
  | ret result => cases rejected
  | dateNow k => cases rejected
  | release key k => cases rejected
  | get key k =>
      obtain rfl := Option.some.inj rejected
      exact ⟨none, _, running, .getFailed key e k, rfl, rfl, rfl, trivial,
        fun _ _ _ other => by cases other⟩
  | set key value ttl k =>
      obtain rfl := Option.some.inj rejected
      cases effective with
      | false => exact ⟨_, _, running, .setFailed key value ttl e false k, rfl, rfl, rfl,
          trivial, fun _ _ other => by cases other⟩
      | true => exact ⟨_, _, running, .setFailed key value ttl e true k, rfl, rfl, rfl,
          trivial, fun _ _ other => by cases other⟩
  | getCurrentTtl key k =>
      obtain rfl := Option.some.inj rejected
      exact ⟨none, _, running, .getCurrentTtlFailed key e k, rfl, rfl, rfl, trivial,
        fun _ _ other => by cases other⟩
  | registerChild parent child k =>
      obtain rfl := Option.some.inj rejected
      cases effective with
      | false => exact ⟨_, _, running, .registerChildFailed parent child e false k, rfl, rfl, rfl,
          trivial, fun _ _ other => by cases other⟩
      | true => exact ⟨_, _, running, .registerChildFailed parent child e true k, rfl, rfl, rfl,
          trivial, fun _ _ other => by cases other⟩
  | acquire key k =>
      obtain rfl := Option.some.inj rejected
      exact ⟨none, _, running, .acquireFailed key e k, rfl, rfl, rfl, trivial,
        fun _ _ other => by cases other⟩
  | yield item k =>
      obtain rfl := Option.some.inj rejected
      exact ⟨none, _, running, .yieldFailed item e k, rfl, rfl, rfl, trivial,
        fun _ _ other => by cases other⟩

theorem Pool.answer_cases {i : Nat} {value : Option T} {thread : Thread Y T R}
    (running : p.threads[i]? = some thread) (answered : p.answer i value thread = some p') :
    ∃ event prog, p.TurnOf p' i thread event false prog := by
  rcases thread with ⟨consumer, prog⟩
  cases prog with
  | yield item k =>
      obtain rfl := Option.some.inj answered
      exact ⟨none, _, running, .yield item value k, rfl, rfl, rfl, trivial,
        fun _ _ other => by cases other⟩
  | ret result => cases answered
  | dateNow k => cases answered
  | get key k => cases answered
  | set key value ttl k => cases answered
  | getCurrentTtl key k => cases answered
  | registerChild parent child k => cases answered
  | acquire key k => cases answered
  | release key k => cases answered

/-- What one action can do: a thread performs an operation, a release takes effect, or time
passes. -/
theorem Pool.suffer_cases {action : FaultyAction T} (suffered : p.suffer action = some p') :
    (∃ i thread event failed prog, p.TurnOf p' i thread event failed prog ∧ ¬ action.Idle ∧
        (failed = true → action.rejects = some i)) ∨
      (∃ key, action = .pool (.fire key) ∧ p.locks key = .releasing ∧
        p' = { p with locks := Function.update p.locks key .free }) ∨
      ∃ t, action = .pool (.tick t) ∧ p.world.clock ≤ t ∧
        p' = { p with world := { p.world with clock := t } } := by
  rcases action with (i | key | t) | ⟨i, e, effective⟩ | ⟨i, value⟩
  · obtain ⟨thread, running, advanced⟩ := Option.bind_eq_some_iff.mp suffered
    obtain ⟨event, prog, turn⟩ := advance_cases running advanced
    exact .inl ⟨i, thread, event, false, prog, turn, id, fun failed => Bool.noConfusion failed⟩
  · simp only [suffer, act] at suffered
    split at suffered
    · rename_i releasing
      exact .inr (.inl ⟨key, rfl, releasing, (Option.some.inj suffered).symm⟩)
    · cases suffered
  · simp only [suffer, act] at suffered
    split at suffered
    · rename_i later
      exact .inr (.inr ⟨t, rfl, later, (Option.some.inj suffered).symm⟩)
    · cases suffered
  · obtain ⟨thread, running, rejected⟩ := Option.bind_eq_some_iff.mp suffered
    obtain ⟨event, prog, turn⟩ := reject_cases running rejected
    exact .inl ⟨i, thread, event, true, prog, turn, id, fun _ => rfl⟩
  · obtain ⟨thread, running, answered⟩ := Option.bind_eq_some_iff.mp suffered
    obtain ⟨event, prog, turn⟩ := answer_cases running answered
    exact .inl ⟨i, thread, event, false, prog, turn, id, fun failed => Bool.noConfusion failed⟩

theorem Pool.suffer_length {action : FaultyAction T}
    (suffered : p.suffer action = some p') : p'.threads.length = p.threads.length := by
  obtain ⟨i, thread, event, failed, prog, turn, _, _⟩ | ⟨key, _, _, rfl⟩ | ⟨t, _, _, rfl⟩ :=
    suffer_cases suffered
  · rw [turn.threads, List.length_set]
  · rfl
  · rfl

end

/-! ## Programs with other items -/

/-- The program with `f` applied to what it yields, so that writers with different items can be
threads of one pool. -/
def Prog.mapItem {Y' : Type} (f : Y → Y') : Prog Y T R A → Prog Y' T R A
  | .ret result => .ret result
  | .dateNow k => .dateNow fun t => (k t).mapItem f
  | .get key k => .get key fun r => (k r).mapItem f
  | .set key v ttl k => .set key v ttl fun r => (k r).mapItem f
  | .getCurrentTtl key k => .getCurrentTtl key fun r => (k r).mapItem f
  | .registerChild parent child k => .registerChild parent child fun r => (k r).mapItem f
  | .acquire key k => .acquire key fun r => (k r).mapItem f
  | .release key k => .release key (k.mapItem f)
  | .yield item k => .yield (f item) fun r => (k r).mapItem f

/-- What a mixed pool yields: the steps of `deepTreeSet` and the items of `fullTreeSet`. -/
abbrev AnyItem (T R : Type) := Step T ⊕ FullSetItem T R

/-- The programs that write: every call of `deepTreeSet`, `setNode` and `fullTreeSet`. -/
inductive WritingProgram [SerializedForm R] (o : Options T R) : Prog (AnyItem T R) T R Unit → Prop where
  | deepTreeSet (path : List String) (createValue : Option (CreateValue T)) (ttl : Option (StepTtl T))
      (previousKeys : List String) (minLevelSemaphore : Nat) :
      WritingProgram o ((TreeKeyCache.deepTreeSet o path createValue ttl previousKeys
        minLevelSemaphore).mapItem .inl)
  | setNode (path : List String) (value : Option (NodeValue T)) (ttl : Option (StepTtl T)) :
      WritingProgram o ((TreeKeyCache.setNode o path value ttl).mapItem .inl)
  | fullTreeSet (tree : Tree T) (createValue : CreateValue T) (minLevelSemaphore : Nat)
      (ttl : Option (StepTtl T)) :
      WritingProgram o ((TreeKeyCache.fullTreeSet o tree createValue minLevelSemaphore ttl).mapItem .inr)

/-! ## Runs of `prune` with faults -/

inductive FaultyPruneAction (T : Type) where
  | pull
  | pool (action : FaultyAction T)

namespace FaultyPruneAction

def Idle : FaultyPruneAction T → Prop
  | pull => False
  | pool action => action.Idle

def Regular : FaultyPruneAction T → Prop
  | pull => True
  | pool action => action.Regular

def rejects : FaultyPruneAction T → Option Nat
  | pull => none
  | pool action => action.rejects

end FaultyPruneAction

def PruneRun.suffer [SerializedForm R] (o : Options T R) (run : PruneRun Y T R) :
    FaultyPruneAction T → Option (PruneRun Y T R)
  | .pull => run.pull o
  | .pool action => (run.pool.suffer action).map fun pool => { run with pool := pool }

theorem PruneRun.pull_cases [SerializedForm R] {o : Options T R} {run next : PruneRun Y T R}
    (pulled : run.pull o = some next) :
    (∃ key rest, run.reader = .ret (.ok none) ∧ run.keys = key :: rest ∧
        next = { run with keys := rest, reader := pruneRead o key }) ∨
      (∃ key tree, run.reader = .ret (.ok (some (key, tree))) ∧ next = { run with
        pool := { run.pool with threads := run.pool.threads ++ [⟨fun _ => none, pruneWrite o key tree⟩] }
        reader := .ret (.ok none) }) ∨
      (∃ k, run.reader = .dateNow k ∧ next = { run with reader := k run.pool.world.clock }) ∨
      ∃ key k, run.reader = .get key k ∧
        next = { run with reader := k (.ok (run.pool.world.read key)) } := by
  rcases run with ⟨pool, keys, reader⟩
  cases reader with
  | ret result =>
      rcases result with e | _ | ⟨key, tree⟩
      · cases pulled
      · cases keys with
        | nil => cases pulled
        | cons key rest => exact .inl ⟨key, rest, rfl, rfl, (Option.some.inj pulled).symm⟩
      · exact .inr (.inl ⟨key, tree, rfl, (Option.some.inj pulled).symm⟩)
  | dateNow k => exact .inr (.inr (.inl ⟨k, rfl, (Option.some.inj pulled).symm⟩))
  | get key k => exact .inr (.inr (.inr ⟨key, k, rfl, (Option.some.inj pulled).symm⟩))
  | set key value ttl k => cases pulled
  | getCurrentTtl key k => cases pulled
  | registerChild parent child k => cases pulled
  | acquire key k => cases pulled
  | release key k => cases pulled
  | yield item k => cases pulled

end TreeKeyCache
