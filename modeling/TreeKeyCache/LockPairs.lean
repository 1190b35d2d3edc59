import TreeKeyCache.Environments
import TreeKeyCache.ChildrenRegistry
import TreeKeyCache.PruneInvisible

/-! # Acquired and released semaphores

Each operation of a run may be rejected, each callback may throw and each consumer may
break off.  The loops of `deepTreeSet` and `fullTreeSet` release in a `finally` what they
acquired, and hold one semaphore at a time.  A writer of `prune` has no `finally`: when an
operation after its acquire fails, it ends without a release. -/
set_option autoImplicit false
namespace TreeKeyCache

open Prog

variable {Y T R A B : Type}

inductive LockEvent where
  | acquired (key : String)
  | released (key : String)
deriving DecidableEq

inductive Rejected where
  | get
  | set
  | getCurrentTtl
  | registerChild
  | acquire
deriving DecidableEq

/-- The successful acquires and the scheduled releases of a run, oldest first, and the
operations that were rejected. -/
structure LockLog where
  locks : List LockEvent
  rejected : List Rejected

namespace LockLog

def start : LockLog := ⟨[], []⟩

def lock (log : LockLog) (event : LockEvent) : LockLog := { log with locks := log.locks ++ [event] }

def heard (log : LockLog) (operation : Rejected) {A : Type} : Except Err A → LockLog
  | .ok _ => log
  | .error _ => { log with rejected := log.rejected ++ [operation] }

end LockLog

/-- Every operation may be answered in any way: with whatever other runs left in the
storage, or with a rejection. -/
def anyAnswer : Environment LockLog Y T R where
  dateNow log _ log' := log' = log
  get log _ answer log' := log' = log.heard .get answer
  set log _ _ _ answer log' := log' = log.heard .set answer
  getCurrentTtl log _ answer log' := log' = log.heard .getCurrentTtl answer
  registerChild log _ _ answer log' := log' = log.heard .registerChild answer
  acquire log key answer log' := log' = match answer with
    | .ok _ => log.lock (.acquired key)
    | .error e => log.heard .acquire (A := Unit) (.error e)
  release log key log' := log' = log.lock (.released key)
  yield log _ _ log' := log' = log

/-- Every acquire is followed by one release of the same semaphore, before anything else is
acquired or released. -/
inductive Paired : List LockEvent → Prop where
  | nil : Paired []
  | section (key : String) {rest : List LockEvent} (paired : Paired rest) :
      Paired (.acquired key :: .released key :: rest)

theorem Paired.append {first second : List LockEvent} (left : Paired first) (right : Paired second) :
    Paired (first ++ second) := by
  induction left with
  | nil => exact right
  | «section» key _ ih => exact .section key ih

theorem paired_single (key : String) : Paired [.acquired key, .released key] := .section key .nil

theorem not_paired_acquired (key : String) : ¬ Paired [.acquired key] := by
  intro paired
  cases paired

/-! ## Programs that leave semaphores alone -/

def Prog.Lockless : Prog Y T R A → Prop
  | .ret _ => True
  | .dateNow k => ∀ t, (k t).Lockless
  | .get _ k => ∀ answer, (k answer).Lockless
  | .set _ _ _ k => ∀ answer, (k answer).Lockless
  | .getCurrentTtl _ k => ∀ answer, (k answer).Lockless
  | .registerChild _ _ k => ∀ answer, (k answer).Lockless
  | .acquire _ _ => False
  | .release _ _ => False
  | .yield _ k => ∀ answer, (k answer).Lockless

theorem Prog.Lockless.bind {p : Prog Y T R A} {f : A → Prog Y T R B} (first : p.Lockless)
    (second : ∀ a, (f a).Lockless) : (p >>= f).Lockless := by
  induction p with
  | ret result =>
      cases result with
      | ok a => exact second a
      | error e => trivial
  | dateNow k ih => exact fun t => ih t (first t)
  | get key k ih => exact fun answer => ih answer (first answer)
  | set key value ttl k ih => exact fun answer => ih answer (first answer)
  | getCurrentTtl key k ih => exact fun answer => ih answer (first answer)
  | registerChild parent child k ih => exact fun answer => ih answer (first answer)
  | acquire key k ih => exact first.elim
  | release key k ih => exact first.elim
  | yield item k ih => exact fun answer => ih answer (first answer)

theorem Prog.Quiet.lockless {p : Prog Y T R A} (quiet : p.Quiet) : p.Lockless := by
  induction p with
  | ret result => trivial
  | dateNow k ih => exact fun t => ih t (quiet t)
  | get key k ih => exact fun answer => ih answer (quiet answer)
  | getCurrentTtl key k ih => exact fun answer => ih answer (quiet answer)
  | yield item k ih => exact fun answer => ih answer (quiet answer)
  | set key value ttl k ih => exact quiet.elim
  | registerChild parent child k ih => exact quiet.elim
  | acquire key k ih => exact quiet.elim
  | release key k ih => exact quiet.elim

theorem heard_locks (log : LockLog) (operation : Rejected) (answer : Except Err A) :
    (log.heard operation answer).locks = log.locks := by
  cases answer with
  | ok a => rfl
  | error e => rfl

theorem Prog.Lockless.wp {p : Prog Y T R A} (lockless : p.Lockless) {log : LockLog} :
    p.Wp anyAnswer (fun log' _ => log'.locks = log.locks) log := by
  induction p generalizing log with
  | ret result => rfl
  | dateNow k ih =>
      rintro t _ rfl
      exact ih t (lockless t)
  | get key k ih =>
      rintro answer _ rfl
      exact (ih answer (lockless answer)).mono fun _ _ same => same.trans (heard_locks log _ answer)
  | set key value ttl k ih =>
      rintro answer _ rfl
      exact (ih answer (lockless answer)).mono fun _ _ same => same.trans (heard_locks log _ answer)
  | getCurrentTtl key k ih =>
      rintro answer _ rfl
      exact (ih answer (lockless answer)).mono fun _ _ same => same.trans (heard_locks log _ answer)
  | registerChild parent child k ih =>
      rintro answer _ rfl
      exact (ih answer (lockless answer)).mono fun _ _ same => same.trans (heard_locks log _ answer)
  | acquire key k ih => exact lockless.elim
  | release key k ih => exact lockless.elim
  | yield item k ih =>
      rintro answer _ rfl
      exact ih answer (lockless answer)

/-- What a run has to end with, whether it fails or not. -/
def Tidy (log : LockLog) (_ : Except Err A) : Prop := Paired log.locks

theorem tidy_ret {log : LockLog} (paired : Paired log.locks) (result : Except Err A) :
    (Prog.ret result : Prog Y T R A).Wp anyAnswer Tidy log := paired

theorem Prog.Lockless.thenTidy {p : Prog Y T R A} {f : A → Prog Y T R B} (lockless : p.Lockless)
    {log : LockLog} (paired : Paired log.locks)
    (rest : ∀ log' a, Paired log'.locks → (f a).Wp anyAnswer Tidy log') :
    (p >>= f).Wp anyAnswer Tidy log := by
  refine Wp.seq (fun log' _ => log'.locks = log.locks) lockless.wp ?_ ?_
  · intro log' e same
    rw [Tidy, same]
    exact paired
  · intro log' a same
    refine rest log' a ?_
    rw [same]
    exact paired

theorem Tidy.then {p : Prog Y T R A} {f : A → Prog Y T R B} {log : LockLog}
    (first : p.Wp anyAnswer Tidy log)
    (rest : ∀ log' a, Paired log'.locks → (f a).Wp anyAnswer Tidy log') :
    (p >>= f).Wp anyAnswer Tidy log :=
  Wp.seq Tidy first (fun _ _ tidy => tidy) fun log' a tidy => rest log' a tidy

/-- A section that releases in a `finally` is tidy however its body ends. -/
theorem lockedSection_tidy (locked : Bool) (key : String) {body : Prog Y T R A}
    (lockless : body.Lockless) {log : LockLog} (paired : Paired log.locks) :
    (if locked then semaphoreAcquire key >>= fun _ =>
        body.tryFinally (if locked then dontWait key else pure ())
      else body.tryFinally (if locked then dontWait key else pure ())).Wp anyAnswer Tidy log := by
  cases locked with
  | false =>
      apply Wp.tryFinally
      refine lockless.wp.mono fun log' result same => ?_
      change Paired log'.locks
      rw [same]
      exact paired
  | true =>
      rintro answer _ rfl
      cases answer with
      | error e => exact paired
      | ok _ =>
          apply Wp.tryFinally
          refine lockless.wp.mono fun log' result same => ?_
          rintro _ rfl
          change Paired (log'.locks ++ [.released key])
          rw [same, LockLog.lock, List.append_assoc]
          exact paired.append (paired_single key)

/-- The environment may answer a yield as it likes, so also as the loop of `setNode` does. -/
theorem Prog.Wp.consuming {body : Y → Except Err (Option T)} {p : Prog Y T R A}
    {post : LockLog → Except Err A → Prop} {log : LockLog} (holds : p.Wp anyAnswer post log) :
    (TreeKeyCache.forAwait body p).Wp anyAnswer post log := by
  apply Wp.forAwait
  induction p generalizing log with
  | ret result => exact holds
  | dateNow k ih => exact fun t log' answered => ih t (holds t log' answered)
  | get key k ih => exact fun answer log' answered => ih answer (holds answer log' answered)
  | set key value ttl k ih => exact fun answer log' answered => ih answer (holds answer log' answered)
  | getCurrentTtl key k ih =>
      exact fun answer log' answered => ih answer (holds answer log' answered)
  | registerChild parent child k ih =>
      exact fun answer log' answered => ih answer (holds answer log' answered)
  | acquire key k ih => exact fun answer log' answered => ih answer (holds answer log' answered)
  | release key k ih => exact fun log' answered => ih (holds log' answered)
  | yield item k ih => exact fun answer log' answered => ih answer (holds answer log' answered.2)

/-! ## The writers along a path -/

section
variable [SerializedForm R] (o : Options T R)

theorem persistStep_lockless (step : Step T) (current : Option R) (key : String)
    (ttl : Option (StepTtl T)) :
    (persistStep o step current key ttl : Prog Y T R Unit).Lockless := by
  unfold persistStep
  cases o.given step.value with
  | none => trivial
  | some value =>
      refine Lockless.bind trivial fun serialized => ?_
      split
      · exact fun _ => trivial
      · trivial

omit [SerializedForm R] in
theorem persistTree_lockless (key : String) (ttl : Option ℚ) (tree : Tree R) :
    (persistTree o key ttl tree : Prog Y T R Unit).Lockless := by
  have store : ∀ maxTtl, (Prog.ret (o.treeSerializer.serialize tree) >>= fun serialized =>
      Prog.storageSet key serialized maxTtl : Prog Y T R Unit).Lockless :=
    fun maxTtl => Lockless.bind trivial fun serialized _ => trivial
  unfold persistTree
  split
  · exact Lockless.bind (fun _ => trivial) fun current => store _
  · exact store none

variable (path : List String) (createValue : Option (CreateValue T)) (ttl : Option (StepTtl T))
  (minLevelSemaphore : Nat)

theorem keyLevel_tidy (cursor : Cursor) {log : LockLog} (paired : Paired log.locks) :
    (keyLevel o path createValue ttl minLevelSemaphore cursor).Wp anyAnswer Tidy log := by
  unfold keyLevel
  refine Lockless.thenTidy (p := Prog.ret _) trivial paired fun log pair paired => ?_
  refine Lockless.thenTidy (p := Prog.storageRegister _ _) (fun _ => trivial) paired
    fun log _ paired => ?_
  simp only [Prog.pure_eq]
  refine lockedSection_tidy _ _ ?_ paired
  refine Lockless.bind (fun _ => trivial) fun current => ?_
  refine Lockless.bind trivial fun step => ?_
  refine Lockless.bind (fun _ => trivial) fun value => ?_
  exact (persistStep_lockless o _ _ _ ttl).bind fun _ => trivial

theorem keyLevels_tidy : ∀ (n : Nat) (cursor : Cursor) (log : LockLog), Paired log.locks →
    (keyLevels o path createValue ttl minLevelSemaphore n cursor).Wp anyAnswer Tidy log := by
  intro n
  induction n with
  | zero => exact fun cursor log paired => tidy_ret paired _
  | succ n ih =>
      intro cursor log paired
      unfold keyLevels
      exact Tidy.then (keyLevel_tidy o path createValue ttl minLevelSemaphore cursor paired)
        fun log' next paired' => ih next log' paired'

theorem treeLevel_tidy (now : ℚ) (cursor : Cursor) {log : LockLog} (paired : Paired log.locks) :
    (treeLevel o path createValue ttl minLevelSemaphore now cursor).Wp anyAnswer Tidy log := by
  unfold treeLevel
  refine Lockless.thenTidy (p := Prog.ret _) trivial paired fun log pair paired => ?_
  simp only [Prog.pure_eq]
  refine lockedSection_tidy _ _ ?_ paired
  refine Lockless.bind (fun _ => trivial) fun buffer => ?_
  refine Lockless.bind trivial fun rootTree => ?_
  refine (treeLevels_quiet o createValue ttl now _ _ _ _ _ _).lockless.bind fun result => ?_
  split
  · exact persistTree_lockless o _ _ _
  · trivial

theorem deepTreeSet_tidy (previousKeys : List String) {log : LockLog} (paired : Paired log.locks) :
    (deepTreeSet o path createValue ttl previousKeys minLevelSemaphore).Wp anyAnswer Tidy log := by
  unfold deepTreeSet
  refine Lockless.thenTidy (p := Prog.now) (fun _ => trivial) paired fun log now paired => ?_
  refine Tidy.then (keyLevels_tidy o path createValue ttl minLevelSemaphore _ _ log paired) ?_
  intro log cursor paired
  split
  · split
    · exact tidy_ret paired _
    · exact treeLevel_tidy o path createValue ttl minLevelSemaphore now cursor paired
  · exact tidy_ret paired _

theorem setNode_tidy (value : Option (NodeValue T)) {log : LockLog} (paired : Paired log.locks) :
    (setNode o path value ttl).Wp anyAnswer Tidy log := by
  unfold setNode
  cases value.filter fun value => !value.isNull o with
  | none => exact tidy_ret paired _
  | some value => exact (deepTreeSet_tidy o path _ ttl path.length [] paired).consuming

/-! ## Writing a whole tree -/

omit [SerializedForm R] in
theorem registerChildren_lockless (chainedKey : String) : ∀ children : TreeChildren T,
    (registerChildren chainedKey children : Prog Y T R Unit).Lockless := by
  intro children
  induction children with
  | nil => trivial
  | cons first rest ih => exact Lockless.bind (fun _ => trivial) fun _ => ih

variable (create : CreateValue T)

theorem fullTreeSetNode_tidy (breadthNode : TraversalItem T) {log : LockLog}
    (paired : Paired log.locks) :
    (fullTreeSetNode o create minLevelSemaphore ttl breadthNode).Wp anyAnswer Tidy log := by
  unfold fullTreeSetNode
  simp only [Prog.pure_eq]
  refine lockedSection_tidy _ _ ?_ paired
  split
  · unfold saveFullTreeValue
    refine Lockless.bind (fun _ => trivial) fun now => ?_
    refine Lockless.bind (fun _ => trivial) fun serializedTree => ?_
    refine Lockless.bind trivial fun rootTree => ?_
    refine Lockless.bind (fun _ => trivial) fun traversalNow => ?_
    refine (saveItems_quiet o create ttl now _ _ _).lockless.bind fun last => ?_
    split
    · exact persistTree_lockless o _ _ _
    · trivial
  · unfold saveKeyLevelValue
    refine Lockless.bind (registerChildren_lockless _ _) fun _ => ?_
    refine Lockless.bind (fun _ => trivial) fun current => ?_
    refine Lockless.bind trivial fun old => ?_
    refine Lockless.bind (fun _ => trivial) fun value => ?_
    exact persistStep_lockless o _ _ _ ttl

theorem fullTreeSetNodes_tidy : ∀ (nodes : List (TraversalItem T)) (log : LockLog),
    Paired log.locks →
    (fullTreeSetNodes o create minLevelSemaphore ttl nodes).Wp anyAnswer Tidy log := by
  intro nodes
  induction nodes with
  | nil => exact fun log paired => tidy_ret paired _
  | cons node rest ih =>
      intro log paired
      unfold fullTreeSetNodes
      split
      · exact tidy_ret paired _
      · exact Tidy.then (fullTreeSetNode_tidy o ttl minLevelSemaphore create node paired)
          fun log' _ paired' => ih log' paired'

theorem fullTreeSet_tidy (tree : Tree T) {log : LockLog} (paired : Paired log.locks) :
    (fullTreeSet o tree create minLevelSemaphore ttl).Wp anyAnswer Tidy log := by
  unfold fullTreeSet
  exact Lockless.thenTidy (p := Prog.now) (fun _ => trivial) paired
    fun log now paired => fullTreeSetNodes_tidy o ttl minLevelSemaphore create _ log paired

/-! ## The writers of a prune -/

omit [SerializedForm R] in
/-- A tree is persisted unless the serializer throws or an operation is rejected. -/
theorem persistTree_log (key : String) (ttl : Option ℚ) (tree : Tree R) {log : LockLog}
    (fresh : log.rejected = []) :
    (persistTree o key ttl tree : Prog Y T R Unit).Wp anyAnswer (fun log' result =>
      log'.locks = log.locks ∧ .acquire ∉ log'.rejected ∧
        (result.isOk = true ↔ log'.rejected = [] ∧ ∃ r, o.treeSerializer.serialize tree = .ok r)) log := by
  have store : ∀ maxTtl, (Prog.ret (o.treeSerializer.serialize tree) >>= fun serialized =>
      Prog.storageSet key serialized maxTtl : Prog Y T R Unit).Wp anyAnswer (fun log' result =>
        log'.locks = log.locks ∧ .acquire ∉ log'.rejected ∧ (result.isOk = true ↔
          log'.rejected = [] ∧ ∃ r, o.treeSerializer.serialize tree = .ok r)) log := by
    intro maxTtl
    cases serialized : o.treeSerializer.serialize tree with
    | error e =>
        refine ⟨rfl, by simp [fresh], ?_⟩
        simp [Except.isOk, Except.toBool]
    | ok r =>
        rintro answer _ rfl
        cases answer with
        | error e =>
            refine ⟨rfl, by simp [LockLog.heard, fresh], ?_⟩
            simp [Except.isOk, Except.toBool, LockLog.heard]
        | ok _ =>
            refine ⟨rfl, by simp [LockLog.heard, fresh], ?_⟩
            simp [Except.isOk, Except.toBool, LockLog.heard, fresh]
  unfold persistTree
  split
  · rintro answer _ rfl
    cases answer with
    | error e =>
        refine ⟨rfl, by simp [LockLog.heard, fresh], ?_⟩
        simp [Except.isOk, Except.toBool, LockLog.heard]
    | ok current => exact store _
  · exact store none

/-- The acquire of the writer is rejected, or nothing fails after it. -/
def Unfailing (tree : Tree R) (log : LockLog) : Prop :=
  .acquire ∈ log.rejected ∨ (log.rejected = [] ∧ ∃ r, o.treeSerializer.serialize tree = .ok r)

omit [SerializedForm R] in
theorem pruneWrite_log (key : String) (tree : Tree R) :
    (pruneWrite o key tree : Prog Y T R Unit).Wp anyAnswer (fun log _ =>
      Paired log.locks ↔ Unfailing o tree log) .start := by
  unfold pruneWrite
  rintro answer _ rfl
  cases answer with
  | error e => exact ⟨fun _ => Or.inl List.mem_cons_self, fun _ => .nil⟩
  | ok _ =>
      rintro answer _ rfl
      cases answer with
      | error e =>
          refine ⟨fun paired => absurd paired (not_paired_acquired key), ?_⟩
          rintro (listed | ⟨none, _⟩)
          · cases listed with
            | tail _ later => cases later
          · cases none
      | ok ttl =>
          have persisted : (persistTree o key ttl tree : Prog Y T R Unit).Wp anyAnswer _
              (LockLog.start.lock (.acquired key)) := persistTree_log o key ttl tree rfl
          refine Wp.seq (p := persistTree o key ttl tree) _ persisted ?_ ?_
          · rintro log e ⟨locks, notAcquire, failed⟩
            rw [locks]
            refine ⟨fun paired => absurd paired (not_paired_acquired key), ?_⟩
            rintro (listed | unfailing)
            · exact absurd listed notAcquire
            · cases failed.mpr unfailing
          · rintro log _ ⟨locks, _, succeeded⟩ _ rfl
            refine ⟨fun _ => Or.inr (succeeded.mp rfl), fun _ => ?_⟩
            change Paired (log.locks ++ [.released key])
            rw [locks]
            exact paired_single key

/-- A writer that a prune started, with the log of its run. -/
structure StartedWriter (R : Type) where
  tree : Tree R
  log : LockLog

/-- The runs of `prune` over the keys that are enumerated: the writers it starts.  The
pipeline may stop at any key, when the enumeration ends or when it or a read fails; the
writers it has started go on.  As any operation may be answered in any way, it does not
matter how their operations are interleaved. -/
inductive PruneRuns : List String → List (StartedWriter R) → Prop where
  | stopped (keys : List String) : PruneRuns keys []
  | skipped {key : String} {rest : List String} {writers : List (StartedWriter R)} {log : LockLog}
      (read : (pruneRead o key : Prog (Step T) T R _).Runs anyAnswer .start (.ok none) log)
      (later : PruneRuns rest writers) : PruneRuns (key :: rest) writers
  | wrote {key chainedKey : String} {rest : List String} {writers : List (StartedWriter R)}
      {tree : Tree R} {log log' : LockLog} {result : Except Err Unit}
      (read : (pruneRead o key : Prog (Step T) T R _).Runs anyAnswer .start
        (.ok (some (chainedKey, tree))) log)
      (write : (pruneWrite o chainedKey tree : Prog (Step T) T R Unit).Runs anyAnswer .start result log')
      (later : PruneRuns rest writers) : PruneRuns (key :: rest) (⟨tree, log'⟩ :: writers)

theorem pruneRuns_log {keys : List String} {writers : List (StartedWriter R)}
    (runs : PruneRuns o keys writers) :
    ∀ writer ∈ writers, (Paired writer.log.locks ↔ Unfailing o writer.tree writer.log) := by
  induction runs with
  | stopped keys => exact fun writer member => (nomatch member)
  | skipped read later ih => exact ih
  | wrote read write later ih =>
      intro writer member
      rcases List.mem_cons.mp member with rfl | older
      · exact (pruneWrite_log o _ _).sound write
      · exact ih writer older

/-- Whatever the environment answers, what a run acquired it has released at its end. -/
def Releases {A : Type} (p : Prog Y T R A) : Prop :=
  ∀ result log, p.Runs anyAnswer .start result log → Paired log.locks

/-- Every acquire of `deepTreeSet`, `setNode` and `fullTreeSet` is followed by one release.
For the writers of `prune` this is so exactly when nothing fails after the acquire. -/
theorem semaphores_released :
    (∀ path createValue ttl previousKeys minLevelSemaphore,
      Releases (deepTreeSet o path createValue ttl previousKeys minLevelSemaphore)) ∧
    (∀ path value ttl, Releases (setNode o path value ttl)) ∧
    (∀ tree create minLevelSemaphore ttl,
      Releases (fullTreeSet o tree create minLevelSemaphore ttl)) ∧
    ∀ keys writers, PruneRuns o keys writers →
      ((∀ writer ∈ writers, Paired writer.log.locks) ↔
        ∀ writer ∈ writers, Unfailing o writer.tree writer.log) := by
  refine ⟨?_, ?_, ?_, ?_⟩
  · intro path createValue ttl previousKeys minLevelSemaphore result log runs
    exact (deepTreeSet_tidy o path createValue ttl minLevelSemaphore previousKeys .nil).sound runs
  · intro path value ttl result log runs
    exact (setNode_tidy o path ttl value .nil).sound runs
  · intro tree create minLevelSemaphore ttl result log runs
    exact (fullTreeSet_tidy o ttl minLevelSemaphore create tree .nil).sound runs
  · intro keys writers runs
    exact forall₂_congr fun writer member => pruneRuns_log o runs writer member

end

theorem exists_runs (edit : Y → Option T) (p : Prog Y T R A) : ∀ (w : World R) (log : LockLog),
    ∃ log', p.Runs anyAnswer log (p.run edit w).result log' ∧ log'.rejected = log.rejected := by
  induction p with
  | ret result => exact fun w log => ⟨log, .ret result log, rfl⟩
  | dateNow k ih =>
      intro w log
      obtain ⟨log', rest, same⟩ := ih w.clock w log
      exact ⟨log', .dateNow w.clock rfl rest, same⟩
  | get key k ih =>
      intro w log
      obtain ⟨log', rest, same⟩ := ih (.ok (w.read key)) w log
      exact ⟨log', .get _ rfl rest, same⟩
  | set key value ttl k ih =>
      intro w log
      obtain ⟨log', rest, same⟩ := ih (.ok ()) (w.write key value ttl) log
      exact ⟨log', .set (.ok ()) rfl rest, same⟩
  | getCurrentTtl key k ih =>
      intro w log
      obtain ⟨log', rest, same⟩ := ih (.ok (w.currentTtl key)) w log
      exact ⟨log', .getCurrentTtl _ rfl rest, same⟩
  | registerChild parent child k ih =>
      intro w log
      obtain ⟨log', rest, same⟩ := ih (.ok ()) (w.register parent child) log
      exact ⟨log', .registerChild (.ok ()) rfl rest, same⟩
  | acquire key k ih =>
      intro w log
      obtain ⟨log', rest, same⟩ := ih (.ok ()) w (log.lock (.acquired key))
      exact ⟨log', .acquire (.ok ()) rfl rest, same⟩
  | release key k ih =>
      intro w log
      obtain ⟨log', rest, same⟩ := ih w (log.lock (.released key))
      exact ⟨log', .release rfl rest, same⟩
  | yield item k ih =>
      intro w log
      obtain ⟨log', rest, same⟩ := ih (.ok (edit item)) w log
      exact ⟨log', .yield _ rfl rest, same⟩

theorem staleWorld_pruned : ∃ chainedKey tree log,
    (pruneRead (Text.options 2).toOptions "a:b" : Prog (Step Nat) Nat String _).Runs anyAnswer .start
      (.ok (some (chainedKey, tree))) log := by
  have found : (((pruneRead (Text.options 2).toOptions "a:b" : Prog (Step Nat) Nat String _).run
      Step.value staleWorld).result.toOption.map Option.isSome) = some true := by decide +kernel
  obtain ⟨log, runs, _⟩ := exists_runs Step.value
    (pruneRead (Text.options 2).toOptions "a:b" : Prog (Step Nat) Nat String _) staleWorld .start
  generalize (Prog.run Step.value (pruneRead (Text.options 2).toOptions "a:b") staleWorld).result =
    result at found runs
  obtain ⟨answer, ended, some⟩ := Option.map_eq_some_iff.mp found
  obtain ⟨⟨chainedKey, tree⟩, rfl⟩ := Option.isSome_iff_exists.mp some
  cases result with
  | error e => cases ended
  | ok answer =>
      obtain rfl := Option.some.inj ended
      exact ⟨chainedKey, tree, log, runs⟩

theorem semaphores_released_staleWorld :
    ∃ writers, writers ≠ [] ∧ PruneRuns (Text.options 2).toOptions ["a:b"] writers ∧
      ∀ writer ∈ writers, Paired writer.log.locks := by
  obtain ⟨chainedKey, tree, log, read⟩ := staleWorld_pruned
  obtain ⟨log', write, unrejected⟩ := exists_runs Step.value
    (pruneWrite (Text.options 2).toOptions chainedKey tree : Prog (Step Nat) Nat String Unit)
    staleWorld .start
  have runs := PruneRuns.wrote read write (.stopped [])
  refine ⟨_, List.cons_ne_nil _ _, runs, ?_⟩
  refine ((semaphores_released (Text.options 2).toOptions).2.2.2 _ _ runs).mpr fun writer member => ?_
  rw [List.mem_singleton.mp member]
  exact Or.inr ⟨unrejected, Text.encodeTree tree, rfl⟩

/-- A rejected `getCurrentTtl` leaves the semaphore of the key acquired for ever. -/
theorem semaphore_leaked :
    ¬ ∀ keys writers, PruneRuns (Text.options 2).toOptions keys writers →
      ∀ writer ∈ writers, Paired writer.log.locks := by
  intro released
  obtain ⟨chainedKey, tree, log, read⟩ := staleWorld_pruned
  have write : (pruneWrite (Text.options 2).toOptions chainedKey tree :
      Prog (Step Nat) Nat String Unit).Runs anyAnswer .start (.error (.thrown "timeout"))
        ⟨[.acquired chainedKey], [.getCurrentTtl]⟩ :=
    .acquire (.ok ()) rfl (.getCurrentTtl (.error (.thrown "timeout")) rfl (.ret _ _))
  exact not_paired_acquired chainedKey
    (released ["a:b"] _ (.wrote read write (.stopped [])) _ List.mem_cons_self)

end TreeKeyCache
