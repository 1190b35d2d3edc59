import TreeKeyCache.OneKey
import TreeKeyCache.TextSerializers
import Mathlib.Data.Set.Card

/-! # Every run can be completed

The work that a run of `prune` has left is a multiset of keys, a pipeline, threads and
scheduled releases, and every action but the passing of time replaces one of these by smaller
ones.  A run in which none of these actions is possible has ended with all semaphores free:
threads wait for a semaphore only while they hold none. -/
set_option autoImplicit false
namespace TreeKeyCache

open Prog SharedCells
open Relation (CutExpand)

variable {Y T R A : Type}

/-! ## Pieces of work -/

inductive Work (Y T R : Type) where
  | key
  | pipeline (prog : Prog Y T R (Option (String × Tree R)))
  | thread (prog : Prog Y T R Unit)
  | release

/-- What an action may leave in the place of a piece. -/
inductive Work.Smaller : Work Y T R → Work Y T R → Prop where
  | turn {event : Option (Event R)} {failed : Bool} {prog next : Prog Y T R Unit}
      (turn : prog.Turn event failed next) : Smaller (.thread next) (.thread prog)
  | scheduled (prog : Prog Y T R Unit) : Smaller .release (.thread prog)
  | read {event : Option (Event R)} {failed : Bool} {prog next : Prog Y T R (Option (String × Tree R))}
      (turn : prog.Turn event failed next) : Smaller (.pipeline next) (.pipeline prog)
  | writer (prog : Prog Y T R Unit) (pipeline : Prog Y T R (Option (String × Tree R))) :
      Smaller (.thread prog) (.pipeline pipeline)
  | pulled (pipeline : Prog Y T R (Option (String × Tree R))) : Smaller (.pipeline pipeline) .key

theorem Prog.turn_wellFounded : WellFounded fun next prog : Prog Y T R A =>
    ∃ (event : Option (Event R)) (failed : Bool), prog.Turn event failed next := by
  refine ⟨fun prog => ?_⟩
  induction prog with
  | ret result =>
      refine ⟨_, ?_⟩
      rintro next ⟨event, failed, turn⟩
      cases turn
  | dateNow k ih =>
      refine ⟨_, ?_⟩
      rintro next ⟨event, failed, turn⟩
      cases turn
      exact ih _
  | get key k ih =>
      refine ⟨_, ?_⟩
      rintro next ⟨event, failed, turn⟩
      cases turn <;> exact ih _
  | set key value ttl k ih =>
      refine ⟨_, ?_⟩
      rintro next ⟨event, failed, turn⟩
      cases turn <;> exact ih _
  | getCurrentTtl key k ih =>
      refine ⟨_, ?_⟩
      rintro next ⟨event, failed, turn⟩
      cases turn <;> exact ih _
  | registerChild parent child k ih =>
      refine ⟨_, ?_⟩
      rintro next ⟨event, failed, turn⟩
      cases turn <;> exact ih _
  | acquire key k ih =>
      refine ⟨_, ?_⟩
      rintro next ⟨event, failed, turn⟩
      cases turn <;> exact ih _
  | release key k ih =>
      refine ⟨_, ?_⟩
      rintro next ⟨event, failed, turn⟩
      cases turn
      exact ih
  | yield item k ih =>
      refine ⟨_, ?_⟩
      rintro next ⟨event, failed, turn⟩
      cases turn <;> exact ih _

namespace Work

theorem acc_release : Acc Smaller (release : Work Y T R) := ⟨_, fun _ smaller => by cases smaller⟩

theorem acc_thread (prog : Prog Y T R Unit) : Acc Smaller (thread prog) := by
  induction prog using Prog.turn_wellFounded.induction with
  | _ prog ih =>
      refine ⟨_, fun _ smaller => ?_⟩
      cases smaller with
      | turn turn => exact ih _ ⟨_, _, turn⟩
      | scheduled => exact acc_release

theorem acc_pipeline (prog : Prog Y T R (Option (String × Tree R))) : Acc Smaller (pipeline prog) := by
  induction prog using Prog.turn_wellFounded.induction with
  | _ prog ih =>
      refine ⟨_, fun _ smaller => ?_⟩
      cases smaller with
      | read turn => exact ih _ ⟨_, _, turn⟩
      | writer prog => exact acc_thread prog

theorem smaller_wellFounded : WellFounded (Smaller (Y := Y) (T := T) (R := R)) := by
  refine ⟨fun piece => ?_⟩
  cases piece with
  | release => exact acc_release
  | thread prog => exact acc_thread prog
  | pipeline prog => exact acc_pipeline prog
  | key =>
      refine ⟨_, fun _ smaller => ?_⟩
      cases smaller with
      | pulled prog => exact acc_pipeline prog

end Work

/-! ## What is left -/

/-- The pieces of the threads and of the releases. -/
noncomputable def Pool.left (p : Pool Y T R) : Multiset (Work Y T R) :=
  ↑(p.threads.map fun thread => Work.thread thread.prog) +
    Multiset.replicate p.pending.ncard Work.release

/-- A pipeline that waits for the next key is done with its work. -/
def pipelineLeft : Prog Y T R (Option (String × Tree R)) → Multiset (Work Y T R)
  | .ret (.ok none) => 0
  | prog => {.pipeline prog}

theorem mem_pipelineLeft {prog : Prog Y T R (Option (String × Tree R))} {piece : Work Y T R}
    (member : piece ∈ pipelineLeft prog) : piece = .pipeline prog := by
  unfold pipelineLeft at member
  split at member
  · exact absurd member (Multiset.notMem_zero piece)
  · exact Multiset.mem_singleton.mp member

noncomputable def PruneRun.left (run : PruneRun Y T R) : Multiset (Work Y T R) :=
  run.pool.left + (pipelineLeft run.reader + Multiset.replicate run.keys.length Work.key)

section
variable {mayFail : Nat → Prop} {p p' : Pool Y T R}

theorem OneKeyPool.left_turn (oneKeys : OneKeyPool mayFail p) {i : Nat} {thread : Thread Y T R}
    {event : Option (Event R)} {failed : Bool} {prog : Prog Y T R Unit}
    (turn : p.TurnOf p' i thread event failed prog) (may : failed = true → mayFail i) :
    CutExpand Work.Smaller p'.left p.left := by
  have replaced : p'.threads.map (fun thread => Work.thread thread.prog) =
      (p.threads.map fun thread => Work.thread thread.prog).set i (.thread prog) := by
    rw [turn.threads, List.map_set]
  have found : (p.threads.map fun thread => Work.thread thread.prog)[i]? = some (.thread thread.prog) := by
    rw [List.getElem?_map, turn.running]
    rfl
  have pending : p'.pending = p.pending ∪ {key | event = some (.released key)} := by
    rw [Pool.pending, turn.locks]
    exact pending_locksAfter turn.free
  obtain ⟨besides, scheduled, grown⟩ : ∃ besides, (∀ other ∈ besides, other = Work.release) ∧
      Multiset.replicate p'.pending.ncard (Work.release : Work Y T R) =
        besides + Multiset.replicate p.pending.ncard Work.release := by
    by_cases releases : ∃ key, event = some (.released key)
    · obtain ⟨key, rfl⟩ := releases
      have absent : key ∉ p.pending := by
        intro releasing
        have held := oneKeys.released turn may
        cases held.symm.trans releasing
      have one : {other | some (Event.released key : Event R) = some (.released other)} = {key} := by
        ext other
        exact ⟨fun same => (Event.released.inj (Option.some.inj same)).symm, fun same => same ▸ rfl⟩
      refine ⟨{Work.release}, fun other => Multiset.mem_singleton.mp, ?_⟩
      rw [pending, one, Set.union_singleton, Set.ncard_insert_of_notMem absent oneKeys.pending,
        Nat.add_comm, Multiset.replicate_add, Multiset.replicate_one]
    · have none : {key | event = some (.released key)} = ∅ :=
        Set.eq_empty_of_forall_notMem fun key released => releases ⟨key, released⟩
      refine ⟨0, fun other member => absurd member (Multiset.notMem_zero other), ?_⟩
      rw [pending, none, Set.union_empty, zero_add]
  rw [Pool.left, Pool.left, replaced, grown]
  exact Progress.cutExpand_set found (.turn turn.turn) fun other member =>
    scheduled other member ▸ .scheduled _

theorem OneKeyPool.left_fire (oneKeys : OneKeyPool mayFail p) {key : String}
    (releasing : p.locks key = .releasing) :
    CutExpand Work.Smaller { p with locks := Function.update p.locks key .free }.left p.left := by
  have pending : ({ p with locks := Function.update p.locks key .free } : Pool Y T R).pending =
      p.pending \ {key} := by
    ext other
    change Function.update p.locks key .free other = .releasing ↔
      p.locks other = .releasing ∧ other ≠ key
    by_cases here : other = key
    · simp [here]
    · rw [Function.update_of_ne here]
      exact ⟨fun freed => ⟨freed, here⟩, And.left⟩
  have one := Set.ncard_sdiff_singleton_add_one (show key ∈ p.pending from releasing) oneKeys.pending
  refine ⟨0, .release, fun other member => absurd member (Multiset.notMem_zero other), ?_⟩
  rw [add_zero, Pool.left, Pool.left, pending, ← one, Multiset.replicate_succ, add_assoc,
    ← Multiset.singleton_add]
  exact congrArg _ (add_comm _ _)

theorem OneKeyPool.left_suffer (oneKeys : OneKeyPool mayFail p) (action : FaultyAction T)
    (may : ∀ i, action.rejects = some i → mayFail i) (busy : ¬ action.Idle)
    (suffered : p.suffer action = some p') : CutExpand Work.Smaller p'.left p.left := by
  obtain ⟨i, thread, event, failed, prog, turn, _, rejected⟩ | ⟨key, _, releasing, rfl⟩ |
    ⟨t, rfl, _, _⟩ := Pool.suffer_cases suffered
  · exact oneKeys.left_turn turn fun isFailed => may i (rejected isFailed)
  · exact oneKeys.left_fire releasing
  · exact absurd trivial busy

theorem Pool.left_idle (action : FaultyAction T) (idle : action.Idle)
    (suffered : p.suffer action = some p') : p'.left = p.left := by
  obtain ⟨_, _, _, _, _, _, busy, _⟩ | ⟨key, rfl, _, _⟩ | ⟨t, _, _, rfl⟩ := suffer_cases suffered
  · exact absurd idle busy
  · exact idle.elim
  · rfl

end

/-! ## Runs of `prune` -/

/-- The program reads the clock and entries, and does nothing else. -/
def Prog.OnlyReads : Prog Y T R A → Prop
  | .ret _ => True
  | .dateNow k => ∀ t, (k t).OnlyReads
  | .get _ k => ∀ content, (k (.ok content)).OnlyReads
  | _ => False

theorem pruneRead_onlyReads [SerializedForm R] (o : Options T R) (key : String) :
    (pruneRead o key : Prog Y T R _).OnlyReads := by
  intro now
  change (Prog.ret (storageNodeRef o (splitKey key) now) >>= _).OnlyReads
  cases storageNodeRef o (splitKey key) now with
  | error e => trivial
  | ok found =>
      cases found with
      | none => trivial
      | some nodeRef =>
          intro content
          change (Prog.ret (finishNodeRef o (splitKey key) true now nodeRef content) >>= _).OnlyReads
          cases finishNodeRef o (splitKey key) true now nodeRef content with
          | error e => trivial
          | ok item =>
              cases item with
              | none => trivial
              | some item =>
                  change (if item.ref.level = o.keyLevelNodes then _ else _ : Prog Y T R _).OnlyReads
                  split
                  · intro later
                    change (if (pruneTree later item.treeRef item.ref.parentRef).2 = true then
                      pure _ else pure none : Prog Y T R _).OnlyReads
                    split <;> trivial
                  · trivial

section
variable [SerializedForm R] (o : Options T R)

/-- The threads up to `n`, which were there before, hold one semaphore at a time, whatever
fails; and there are no writers of `prune` whose trees cannot be serialized. -/
structure Completable (n : Nat) (run : PruneRun Y T R) : Prop where
  pool : OneKeyPool (· < n) run.pool
  before : n ≤ run.pool.threads.length
  reads : run.reader.OnlyReads
  serializes : (run.keys = [] ∧ run.reader = .ret (.ok none)) ∨
    ∀ tree, ∃ r, o.treeSerializer.serialize tree = .ok r

def FaultyPruneAction.Spares (n : Nat) (action : FaultyPruneAction T) : Prop :=
  ∀ i, action.rejects = some i → i < n

variable {o} {n : Nat} {run next : PruneRun Y T R}

theorem Completable.suffer (completable : Completable o n run) (action : FaultyPruneAction T)
    (spares : action.Spares n) (suffered : run.suffer o action = some next) : Completable o n next := by
  cases action with
  | pool action =>
      obtain ⟨p, poolSuffered, rfl⟩ := Option.map_eq_some_iff.mp suffered
      refine ⟨completable.pool.suffer action spares poolSuffered, ?_, completable.reads,
        completable.serializes⟩
      rw [Pool.suffer_length poolSuffered]
      exact completable.before
  | pull =>
      obtain ⟨key, rest, idle, keys, rfl⟩ | ⟨key, tree, found, rfl⟩ | ⟨k, asks, rfl⟩ |
        ⟨key, k, asks, rfl⟩ := PruneRun.pull_cases suffered
      · have serializes := completable.serializes.resolve_left fun none =>
          List.cons_ne_nil key rest (keys.symm.trans none.1)
        exact ⟨completable.pool, completable.before, pruneRead_onlyReads o key, .inr serializes⟩
      · have serializes := completable.serializes.resolve_left fun none => by
          rw [found] at none
          cases none.2
        obtain ⟨r, serialized⟩ := serializes tree
        refine ⟨completable.pool.join _ ?_, ?_, trivial, .inr serializes⟩
        · have late : (run.pool.threads.length < n) = False :=
            eq_false (Nat.not_lt.mpr completable.before)
          rw [late]
          exact pruneWrite_oneKey o key tree serialized
        · rw [List.length_append]
          exact completable.before.trans (Nat.le_add_right _ _)
      · have serializes := completable.serializes.resolve_left fun none => by
          rw [asks] at none
          cases none.2
        have reads := completable.reads
        rw [asks] at reads
        exact ⟨completable.pool, completable.before, reads _, .inr serializes⟩
      · have serializes := completable.serializes.resolve_left fun none => by
          rw [asks] at none
          cases none.2
        have reads := completable.reads
        rw [asks] at reads
        exact ⟨completable.pool, completable.before, reads _, .inr serializes⟩

/-- A key leaves a pipeline, and a pipeline leaves what is left of it, or a writer. -/
theorem PruneRun.left_pull (pulled : run.pull o = some next) :
    CutExpand Work.Smaller next.left run.left := by
  obtain ⟨key, rest, idle, keys, rfl⟩ | ⟨key, tree, found, rfl⟩ | ⟨k, asks, rfl⟩ |
    ⟨key, k, asks, rfl⟩ := PruneRun.pull_cases pulled
  · refine ⟨pipelineLeft (pruneRead o key), .key, fun piece member => ?_, ?_⟩
    · exact mem_pipelineLeft member ▸ .pulled _
    · simp only [PruneRun.left, idle, keys, List.length_cons, Multiset.replicate_succ, pipelineLeft,
        ← Multiset.singleton_add]
      ac_rfl
  · refine ⟨{.thread (pruneWrite o key tree)}, .pipeline (.ret (.ok (some (key, tree)))),
      fun piece member => ?_, ?_⟩
    · exact Multiset.mem_singleton.mp member ▸ .writer _ _
    · simp only [PruneRun.left, Pool.left, Pool.pending, found, pipelineLeft, List.map_append,
        List.map_cons, List.map_nil, ← Multiset.coe_add, Multiset.coe_singleton]
      ac_rfl
  · refine ⟨pipelineLeft (k run.pool.world.clock), .pipeline (.dateNow k), fun piece member => ?_, ?_⟩
    · exact mem_pipelineLeft member ▸ .read (.dateNow _ k)
    · simp only [PruneRun.left, asks, pipelineLeft]
      ac_rfl
  · refine ⟨pipelineLeft (k (.ok (run.pool.world.read key))), .pipeline (.get key k),
      fun piece member => ?_, ?_⟩
    · exact mem_pipelineLeft member ▸ .read (.get key _ k)
    · simp only [PruneRun.left, asks, pipelineLeft]
      ac_rfl

theorem Completable.left_suffer (completable : Completable o n run) (action : FaultyPruneAction T)
    (spares : action.Spares n) (busy : ¬ action.Idle) (suffered : run.suffer o action = some next) :
    CutExpand Work.Smaller next.left run.left := by
  cases action with
  | pull => exact PruneRun.left_pull suffered
  | pool action =>
      obtain ⟨p, poolSuffered, rfl⟩ := Option.map_eq_some_iff.mp suffered
      exact (Relation.cutExpand_add_right _).mpr
        (completable.pool.left_suffer action spares busy poolSuffered)

theorem PruneRun.left_idle (action : FaultyPruneAction T) (idle : action.Idle)
    (suffered : run.suffer o action = some next) : next.left = run.left := by
  cases action with
  | pull => exact idle.elim
  | pool action =>
      obtain ⟨p, poolSuffered, rfl⟩ := Option.map_eq_some_iff.mp suffered
      exact congrArg (· + _) (Pool.left_idle action idle poolSuffered)

variable (o n)

theorem dwindles : Progress.Dwindles (PruneRun.suffer (Y := Y) o) (CutExpand Work.Smaller) PruneRun.left
    (Completable o n) (FaultyPruneAction.Spares n) FaultyPruneAction.Idle where
  wellFounded := Work.smaller_wellFounded.cutExpand
  keeps _ action _ completable spares suffered := completable.suffer action spares suffered
  idles _ action _ _ idle suffered := PruneRun.left_idle action idle suffered
  works _ action _ completable spares busy suffered := completable.left_suffer action spares busy suffered

end

/-! ## Where nothing is possible any more -/

section
variable {p : Pool Y T R}

theorem Pool.advance_none {i : Nat} {thread : Thread Y T R} (waits : p.advance i thread = none) :
    (∃ result, thread.prog = .ret result) ∨ ∃ key k, thread.prog = .acquire key k ∧ p.locks key ≠ .free := by
  rcases thread with ⟨consumer, prog⟩
  cases prog with
  | ret result => exact .inl ⟨result, rfl⟩
  | acquire key k =>
      refine .inr ⟨key, k, rfl, fun free => ?_⟩
      simp only [advance, free, if_true] at waits
      cases waits
  | dateNow k => cases waits
  | get key k => cases waits
  | set key value ttl k => cases waits
  | getCurrentTtl key k => cases waits
  | registerChild parent child k => cases waits
  | release key k => cases waits
  | yield item k => cases waits

theorem OneKeyPool.all_free {mayFail : Nat → Prop} (oneKeys : OneKeyPool mayFail p)
    (stuck : ∀ action : FaultyAction T, action.Regular → p.suffer action = none) (key : String) :
    p.locks key = .free := by
  cases state : p.locks key with
  | free => rfl
  | releasing =>
      have fires := stuck (.pool (.fire key)) trivial
      simp only [Pool.suffer, Pool.act, state, if_true] at fires
      cases fires
  | held i =>
      -- the owner holds a semaphore, so it has neither ended nor does it wait for another one
      have bound : i < p.threads.length := by
        by_contra past
        exact oneKeys.beyond i key (by omega) state
      have running := List.getElem?_eq_getElem bound
      obtain ⟨held, holds, oneKey⟩ := oneKeys.threads i _ running
      have waits : p.advance i p.threads[i] = none := by
        have none := stuck (.pool (.run i)) trivial
        rw [Pool.suffer, Pool.act, running] at none
        exact none
      have nothing : held = none := by
        obtain ⟨result, ended⟩ | ⟨other, k, acquires, _⟩ := Pool.advance_none waits
        · rw [ended] at oneKey
          exact oneKey
        · rw [acquires] at oneKey
          exact oneKey.1
      rw [holds key, nothing] at state
      cases state

theorem OneKeyPool.all_ended {mayFail : Nat → Prop} (oneKeys : OneKeyPool mayFail p)
    (stuck : ∀ action : FaultyAction T, action.Regular → p.suffer action = none) :
    p.finished = true := by
  rw [Pool.finished, List.all_eq_true]
  intro thread member
  obtain ⟨i, running⟩ := List.getElem?_of_mem member
  have waits : p.advance i thread = none := by
    have none := stuck (.pool (.run i)) trivial
    rw [Pool.suffer, Pool.act, running] at none
    exact none
  obtain ⟨result, ended⟩ | ⟨key, k, _, taken⟩ := Pool.advance_none waits
  · rw [ended]
  · exact absurd (oneKeys.all_free stuck key) taken

end

/-! ## The runs of the writers and of `prune` -/

/-- Every thread has ended, every semaphore is free, and the pipeline has come to its last key or
has thrown. -/
structure PruneRun.Ended (run : PruneRun Y T R) : Prop where
  finished : run.pool.finished = true
  free : ∀ key, run.pool.locks key = .free
  pipeline : (run.keys = [] ∧ run.reader = .ret (.ok none)) ∨ ∃ e, run.reader = .ret (.error e)

section
variable [SerializedForm R] {o : Options T R} {n : Nat}

theorem Completable.ended {run : PruneRun Y T R} (completable : Completable o n run)
    (stuck : ∀ action : FaultyPruneAction T, action.Regular → run.suffer o action = none) : run.Ended := by
  have poolStuck : ∀ action : FaultyAction T, action.Regular → run.pool.suffer action = none := by
    intro action regular
    exact Option.map_eq_none_iff.mp (stuck (.pool action) regular)
  refine ⟨completable.pool.all_ended poolStuck, completable.pool.all_free poolStuck, ?_⟩
  have waits := stuck .pull trivial
  have reads := completable.reads
  rcases run with ⟨pool, keys, reader⟩
  cases reader with
  | ret result =>
      rcases result with e | _ | ⟨key, tree⟩
      · exact .inr ⟨e, rfl⟩
      · cases keys with
        | nil => exact .inl ⟨rfl, rfl⟩
        | cons key rest => cases waits
      · cases waits
  | dateNow k => cases waits
  | get key k => cases waits
  | set key value ttl k => exact reads.elim
  | getCurrentTtl key k => exact reads.elim
  | registerChild parent child k => exact reads.elim
  | acquire key k => exact reads.elim
  | release key k => exact reads.elim
  | yield item k => exact reads.elim

theorem FaultyPruneAction.Regular.works {action : FaultyPruneAction T} (regular : action.Regular) :
    action.Spares n ∧ ¬ action.Idle := by
  cases action with
  | pull => exact ⟨fun i rejected => (Option.some_ne_none i rejected.symm).elim, id⟩
  | pool action =>
      refine ⟨fun i rejected => ?_, FaultyAction.Regular.not_idle regular⟩
      cases (FaultyAction.Regular.rejects regular).symm.trans rejected

theorem completable_start (w : World R) (threads : List (Thread (AnyItem T R) T R)) (keys : List String)
    (writing : ∀ thread ∈ threads, WritingProgram o thread.prog)
    (serializes : keys = [] ∨ ∀ tree, ∃ r, o.treeSerializer.serialize tree = .ok r) :
    Completable o threads.length (PruneRun.start w threads keys) :=
  ⟨oneKeyPool_start w threads fun _ thread running =>
      (writing thread (List.mem_of_getElem? running)).oneKey.of_true,
    le_refl _, trivial, serializes.imp_left fun none => ⟨none, rfl⟩⟩

/-- Writers and a run of `prune` in any interleaving, whatever fails in the writers: where no
operation is possible everything has ended and every semaphore is free, undisturbed operations
lead there from every state, and no run goes on for ever. -/
theorem every_run_completes (w : World R) (threads : List (Thread (AnyItem T R) T R))
    (keys : List String) (writing : ∀ thread ∈ threads, WritingProgram o thread.prog)
    (serializes : keys = [] ∨ ∀ tree, ∃ r, o.treeSerializer.serialize tree = .ok r)
    (schedule : List (FaultyPruneAction T)) (spares : ∀ action ∈ schedule, action.Spares threads.length)
    (run : PruneRun (AnyItem T R) T R)
    (ran : Progress.exec (PruneRun.suffer o) (PruneRun.start w threads keys) schedule = some run) :
    ((∀ action : FaultyPruneAction T, action.Regular → run.suffer o action = none) → run.Ended) ∧
      (∃ (rest : List (FaultyPruneAction T)) (final : PruneRun (AnyItem T R) T R),
        (∀ action ∈ rest, action.Regular) ∧ Progress.exec (PruneRun.suffer o) run rest = some final ∧
          final.Ended) ∧
      ∀ (states : ℕ → PruneRun (AnyItem T R) T R) (actions : ℕ → FaultyPruneAction T), states 0 = run →
        (∀ n, (states n).suffer o (actions n) = some (states (n + 1))) →
        (∀ n, (actions n).Spares threads.length) → ∃ N, ∀ n, N ≤ n → (actions n).Idle := by
  have reached := Progress.exec_invariant (dwindles o threads.length).keeps schedule spares _ run
    (completable_start w threads keys writing serializes) ran
  refine ⟨reached.ended, ?_, ?_⟩
  · obtain ⟨rest, final, regular, ran, completable, stuck⟩ := (dwindles o threads.length).completes
      FaultyPruneAction.Regular (fun _ regular => regular.works) run reached
    exact ⟨rest, final, regular, ran, completable.ended stuck⟩
  · rintro states actions rfl runs permitted
    exact (dwindles o threads.length).settles states actions runs permitted reached

end

/-- A `setNode`, a `deepTreeSet` and a `fullTreeSet`. -/
def mixedThreads : List (Thread (AnyItem Nat String) Nat String) :=
  [⟨Sum.elim Step.value fun item => item.value,
      (setNode (Text.options 2).toOptions ["a", "b"] (some (.value 1)) none).mapItem .inl⟩,
    ⟨Sum.elim Step.value fun item => item.value,
      (deepTreeSet (Text.options 2).toOptions ["a", "b"] (some fun _ => .ok (some 2)) none []
        0).mapItem .inl⟩,
    ⟨Sum.elim Step.value fun item => item.value,
      (fullTreeSet (Text.options 2).toOptions (.mk none none (some [("a", some (.mk (some 3) none none))]))
        (fun _ => .ok none) 0 none).mapItem .inr⟩]

/-- The second thread holds a semaphore when its read is rejected, and the third waits for it. -/
theorem every_run_completes_mixedThreads :
    ∃ run, Progress.exec (PruneRun.suffer (Text.options 2).toOptions)
        (PruneRun.start staleWorld mixedThreads ["a:b"])
        [.pull, .pool (.pool (.run 1)), .pool (.pool (.run 1)), .pool (.pool (.run 1)),
          .pool (.pool (.run 2)), .pool (.reject 1 (.thrown "timeout") false), .pull] = some run ∧
      ∃ (rest : List (FaultyPruneAction Nat)) (final : PruneRun (AnyItem Nat String) Nat String),
        (∀ action ∈ rest, action.Regular) ∧
          Progress.exec (PruneRun.suffer (Text.options 2).toOptions) run rest = some final ∧
          final.Ended := by
  have possible : (Progress.exec (PruneRun.suffer (Text.options 2).toOptions)
      (PruneRun.start staleWorld mixedThreads ["a:b"])
      [.pull, .pool (.pool (.run 1)), .pool (.pool (.run 1)), .pool (.pool (.run 1)),
        .pool (.pool (.run 2)), .pool (.reject 1 (.thrown "timeout") false), .pull]).isSome = true := by
    decide +kernel
  obtain ⟨run, ran⟩ := Option.isSome_iff_exists.mp possible
  refine ⟨run, ran, (every_run_completes staleWorld mixedThreads ["a:b"] ?_ (.inr ?_) _ ?_ run ran).2.1⟩
  · intro thread member
    simp only [mixedThreads, List.mem_cons, List.not_mem_nil, or_false] at member
    rcases member with rfl | rfl | rfl
    · exact .setNode ["a", "b"] (some (.value 1)) none
    · exact .deepTreeSet ["a", "b"] _ none [] 0
    · exact .fullTreeSet _ _ 0 none
  · exact fun tree => ⟨_, rfl⟩
  · intro action member i rejected
    simp only [List.mem_cons, List.not_mem_nil, or_false] at member
    rcases member with rfl | rfl | rfl | rfl | rfl | rfl | rfl
    all_goals try cases rejected
    decide

end TreeKeyCache
