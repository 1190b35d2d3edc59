import TreeKeyCache.ConcurrentRuns
import TreeKeyCache.Journals

/-! # Concurrent runs that are interrupted

In a pool of `deepTreeSet` runs with the default `minLevelSemaphore` any operation may be rejected,
also a write that takes effect, and any consumer may throw.  At every moment the storage stands for
the replay of a history of whole edits: each run has edited the keys of its path in their order up
to some key, and all of them if it returned. -/
set_option autoImplicit false
namespace TreeKeyCache

open SharedCells (Job)

variable {Y T R A : Type}

/-! ## Consumers that assign what they always assign -/

/-- The consumer assigns something else. -/
def FaultyAction.Answers : FaultyAction T → Prop
  | .answer _ _ => True
  | _ => False

theorem Pool.suffer_consuming {p p' : Pool Y T R} {action : FaultyAction T} (own : ¬ action.Answers)
    (suffered : p.suffer action = some p') :
    (∃ i thread event failed prog, p.TurnOf p' i thread event failed prog ∧
      ∀ item k, thread.prog = .yield item k → failed = false → prog = k (.ok (thread.consumer item))) ∨
    (∃ key, p.locks key = .releasing ∧ p' = { p with locks := Function.update p.locks key .free }) ∨
    ∃ t, p' = { p with world := { p.world with clock := t } } := by
  rcases action with (i | key | t) | ⟨i, e, effective⟩ | ⟨i, value⟩
  · obtain ⟨thread, running, advanced⟩ := Option.bind_eq_some_iff.mp suffered
    obtain ⟨event, prog, turn⟩ := Pool.advance_cases running advanced
    refine .inl ⟨i, thread, event, false, prog, turn, fun item k yields _ => ?_⟩
    have bound : i < p.threads.length := (List.getElem?_eq_some_iff.mp running).1
    have threads := turn.threads
    rw [Pool.advance, yields] at advanced
    obtain rfl := Option.some.inj advanced
    have same := congrArg (fun threads => threads[i]?) threads
    simp only [Pool.resume, List.getElem?_set_self bound, Option.some.injEq, Thread.mk.injEq,
      true_and] at same
    exact same.symm
  · simp only [Pool.suffer, Pool.act] at suffered
    split at suffered
    · rename_i releasing
      exact .inr (.inl ⟨key, releasing, (Option.some.inj suffered).symm⟩)
    · cases suffered
  · simp only [Pool.suffer, Pool.act] at suffered
    split at suffered
    · exact .inr (.inr ⟨t, (Option.some.inj suffered).symm⟩)
    · cases suffered
  · obtain ⟨thread, running, rejected⟩ := Option.bind_eq_some_iff.mp suffered
    obtain ⟨event, prog, turn⟩ := Pool.reject_cases running rejected
    exact .inl ⟨i, thread, event, true, prog, turn, fun _ _ _ impossible => by cases impossible⟩
  · exact absurd trivial own

/-! ## `deepTreeSet` does not outlive a failure -/

section
variable [SerializedForm R] (o : Options T R) (path : List String) (createValue : Option (CreateValue T))
  (ttl : Option (StepTtl T))

open Prog

theorem persistStep_abrupt (step : Step T) (current : Option R) (chainedKey : String) :
    (persistStep o step current chainedKey ttl : Prog Y T R Unit).Abrupt := by
  unfold persistStep
  split
  · trivial
  · refine Abrupt.bind (abrupt_ret _) fun serialized => ?_
    split
    · exact abrupt_storageSet _ _ _
    · trivial

omit [SerializedForm R] in
theorem persistTree_abrupt (chainedKey : String) (seconds : Option ℚ) (tree : Tree R) :
    (persistTree o chainedKey seconds tree : Prog Y T R Unit).Abrupt := by
  have stored : ∀ maxTtl : Option ℚ, (ret (o.treeSerializer.serialize tree) >>= fun serialized =>
      storageSet chainedKey serialized maxTtl : Prog Y T R Unit).Abrupt :=
    fun maxTtl => Abrupt.bind (abrupt_ret _) fun _ => abrupt_storageSet _ _ _
  unfold persistTree
  dsimp only
  split
  · refine Abrupt.bind (abrupt_storageTtl _) fun _ => Abrupt.bind (abrupt_ret _) stored
  · exact stored none

omit [SerializedForm R] in
theorem treeNode_abrupt (now : ℚ) (nodeRef : ChainedObject) (tree : Tree R) :
    (treeNode o createValue now nodeRef tree).Abrupt :=
  Abrupt.bind (abrupt_ret _) fun _ => Abrupt.bind (abrupt_yieldItem _) fun _ => abrupt_ret _

theorem treeLevels_abrupt (now : ℚ) : ∀ (n level : Nat) (key : String)
    (parentRef : Option ChainedObject) (tree : Tree R) (maxTtl : Option ℚ),
      (treeLevels o path createValue ttl now n level key parentRef tree maxTtl).Abrupt := by
  intro n
  induction n with
  | zero =>
      intro level key parentRef tree maxTtl
      unfold treeLevels
      exact Abrupt.bind (treeNode_abrupt o createValue now _ _) fun _ => abrupt_ret _
  | succ n ih =>
      intro level key parentRef tree maxTtl
      unfold treeLevels
      refine Abrupt.bind (treeNode_abrupt o createValue now _ _) fun _ => ?_
      refine Abrupt.bind (abrupt_ret _) fun here => Abrupt.bind (abrupt_ret _) fun nextKey => ?_
      dsimp only
      split
      · exact Abrupt.bind (ih _ _ _ _ _) fun _ => abrupt_ret _
      · exact Abrupt.bind (ih _ _ _ _ _) fun _ => abrupt_ret _
      · exact Abrupt.bind (ih _ _ _ _ _) fun _ => abrupt_ret _

theorem keyLevel_brittle (cursor : Cursor) :
    (keyLevel o path createValue ttl 0 cursor).Brittle none := by
  unfold keyLevel
  refine Brittle.bind (brittle_ret _) fun keys => ?_
  refine Brittle.bind (brittle_storageRegister _ _) fun _ => ?_
  simp only [Nat.zero_le, decide_true, if_true]
  refine Abrupt.locked (Abrupt.bind (abrupt_storageGet _) fun current => ?_) _
  refine Abrupt.bind (abrupt_ret _) fun step => Abrupt.bind (abrupt_yieldItem _) fun value => ?_
  exact Abrupt.bind (persistStep_abrupt o ttl _ _ _) fun _ => abrupt_ret _

theorem keyLevels_brittle : ∀ (n : Nat) (cursor : Cursor),
    (keyLevels o path createValue ttl 0 n cursor).Brittle none := by
  intro n
  induction n with
  | zero => exact fun cursor => brittle_ret _
  | succ n ih => exact fun cursor => Brittle.bind (keyLevel_brittle o path createValue ttl cursor) ih

theorem treeLevel_brittle (now : ℚ) (cursor : Cursor) :
    (treeLevel o path createValue ttl 0 now cursor).Brittle none := by
  unfold treeLevel
  refine Brittle.bind (brittle_ret _) fun keys => ?_
  simp only [Nat.zero_le, decide_true, if_true]
  refine Abrupt.locked (Abrupt.bind (abrupt_storageGet _) fun buffer => ?_) _
  refine Abrupt.bind (abrupt_ret _) fun root => ?_
  refine Abrupt.bind (treeLevels_abrupt o path createValue ttl now _ _ _ _ _ _) fun result => ?_
  split
  · exact persistTree_abrupt o _ _ _
  · trivial

theorem deepTreeSet_brittle :
    (deepTreeSet o path createValue ttl [] 0).Brittle none := by
  unfold deepTreeSet
  refine Brittle.bind (fun _ => rfl) fun now => ?_
  refine Brittle.bind (keyLevels_brittle o path createValue ttl _ _) fun cursor => ?_
  split
  · split
    · exact brittle_ret _
    · exact treeLevel_brittle o path createValue ttl now cursor
  · exact brittle_ret _

end

/-! ## Histories -/

/-- The edits that have taken effect, oldest first: the run, and the prefix of its path under
whose key it has edited. -/
abbrev History := List (Nat × List String)

/-- The prefixes under whose keys run `i` has edited. -/
def History.of (history : History) (i : Nat) : List (List String) :=
  (history.filter fun entry => decide (entry.1 = i)).map Prod.snd

section
variable [SerializedForm R] (o : LawfulOptions T R) (runs : List (DeepRun T))

/-- One edit of the history on what a storage stands for. -/
def editEntry (f : List String → Option T) (entry : Nat × List String) : List String → Option T :=
  match runs[entry.1]? with
  | none => f
  | some run => editOn o run.createValue run.edit run.path [entry.2] f

/-- A job of a run that visits the key of a prefix of its path. -/
def VisitsJob (run : DeepRun T) (prefixPath : List String) (job : Job String (Option R)) : Prop :=
  ∃ s : Section (Step T) R, Visits o run.createValue run.edit run.path prefixPath s ∧ s.job = job

/-- Run `i` with the prefixes it still has to visit: it has not read the clock, or has a journal. -/
inductive Journals (p : Pool (Step T) T R) (run : DeepRun T) (i : Nat) (left : List (List String)) :
    Prog (Step T) T R Unit → Prop where
  | before (k : ℚ → Prog (Step T) T R Unit) (free : ∀ key, p.locks key ≠ .held i)
      (starts : ∀ now, ∃ jobs, List.Forall₂ (VisitsJob o run) left jobs ∧
        (k now).Wp (journalEnv (TreeEntry o) run.edit) Journal.Completed ⟨none, jobs, True⟩) :
      Journals p run i left (.dateNow k)
  | during (prog : Prog (Step T) T R Unit) (s : Journal R)
      (holds : ∀ key, p.locks key = .held i ↔ s.held.map Prod.fst = some key)
      (known : ∀ key content, s.held = some (key, content) → p.world.read key = content)
      (visits : List.Forall₂ (VisitsJob o run) left s.todo)
      (goes : prog.Wp (journalEnv (TreeEntry o) run.edit) Journal.Completed s) :
      Journals p run i left prog

structure JournalPool (f : List String → Option T) (p : Pool (Step T) T R) (history : History) :
    Prop where
  represents : Represents o p.world (history.foldl (editEntry o runs) f)
  listed : ∀ entry ∈ history, entry.1 < runs.length
  length : p.threads.length = runs.length
  threads : ∀ (i : Nat) (run : DeepRun T) (thread : Thread (Step T) T R), runs[i]? = some run →
    p.threads[i]? = some thread → ∃ left, history.of i ++ left = deepPrefixes o run.path ∧
      thread.consumer = run.edit ∧ Journals o p run i left thread.prog

variable {o} {runs}

theorem Represents.of_store {w w' : World R} {f : List String → Option T}
    (represents : Represents o w f) (store : w'.store = w.store) : Represents o w' f := by
  have read : ∀ key, w'.read key = w.read key := by
    intro key
    rw [World.read, World.readAt, store]
    exact readAt_of_permanent w represents.permanent _ _ key
  refine ⟨fun key entry stored => represents.permanent key entry (store ▸ stored), ?_, ?_⟩
  · intro q plain nonempty short
    rw [read]
    exact represents.sound q plain nonempty short
  · intro q plain nonempty
    rw [read]
    exact represents.held q plain nonempty

theorem Represents.edit {w w' : World R} {f : List String → Option T} (represents : Represents o w f)
    (positive : 1 ≤ o.keyLevelNodes) {i : Nat} {run : DeepRun T} (listed : runs[i]? = some run)
    {q : List String} {job : Job String (Option R)} (visits : VisitsJob o run q job)
    (onPath : q ∈ deepPrefixes o run.path)
    (written : (job.writes (w.read job.key) = none ∧ w' = w) ∨
      ∃ value, job.writes (w.read job.key) = some (some value) ∧ w' = w.write job.key value none) :
    Represents o w' (editEntry o runs f (i, q)) := by
  obtain ⟨s, visits, rfl⟩ := visits
  obtain ⟨beginning, nonempty, short⟩ := (mem_deepPrefixes o run.path q).mp onPath
  have performed := represents.perform run.path q s visits positive run.plain beginning nonempty short
  rw [editEntry, listed]
  refine performed.of_store ?_
  rw [World.store_perform w s visits.untimed]
  have job : s.job.writes (w.read s.job.key) =
      (s.writes (w.read s.key)).map fun written => some written.1 := rfl
  rcases written with ⟨nothing, rfl⟩ | ⟨value, stored, rfl⟩
  · rw [job, Option.map_eq_none_iff] at nothing
    rw [nothing]
  · rw [job] at stored
    obtain ⟨⟨r, rule⟩, writes, same⟩ := Option.map_eq_some_iff.mp stored
    obtain rfl : r = value := Option.some.inj same
    rw [writes]
    rfl

/-! ## One operation -/

omit [SerializedForm R] in
theorem History.of_append (history : History) (i j : Nat) (q : List String) :
    History.of (history ++ [(i, q)]) j = history.of j ++ if i = j then [q] else [] := by
  unfold History.of
  rw [List.filter_append, List.map_append]
  by_cases same : i = j
  · simp [same]
  · simp [same]

section
variable {f : List String → Option T} {p p' : Pool (Step T) T R} {history : History}

theorem Journals.kept {run : DeepRun T} {j : Nat} {left : List (List String)}
    {prog : Prog (Step T) T R Unit} (journals : Journals o p run j left prog)
    (locks : ∀ key, p'.locks key = .held j ↔ p.locks key = .held j)
    (reads : ∀ key, p.locks key = .held j → p'.world.read key = p.world.read key) :
    Journals o p' run j left prog := by
  cases journals with
  | before k free starts => exact .before k (fun key mine => free key ((locks key).mp mine)) starts
  | during prog s holds known visits goes =>
      refine .during prog s (fun key => (locks key).trans (holds key)) (fun key content held => ?_)
        visits goes
      rw [reads key ((holds key).mpr (by rw [held]; rfl))]
      exact known key content held

theorem JournalPool.assemble (pool : JournalPool o runs f p history) {i : Nat}
    {thread : Thread (Step T) T R} {event : Option (Event R)} {failed : Bool}
    {prog : Prog (Step T) T R Unit} (turn : p.TurnOf p' i thread event failed prog) {run : DeepRun T}
    (listed : runs[i]? = some run) (consumer : thread.consumer = run.edit) {later : History}
    {left : List (List String)}
    (mine : later = [] ∨ ∃ q, later = [(i, q)])
    (represents : Represents o p'.world ((history ++ later).foldl (editEntry o runs) f))
    (split : (history ++ later).of i ++ left = deepPrefixes o run.path)
    (journals : Journals o p' run i left prog)
    (others : ∀ j key, j ≠ i → (p'.locks key = .held j ↔ p.locks key = .held j) ∧
      (p.locks key = .held j → p'.world.read key = p.world.read key)) :
    JournalPool o runs f p' (history ++ later) := by
  have bound : i < p.threads.length := (List.getElem?_eq_some_iff.mp turn.running).1
  refine ⟨represents, ?_, ?_, fun j other theirs listedOther running => ?_⟩
  · intro entry member
    rcases List.mem_append.mp member with old | new
    · exact pool.listed entry old
    · rcases mine with rfl | ⟨q, rfl⟩
      · cases new
      · obtain rfl := List.mem_singleton.mp new
        rw [← pool.length]
        exact bound
  · rw [turn.threads, List.length_set]
    exact pool.length
  · rw [turn.threads] at running
    by_cases same : j = i
    · subst same
      rw [List.getElem?_set_self bound] at running
      obtain rfl := Option.some.inj running
      obtain rfl := Option.some.inj (listed.symm.trans listedOther)
      exact ⟨left, split, consumer, journals⟩
    · rw [List.getElem?_set_ne (Ne.symm same)] at running
      obtain ⟨left', split', consumer', journals'⟩ := pool.threads j other theirs listedOther running
      refine ⟨left', ?_, consumer', journals'.kept (fun key => (others j key same).1)
        fun key => (others j key same).2⟩
      rcases mine with rfl | ⟨q, rfl⟩
      · rwa [List.append_nil]
      · rwa [History.of_append, if_neg (Ne.symm same), List.append_nil]

theorem JournalPool.turn (positive : 1 ≤ o.keyLevelNodes) (pool : JournalPool o runs f p history)
    {i : Nat} {thread : Thread (Step T) T R} {event : Option (Event R)} {failed : Bool}
    {prog : Prog (Step T) T R Unit} (turn : p.TurnOf p' i thread event failed prog)
    (answers : ∀ item k, thread.prog = .yield item k → failed = false →
      prog = k (.ok (thread.consumer item))) :
    ∃ later : History, JournalPool o runs f p' (history ++ later) ∧ ∀ entry ∈ later, entry.1 = i := by
  have bound : i < runs.length := by
    rw [← pool.length]
    exact (List.getElem?_eq_some_iff.mp turn.running).1
  have listed : runs[i]? = some runs[i] := List.getElem?_eq_getElem bound
  generalize runs[i] = run at listed
  obtain ⟨left, split, consumer, journals⟩ := pool.threads i run thread listed turn.running
  have moved := turn.turn
  generalize same : thread.prog = current at journals moved
  cases journals with
  | before k free starts =>
      cases moved with
      | dateNow t =>
          obtain ⟨jobs, visits, goes⟩ := starts t
          refine ⟨[], ?_, fun _ impossible => by cases impossible⟩
          refine pool.assemble turn listed consumer (.inl rfl) ?_ ?_
            (.during _ ⟨none, jobs, True⟩ (fun key => ?_) (fun _ _ impossible => ?_) visits goes) ?_
          · rw [List.append_nil, turn.world]
            exact pool.represents
          · rwa [List.append_nil]
          · rw [turn.locks]
            exact ⟨fun mine => absurd mine (free key), fun impossible => by cases impossible⟩
          · cases impossible
          · intro j key _
            rw [turn.locks, turn.world]
            exact ⟨Iff.rfl, fun _ => rfl⟩
  | during current s holds known visits goes =>
      have consumes : ∀ item k, current = .yield item k → failed = false →
          prog = k (.ok (run.edit item)) := by
        rw [← same, ← consumer]
        exact answers
      have readsCurrent : ∀ key k, current = .get key k → failed = false →
          prog = k (.ok (p.world.read key)) := by
        rw [← same]
        exact turn.reads
      obtain ⟨allowed, s', next, after, knownAfter, advances⟩ := goes.journal_turn moved readsCurrent
        consumes (fun key => (pool.represents.goodContent key).treeEntry o key _) known
      have elsewhere : ∀ j key, j ≠ i → (p'.locks key = .held j ↔ p.locks key = .held j) ∧
          (p.locks key = .held j → p'.world.read key = p.world.read key) := by
        intro j key apart
        rw [turn.locks]
        refine ⟨locksAfter_other apart holds allowed turn.free key, fun theirs => turn.read_kept ?_⟩
        rintro value ttl rfl
        cases advances with
        | waits _ stores => exact stores key value ttl rfl
        | writes job value first held written =>
            have mine := (holds job.key).mpr held
            rw [theirs] at mine
            exact apart (SharedCells.Lock.held.inj mine)
      have goesOn : ∀ left', List.Forall₂ (VisitsJob o run) left' s'.todo →
          Journals o p' run i left' prog := by
        intro left' visits'
        refine .during prog s' (fun key => ?_) ?_ visits' next
        · rw [turn.locks, after]
          exact locksAfter_self holds allowed key
        · rw [turn.world]
          exact knownAfter
      -- the first of the jobs that are left is done
      have done : ∀ job, s.todo = job :: s'.todo →
          ((job.writes (p.world.read job.key) = none ∧ p'.world = p.world) ∨
            ∃ value, job.writes (p.world.read job.key) = some (some value) ∧
              p'.world = p.world.write job.key value none) →
          ∃ later : History, JournalPool o runs f p' (history ++ later) ∧ ∀ entry ∈ later, entry.1 = i := by
        intro job first written
        rw [first] at visits
        obtain ⟨q, left', visit, visits', rfl⟩ := List.forall₂_cons_right_iff.mp visits
        have onPath : q ∈ deepPrefixes o run.path := by
          rw [← split]
          exact List.mem_append_right _ List.mem_cons_self
        refine ⟨[(i, q)], ?_, fun entry member => by rw [List.mem_singleton.mp member]⟩
        refine pool.assemble turn listed consumer (.inr ⟨q, rfl⟩) ?_ ?_ (goesOn left' visits') elsewhere
        · rw [List.foldl_append]
          exact pool.represents.edit positive listed visit onPath written
        · rw [History.of_append, if_pos rfl, List.append_assoc]
          exact split
      cases advances with
      | waits sameTodo stores =>
          refine ⟨[], ?_, fun _ impossible => by cases impossible⟩
          refine pool.assemble turn listed consumer (.inl rfl) ?_ ?_ (goesOn left (sameTodo ▸ visits))
            elsewhere
          · rw [List.append_nil]
            refine pool.represents.of_store ?_
            rw [turn.world]
            rcases event with _ | (⟨key, value, ttl⟩ | _ | _ | _)
            · rfl
            · exact absurd rfl (stores key value ttl)
            · rfl
            · rfl
            · rfl
          · rwa [List.append_nil]
      | passes job first nothing => exact done job first (.inl ⟨nothing, turn.world⟩)
      | writes job value first held written => exact done job first (.inr ⟨value, written, turn.world⟩)

/-! ## Runs -/

theorem JournalPool.suffer (positive : 1 ≤ o.keyLevelNodes) (pool : JournalPool o runs f p history)
    {action : FaultyAction T} (own : ¬ action.Answers) (suffered : p.suffer action = some p') :
    ∃ later : History, JournalPool o runs f p' (history ++ later) ∧
      ∀ entry ∈ later, ¬ p.Ended entry.1 := by
  obtain ⟨i, thread, event, failed, prog, turn, answers⟩ | ⟨key, releasing, rfl⟩ | ⟨t, rfl⟩ :=
    Pool.suffer_consuming own suffered
  · obtain ⟨later, next, mine⟩ := pool.turn positive turn answers
    refine ⟨later, next, fun entry member => ?_⟩
    rw [mine entry member]
    exact turn.not_ended
  · refine ⟨[], ?_, fun _ impossible => by cases impossible⟩
    rw [List.append_nil]
    refine ⟨pool.represents, pool.listed, pool.length, fun i run thread listed running => ?_⟩
    obtain ⟨left, split, consumer, journals⟩ := pool.threads i run thread listed running
    refine ⟨left, split, consumer, journals.kept (fun other => ?_) fun _ _ => rfl⟩
    show Function.update p.locks key .free other = .held i ↔ _
    by_cases here : other = key
    · simp [here, releasing]
    · rw [Function.update_of_ne here]
  · refine ⟨[], ?_, fun _ impossible => by cases impossible⟩
    rw [List.append_nil]
    refine ⟨pool.represents.of_store rfl, pool.listed, pool.length, fun i run thread listed running => ?_⟩
    obtain ⟨left, split, consumer, journals⟩ := pool.threads i run thread listed running
    refine ⟨left, split, consumer, journals.kept (fun _ => Iff.rfl) fun key _ => ?_⟩
    exact readAt_of_permanent p.world pool.represents.permanent t p.world.clock key

/-- Along a run the history grows, by edits of runs that had not ended. -/
theorem JournalPool.exec (positive : 1 ≤ o.keyLevelNodes) : ∀ (schedule : List (FaultyAction T)),
    (∀ action ∈ schedule, ¬ action.Answers) → ∀ (p p' : Pool (Step T) T R) (history : History),
      JournalPool o runs f p history → Progress.exec Pool.suffer p schedule = some p' →
        ∃ later : History, JournalPool o runs f p' (history ++ later) ∧
          ∀ entry ∈ later, ¬ p.Ended entry.1 := by
  intro schedule
  induction schedule with
  | nil =>
      intro _ p p' history pool ran
      obtain rfl := Option.some.inj ran
      exact ⟨[], by rwa [List.append_nil], fun _ impossible => by cases impossible⟩
  | cons action rest ih =>
      intro own p p' history pool ran
      obtain ⟨next, suffered, ran⟩ := Option.bind_eq_some_iff.mp ran
      obtain ⟨first, poolNext, going⟩ := pool.suffer positive (own action List.mem_cons_self) suffered
      obtain ⟨later, last, goingNext⟩ := ih (fun action listed => own action (List.mem_cons_of_mem _ listed))
        next p' _ poolNext ran
      refine ⟨first ++ later, by rwa [← List.append_assoc], fun entry member => ?_⟩
      rcases List.mem_append.mp member with early | late
      · exact going entry early
      · exact fun ended => goingNext entry late (ended.suffer suffered)

end

theorem DeepRun.journals (twoLevels : 2 ≤ o.keyLevelNodes) (run : DeepRun T) {p : Pool (Step T) T R}
    {i : Nat} (free : ∀ key, p.locks key ≠ .held i) :
    Journals o p run i (deepPrefixes o run.path) (run.thread o.toOptions).prog := by
  have starts := deepTreeSet_starts o run.createValue run.edit none run.path 0 twoLevels run.plain
  have brittle := deepTreeSet_brittle o.toOptions run.path (pureCreate run.createValue) none
  show Journals o p run i _ (deepTreeSet o.toOptions run.path (pureCreate run.createValue) none [] 0)
  obtain ⟨k, reads, performs⟩ := starts
  rw [reads] at brittle ⊢
  refine .before k free fun now => ?_
  have visits := deepSections_visits o run.createValue run.edit run.path 0 now (by omega)
  refine ⟨(deepSections o run.createValue run.edit none run.path 0 now).map Section.job, ?_, ?_⟩
  · rw [List.forall₂_map_right_iff]
    exact visits.imp fun q s visits => ⟨s, visits, rfl⟩
  · refine (performs now).journal _ ⟨⟨fun _ impossible => (by cases impossible), fun s listed => ?_, rfl⟩,
      fun _ impossible => (by cases impossible), fun s listed => ?_⟩ (brittle now)
      ⟨trivial, rfl, rfl, fun _ _ _ _ impossible => by cases impossible⟩
    · obtain ⟨q, _, visits⟩ := exists_of_mem_forall₂ visits s listed
      exact visits.untimed
    · exact deepSections_locked run.createValue run.edit run.path now s listed

end

end TreeKeyCache
