import Mathlib.Logic.Relation
import Mathlib.Logic.Function.Basic

/-! # Read-modify-write jobs on shared cells

Threads take turns at jobs: a job enters, with the lock of its cell or without, reads
the cell, writes it or not depending on what it read, and leaves; a lock becomes free
some time after its job has left.  A cell is *serialized* by a set of writers when it
always is the result of the writers' jobs so far, applied one after the other in the
order in which they entered.  Two rules establish this: every writer's job on the cell
is locked, or there is one writer. -/
set_option autoImplicit false
namespace SharedCells

variable {I Key Val : Type}

structure Job (Key Val : Type) where
  key : Key
  locked : Bool
  writes : Val → Option Val

def Job.after (job : Job Key Val) (v : Val) : Val := (job.writes v).getD v

inductive Phase (Key Val : Type) where
  | idle
  | entered (job : Job Key Val)
  | loaded (job : Job Key Val) (seen : Val)
  | stored (job : Job Key Val)

def Phase.job : Phase Key Val → Option (Job Key Val)
  | idle => none
  | entered job => some job
  | loaded job _ => some job
  | stored job => some job

inductive Lock (I : Type) where
  | free
  | held (owner : I)
  | releasing
deriving DecidableEq

/-- The log lists the jobs in the order in which they entered. -/
structure State (I Key Val : Type) where
  cell : Key → Val
  lock : Key → Lock I
  phase : I → Phase Key Val
  log : List (I × Job Key Val)

def State.start (cell : Key → Val) : State I Key Val :=
  ⟨cell, fun _ => .free, fun _ => .idle, []⟩

variable [DecidableEq I] [DecidableEq Key]

inductive Move (admits : I → Job Key Val → Prop) : State I Key Val → State I Key Val → Prop where
  | acquire (s : State I Key Val) (i : I) (job : Job Key Val) (admitted : admits i job)
      (idle : s.phase i = .idle) (locked : job.locked = true) (free : s.lock job.key = .free) :
      Move admits s { s with
        lock := Function.update s.lock job.key (.held i)
        phase := Function.update s.phase i (.entered job)
        log := s.log ++ [(i, job)] }
  | enter (s : State I Key Val) (i : I) (job : Job Key Val) (admitted : admits i job)
      (idle : s.phase i = .idle) (unlocked : job.locked = false) :
      Move admits s { s with
        phase := Function.update s.phase i (.entered job)
        log := s.log ++ [(i, job)] }
  | load (s : State I Key Val) (i : I) (job : Job Key Val) (entered : s.phase i = .entered job) :
      Move admits s { s with phase := Function.update s.phase i (.loaded job (s.cell job.key)) }
  | store (s : State I Key Val) (i : I) (job : Job Key Val) (seen v : Val)
      (loaded : s.phase i = .loaded job seen) (written : job.writes seen = some v) :
      Move admits s { s with
        cell := Function.update s.cell job.key v
        phase := Function.update s.phase i (.stored job) }
  | skip (s : State I Key Val) (i : I) (job : Job Key Val) (seen : Val)
      (loaded : s.phase i = .loaded job seen) (unwritten : job.writes seen = none) :
      Move admits s { s with phase := Function.update s.phase i (.stored job) }
  | release (s : State I Key Val) (i : I) (job : Job Key Val) (stored : s.phase i = .stored job)
      (locked : job.locked = true) :
      Move admits s { s with
        lock := Function.update s.lock job.key .releasing
        phase := Function.update s.phase i .idle }
  | leave (s : State I Key Val) (i : I) (job : Job Key Val) (stored : s.phase i = .stored job)
      (unlocked : job.locked = false) :
      Move admits s { s with phase := Function.update s.phase i .idle }
  | unlock (s : State I Key Val) (key : Key) (releasing : s.lock key = .releasing) :
      Move admits s { s with lock := Function.update s.lock key .free }

abbrev Moves (admits : I → Job Key Val → Prop) :
    State I Key Val → State I Key Val → Prop := Relation.ReflTransGen (Move admits)

variable {admits : I → Job Key Val → Prop}

theorem Moves.invariant {P : State I Key Val → Prop}
    (step : ∀ s s', P s → Move admits s s' → P s') {s s' : State I Key Val} (initially : P s)
    (moves : Moves admits s s') : P s' := by
  induction moves with
  | refl => exact initially
  | tail _ move ih => exact step _ _ ih move

/-! ## Admitted jobs on good values -/

section
variable (admits) (good : Key → Val → Prop)

structure Sane (s : State I Key Val) : Prop where
  admitted : ∀ i job, (s.phase i).job = some job → admits i job
  logged : ∀ entry ∈ s.log, admits entry.1 entry.2
  cell : ∀ key, good key (s.cell key)
  seen : ∀ i job seen, s.phase i = .loaded job seen → good job.key seen

omit [DecidableEq I] [DecidableEq Key] in
theorem sane_start (cell : Key → Val) (initially : ∀ key, good key (cell key)) :
    Sane admits good (State.start cell : State I Key Val) :=
  ⟨fun _ _ h => (nomatch h), fun _ h => (nomatch h), initially, fun _ _ _ h => (nomatch h)⟩

variable {admits} {good}

omit [DecidableEq Key] in
/-- What holds of every job in progress after one thread changed its phase. -/
theorem phase_update {P : I → Phase Key Val → Prop} (phase : I → Phase Key Val) (i : I)
    (here : Phase Key Val) (others : ∀ j, j ≠ i → P j (phase j)) (own : P i here) :
    ∀ j, P j (Function.update phase i here j) := by
  intro j
  by_cases same : j = i
  · subst same
    rw [Function.update_self]
    exact own
  · rw [Function.update_of_ne same]
    exact others j same

theorem Sane.step (closed : ∀ i job v v', admits i job → good job.key v → job.writes v = some v' →
      good job.key v') (s s' : State I Key Val) (sane : Sane admits good s)
    (move : Move admits s s') : Sane admits good s' := by
  obtain ⟨admitted, logged, cell, seen⟩ := sane
  have jobs : ∀ (i : I) (here : Phase Key Val), (∀ job, here.job = some job → admits i job) →
      ∀ j job, (Function.update s.phase i here j).job = some job → admits j job :=
    fun i here own => phase_update (P := fun j ph => ∀ job, ph.job = some job → admits j job)
      s.phase i here (fun j _ => admitted j) own
  have loads : ∀ (i : I) (here : Phase Key Val), (∀ job v, here = .loaded job v → good job.key v) →
      ∀ j job v, Function.update s.phase i here j = .loaded job v → good job.key v :=
    fun i here own => phase_update (P := fun _ ph => ∀ job v, ph = .loaded job v → good job.key v)
      s.phase i here (fun j _ => seen j) own
  have entries : ∀ i job, admits i job → ∀ entry ∈ s.log ++ [(i, job)], admits entry.1 entry.2 := by
    intro i job own entry member
    rcases List.mem_append.mp member with earlier | last
    · exact logged entry earlier
    · obtain rfl := List.mem_singleton.mp last
      exact own
  cases move with
  | acquire i job admittedJob idle locked free =>
      exact ⟨jobs i _ fun job' h => Option.some.inj h ▸ admittedJob, entries i job admittedJob, cell,
        loads i _ fun _ _ h => (nomatch h)⟩
  | enter i job admittedJob idle unlocked =>
      exact ⟨jobs i _ fun job' h => Option.some.inj h ▸ admittedJob, entries i job admittedJob, cell,
        loads i _ fun _ _ h => (nomatch h)⟩
  | load i job entered =>
      have own := admitted i job (by rw [entered]; rfl)
      refine ⟨jobs i _ fun job' h => Option.some.inj h ▸ own, logged, cell, loads i _ fun job' v h => ?_⟩
      cases h
      exact cell job.key
  | store i job v v' loaded written =>
      have own := admitted i job (by rw [loaded]; rfl)
      refine ⟨jobs i _ fun job' h => Option.some.inj h ▸ own, logged, fun key => ?_,
        loads i _ fun _ _ h => (nomatch h)⟩
      by_cases same : key = job.key
      · subst same
        simp only [Function.update_self]
        exact closed i job v v' own (seen i job v loaded) written
      · simp only [Function.update_of_ne same]
        exact cell key
  | skip i job v loaded unwritten =>
      have own := admitted i job (by rw [loaded]; rfl)
      exact ⟨jobs i _ fun job' h => Option.some.inj h ▸ own, logged, cell, loads i _ fun _ _ h => (nomatch h)⟩
  | release i job stored locked =>
      exact ⟨jobs i _ fun _ h => (nomatch h), logged, cell, loads i _ fun _ _ h => (nomatch h)⟩
  | leave i job stored unlocked =>
      exact ⟨jobs i _ fun _ h => (nomatch h), logged, cell, loads i _ fun _ _ h => (nomatch h)⟩
  | unlock key releasing => exact ⟨admitted, logged, cell, seen⟩

end

/-! ## Serialized cells -/

def replay (jobs : List (Job Key Val)) (v : Val) : Val := jobs.foldl (fun v job => job.after v) v

omit [DecidableEq Key] in
theorem replay_append (jobs : List (Job Key Val)) (job : Job Key Val) (v : Val) :
    replay (jobs ++ [job]) v = job.after (replay jobs v) := by
  simp [replay]

/-- The job a thread has entered and not yet finished with its write. -/
def Phase.pending : Phase Key Val → Option (Job Key Val)
  | idle => none
  | entered job => some job
  | loaded job _ => some job
  | stored _ => none

omit [DecidableEq Key] in
theorem Phase.job_of_pending {phase : Phase Key Val} {job : Job Key Val}
    (pending : phase.pending = some job) : phase.job = some job := by
  cases phase with
  | idle => cases pending
  | entered job => exact pending
  | loaded job seen => exact pending
  | stored job => cases pending

section
variable (writer : I → Bool) (key : Key)

/-- The writers' jobs on the cell, in the order in which they entered. -/
def State.jobs (s : State I Key Val) : List (Job Key Val) :=
  (s.log.filter fun entry => writer entry.1 && decide (entry.2.key = key)).map Prod.snd

/-- At most one writer is at the cell. -/
def Exclusive (s : State I Key Val) : Prop :=
  ∀ i j job job', writer i = true → writer j = true → (s.phase i).job = some job →
    (s.phase j).job = some job' → job.key = key → job'.key = key → i = j

structure Serialized (start : Val) (s : State I Key Val) : Prop where
  working : ∀ i job, writer i = true → (s.phase i).pending = some job → job.key = key →
    ∃ earlier, s.jobs writer key = earlier ++ [job] ∧ s.cell key = replay earlier start
  seen : ∀ i job v, writer i = true → s.phase i = .loaded job v → job.key = key → v = s.cell key
  rest : (∀ i job, writer i = true → (s.phase i).pending = some job → job.key ≠ key) →
    s.cell key = replay (s.jobs writer key) start

omit [DecidableEq I] in
theorem serialized_start (cell : Key → Val) :
    Serialized writer key (cell key) (State.start cell : State I Key Val) :=
  ⟨fun _ _ _ h => (nomatch h), fun _ _ _ _ h => (nomatch h), fun _ => rfl⟩

variable {writer} {key}

theorem Serialized.enter {start : Val} {s s' : State I Key Val}
    (serialized : Serialized writer key start s) (exclusive : Exclusive writer key s') (i : I)
    (job : Job Key Val) (idle : s.phase i = .idle) (cell : s'.cell = s.cell)
    (phase : s'.phase = Function.update s.phase i (.entered job)) (log : s'.log = s.log ++ [(i, job)]) :
    Serialized writer key start s' := by
  have own : s'.phase i = .entered job := by rw [phase, Function.update_self]
  have others : ∀ j, j ≠ i → s'.phase j = s.phase j := fun j other => by
    rw [phase, Function.update_of_ne other]
  have jobs : s'.jobs writer key = s.jobs writer key ++
      if writer i && decide (job.key = key) then [job] else [] := by
    unfold State.jobs
    rw [log, List.filter_append, List.map_append]
    by_cases counted : (writer i && decide (job.key = key)) = true
    · simp [counted]
    · simp [counted]
  by_cases counted : writer i = true ∧ job.key = key
  · have alone : ∀ j job', writer j = true → (s'.phase j).job = some job' → job'.key = key → j = i :=
      fun j job' isWriter at' same =>
        exclusive j i job' job isWriter counted.1 at' (by rw [own]; rfl) same counted.2
    have before : s.cell key = replay (s.jobs writer key) start := by
      apply serialized.rest
      intro j job' isWriter pending same
      by_cases other : j = i
      · rw [other, idle] at pending
        cases pending
      · exact other (alone j job' isWriter
          (by rw [others j other]; exact Phase.job_of_pending pending) same)
    rw [if_pos (by simp [counted])] at jobs
    refine ⟨fun j job' isWriter pending same => ?_, fun j job' v isWriter loaded same => ?_,
      fun none => absurd counted.2 (none i job counted.1 (by rw [own]; rfl))⟩
    · obtain rfl := alone j job' isWriter (Phase.job_of_pending pending) same
      rw [own] at pending
      cases pending
      exact ⟨_, jobs, by rw [cell]; exact before⟩
    · obtain rfl := alone j job' isWriter (by rw [loaded]; rfl) same
      rw [own] at loaded
      cases loaded
  · rw [if_neg (by simpa using counted), List.append_nil] at jobs
    have elsewhere : ∀ job', (s'.phase i).pending = some job' → writer i = true → job'.key ≠ key := by
      intro job' pending isWriter same
      rw [own] at pending
      cases pending
      exact counted ⟨isWriter, same⟩
    refine ⟨fun j job' isWriter pending same => ?_, fun j job' v isWriter loaded same => ?_,
      fun none => ?_⟩
    · by_cases other : j = i
      · rw [other] at pending isWriter
        exact absurd same (elsewhere job' pending isWriter)
      · rw [jobs, cell]
        exact serialized.working j job' isWriter (by rw [← others j other]; exact pending) same
    · by_cases other : j = i
      · rw [other, own] at loaded
        cases loaded
      · rw [cell]
        exact serialized.seen j job' v isWriter (by rw [← others j other]; exact loaded) same
    · rw [jobs, cell]
      apply serialized.rest
      intro j job' isWriter pending
      by_cases other : j = i
      · rw [other, idle] at pending
        cases pending
      · exact none j job' isWriter (by rw [others j other]; exact pending)

omit [DecidableEq I] in
/-- A thread changes its phase without entering or writing, and has no less and no more
to do at the cell than before. -/
theorem Serialized.same_work {start : Val} {s s' : State I Key Val}
    (serialized : Serialized writer key start s) (cell : s'.cell key = s.cell key)
    (log : s'.log = s.log)
    (pending : ∀ j, (s'.phase j).pending = (s.phase j).pending)
    (seen : ∀ j job v, s'.phase j = .loaded job v → s.phase j = .loaded job v ∨ v = s.cell job.key) :
    Serialized writer key start s' := by
  have jobs : s'.jobs writer key = s.jobs writer key := by unfold State.jobs; rw [log]
  refine ⟨fun j job isWriter at' same => ?_, fun j job v isWriter loaded same => ?_, fun none => ?_⟩
  · rw [jobs, cell]
    exact serialized.working j job isWriter (by rw [← pending j]; exact at') same
  · rw [cell]
    rcases seen j job v loaded with before | now
    · exact serialized.seen j job v isWriter before same
    · rw [now, same]
  · rw [jobs, cell]
    exact serialized.rest fun j job isWriter at' => none j job isWriter (by rw [pending j]; exact at')

/-- A thread is done with the cell: what it leaves there is what its job makes of it. -/
theorem Serialized.done {start : Val} {s s' : State I Key Val}
    (serialized : Serialized writer key start s) (exclusive : Exclusive writer key s) (i : I)
    (job : Job Key Val) (v : Val) (loaded : s.phase i = .loaded job v)
    (phase : s'.phase = Function.update s.phase i (.stored job)) (log : s'.log = s.log)
    (own : writer i = true → job.key = key → s'.cell key = job.after v)
    (other : ¬ (writer i = true ∧ job.key = key) → s'.cell key = s.cell key) :
    Serialized writer key start s' := by
  have jobs : s'.jobs writer key = s.jobs writer key := by unfold State.jobs; rw [log]
  have finished : (s'.phase i).pending = none := by rw [phase, Function.update_self]; rfl
  have others : ∀ j, j ≠ i → s'.phase j = s.phase j := fun j apart => by
    rw [phase, Function.update_of_ne apart]
  have apart : ∀ j job', (s'.phase j).pending = some job' → j ≠ i := by
    rintro j job' pending rfl
    rw [finished] at pending
    cases pending
  by_cases counted : writer i = true ∧ job.key = key
  · obtain ⟨earlier, listed, value⟩ := serialized.working i job counted.1 (by rw [loaded]; rfl)
      counted.2
    have alone : ∀ j job', writer j = true → (s'.phase j).pending = some job' → job'.key ≠ key := by
      intro j job' isWriter pending same
      have ne := apart j job' pending
      refine ne (exclusive j i job' job isWriter counted.1 ?_ (by rw [loaded]; rfl) same counted.2)
      rw [← others j ne]
      exact Phase.job_of_pending pending
    refine ⟨fun j job' isWriter pending same => absurd same (alone j job' isWriter pending),
      fun j job' v' isWriter loaded' same =>
        absurd same (alone j job' isWriter (by rw [loaded']; rfl)), fun _ => ?_⟩
    rw [own counted.1 counted.2, jobs, listed, replay_append, ← value,
      serialized.seen i job v counted.1 loaded counted.2]
  · have cell := other counted
    refine ⟨fun j job' isWriter pending same => ?_, fun j job' v' isWriter loaded' same => ?_,
      fun none => ?_⟩
    · have ne := apart j job' pending
      rw [jobs, cell]
      exact serialized.working j job' isWriter (by rw [← others j ne]; exact pending) same
    · have ne := apart j job' (by rw [loaded']; rfl)
      rw [cell]
      exact serialized.seen j job' v' isWriter (by rw [← others j ne]; exact loaded') same
    · rw [jobs, cell]
      apply serialized.rest
      intro j job' isWriter pending same
      by_cases ne : j = i
      · rw [ne, loaded] at pending
        cases pending
        exact counted ⟨ne ▸ isWriter, same⟩
      · exact none j job' isWriter (by rw [others j ne]; exact pending) same

variable {good : Key → Val → Prop}

theorem Serialized.step {start : Val} {s s' : State I Key Val}
    (quiet : ∀ i job v, writer i = false → admits i job → job.key = key → good key v →
      job.writes v = none)
    (sane : Sane admits good s) (exclusive : Exclusive writer key s)
    (exclusive' : Exclusive writer key s') (serialized : Serialized writer key start s)
    (move : Move admits s s') : Serialized writer key start s' := by
  have phases : ∀ (i : I) (here : Phase Key Val), here.pending = (s.phase i).pending →
      ∀ j, (Function.update s.phase i here j).pending = (s.phase j).pending :=
    fun i here same => phase_update (P := fun j ph => ph.pending = (s.phase j).pending) s.phase i here
      (fun _ _ => rfl) same
  cases move with
  | acquire i job admitted idle locked free =>
      exact serialized.enter exclusive' i job idle rfl rfl rfl
  | enter i job admitted idle unlocked =>
      exact serialized.enter exclusive' i job idle rfl rfl rfl
  | load i job entered =>
      refine serialized.same_work rfl rfl (phases i _ (by rw [entered]; rfl)) fun j job' v loaded => ?_
      by_cases same : j = i
      · right
        simp only [same, Function.update_self] at loaded
        cases loaded
        rfl
      · left
        simp only [Function.update_of_ne same] at loaded
        exact loaded
  | store i job v v' loaded written =>
      have after : job.after v = v' := by rw [Job.after, written]; rfl
      refine serialized.done exclusive i job v loaded rfl rfl (fun _ same => ?_) fun counted => ?_
      · simp only [← same, Function.update_self]
        exact after.symm
      · by_cases same : job.key = key
        · have idle : writer i = false := by
            cases isWriter : writer i with
            | false => rfl
            | true => exact absurd ⟨isWriter, same⟩ counted
          have silent := quiet i job v idle (sane.admitted i job (by rw [loaded]; rfl)) same
            (same ▸ sane.seen i job v loaded)
          rw [silent] at written
          cases written
        · simp only [Function.update_of_ne (Ne.symm same)]
  | skip i job v loaded unwritten =>
      refine serialized.done exclusive i job v loaded rfl rfl (fun isWriter same => ?_) fun _ => rfl
      have after : job.after v = v := by rw [Job.after, unwritten]; rfl
      rw [after]
      exact (serialized.seen i job v isWriter loaded same).symm
  | release i job stored locked =>
      refine serialized.same_work rfl rfl (phases i _ (by rw [stored]; rfl)) fun j job' v loaded => ?_
      by_cases same : j = i
      · simp only [same, Function.update_self] at loaded
        cases loaded
      · left
        simp only [Function.update_of_ne same] at loaded
        exact loaded
  | leave i job stored unlocked =>
      refine serialized.same_work rfl rfl (phases i _ (by rw [stored]; rfl)) fun j job' v loaded => ?_
      by_cases same : j = i
      · simp only [same, Function.update_self] at loaded
        cases loaded
      · left
        simp only [Function.update_of_ne same] at loaded
        exact loaded
  | unlock k releasing => exact serialized.same_work rfl rfl (fun _ => rfl) fun _ _ _ h => Or.inl h

end

/-! ## Mutual exclusion -/

/-- A locked job in progress holds the lock of its cell. -/
def LocksHeld (s : State I Key Val) : Prop :=
  ∀ i job, (s.phase i).job = some job → job.locked = true → s.lock job.key = .held i

omit [DecidableEq I] [DecidableEq Key] in
theorem locksHeld_start (cell : Key → Val) : LocksHeld (State.start cell : State I Key Val) :=
  fun _ _ h => (nomatch h)

omit [DecidableEq Key] in
theorem LocksHeld.same_lock {s s' : State I Key Val} (locks : LocksHeld s) (i : I)
    (here : Phase Key Val) (phase : s'.phase = Function.update s.phase i here)
    (lock : s'.lock = s.lock)
    (same : ∀ job, here.job = some job → job.locked = true → (s.phase i).job = some job) :
    LocksHeld s' := by
  intro j job at' locked
  rw [lock]
  rw [phase] at at'
  by_cases own : j = i
  · subst own
    rw [Function.update_self] at at'
    exact locks j job (same job at' locked) locked
  · rw [Function.update_of_ne own] at at'
    exact locks j job at' locked

theorem LocksHeld.step (s s' : State I Key Val) (locks : LocksHeld s) (move : Move admits s s') :
    LocksHeld s' := by
  cases move with
  | acquire i job admitted idle locked free =>
      intro j job' at' locked'
      simp only at at' ⊢
      by_cases own : j = i
      · subst own
        rw [Function.update_self] at at'
        obtain rfl := Option.some.inj at'
        exact Function.update_self _ _ _
      · rw [Function.update_of_ne own] at at'
        have held := locks j job' at' locked'
        by_cases same : job'.key = job.key
        · rw [same, free] at held
          cases held
        · rw [Function.update_of_ne same]
          exact held
  | enter i job admitted idle unlocked =>
      refine locks.same_lock i _ rfl rfl fun job' at' locked => ?_
      obtain rfl := Option.some.inj at'
      rw [unlocked] at locked
      cases locked
  | load i job entered =>
      exact locks.same_lock i _ rfl rfl fun job' at' _ => by rw [entered]; exact at'
  | store i job v v' loaded written =>
      exact locks.same_lock i _ rfl rfl fun job' at' _ => by rw [loaded]; exact at'
  | skip i job v loaded unwritten =>
      exact locks.same_lock i _ rfl rfl fun job' at' _ => by rw [loaded]; exact at'
  | release i job stored locked =>
      intro j job' at' locked'
      simp only at at' ⊢
      by_cases own : j = i
      · subst own
        rw [Function.update_self] at at'
        cases at'
      · rw [Function.update_of_ne own] at at'
        have held := locks j job' at' locked'
        have mine := locks i job (by rw [stored]; rfl) locked
        by_cases same : job'.key = job.key
        · rw [same, mine] at held
          exact absurd (Lock.held.inj held).symm own
        · rw [Function.update_of_ne same]
          exact held
  | leave i job stored unlocked =>
      exact locks.same_lock i _ rfl rfl fun job' at' _ => (nomatch at')
  | unlock key releasing =>
      intro j job at' locked
      have held := locks j job at' locked
      by_cases same : job.key = key
      · rw [same, releasing] at held
        cases held
      · simp only [Function.update_of_ne same]
        exact held

section
variable {writer : I → Bool} {key : Key} {good : Key → Val → Prop}

omit [DecidableEq I] [DecidableEq Key] in
theorem exclusive_of_locked
    (locked : ∀ i job, writer i = true → admits i job → job.key = key → job.locked = true)
    (s : State I Key Val) (sane : Sane admits good s) (locks : LocksHeld s) :
    Exclusive writer key s := by
  intro i j job job' iWriter jWriter iAt jAt iKey jKey
  have iHeld := locks i job iAt (locked i job iWriter (sane.admitted i job iAt) iKey)
  have jHeld := locks j job' jAt (locked j job' jWriter (sane.admitted j job' jAt) jKey)
  rw [iKey] at iHeld
  rw [jKey, iHeld] at jHeld
  exact Lock.held.inj jHeld

omit [DecidableEq I] [DecidableEq Key] in
theorem exclusive_of_single (single : ∀ i j, writer i = true → writer j = true → i = j)
    (s : State I Key Val) : Exclusive writer key s :=
  fun i j _ _ iWriter jWriter _ _ _ _ => single i j iWriter jWriter

/-- If the writers exclude each other at a cell and the other threads never write good
values there, every run keeps the cell serialized. -/
theorem Moves.serialized
    (closed : ∀ i job v v', admits i job → good job.key v → job.writes v = some v' →
      good job.key v')
    (quiet : ∀ i job v, writer i = false → admits i job → job.key = key → good key v →
      job.writes v = none)
    (exclusive : ∀ s : State I Key Val, Sane admits good s → LocksHeld s → Exclusive writer key s)
    (cell : Key → Val) (initially : ∀ key, good key (cell key)) (s : State I Key Val)
    (moves : Moves admits (State.start cell) s) :
    Sane admits good s ∧ LocksHeld s ∧ Serialized writer key (cell key) s := by
  have initial : Sane admits good (State.start cell : State I Key Val) ∧
      LocksHeld (State.start cell : State I Key Val) ∧
      Serialized writer key (cell key) (State.start cell : State I Key Val) :=
    ⟨sane_start admits good cell initially, locksHeld_start cell, serialized_start writer key cell⟩
  refine Moves.invariant (P := fun s => Sane admits good s ∧ LocksHeld s ∧
    Serialized writer key (cell key) s) (fun s s' before move => ?_) initial moves
  obtain ⟨sane, locks, serialized⟩ := before
  have sane' := sane.step closed s s' move
  have locks' := locks.step s s' move
  exact ⟨sane', locks', serialized.step quiet sane (exclusive s sane locks)
    (exclusive s' sane' locks') move⟩

omit [DecidableEq I] in
/-- Once every thread is idle, the cell is what the writers' jobs make of it. -/
theorem Serialized.cell_eq {start : Val} {s : State I Key Val}
    (serialized : Serialized writer key start s) (idle : ∀ i, s.phase i = .idle) :
    s.cell key = replay (s.jobs writer key) start :=
  serialized.rest fun i job _ pending => by rw [idle i] at pending; cases pending

end

end SharedCells
