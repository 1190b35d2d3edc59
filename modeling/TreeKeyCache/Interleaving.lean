import TreeKeyCache.Pool

/-! # A pool simulates shared cells

Each thread of a pool goes through the sections it was started with.  Seen from the
storage keys, a section is a job on a shared cell, and every action of the pool is a
number of moves of the shared cells: none when a thread yields, registers a child or
reads the clock, and several when it also passes a section boundary at which no lock is
taken. -/
set_option autoImplicit false
namespace TreeKeyCache

open SharedCells

variable {Y T R : Type}

def Section.job (s : Section Y R) : Job String (Option R) :=
  ⟨s.key, s.locked, fun content => (s.writes content).map fun written => some written.1⟩

/-- Every write is without ttl. -/
def Section.Untimed (s : Section Y R) : Prop :=
  ∀ content r rule, s.writes content = some (r, rule) → rule = .exactly none

namespace Stage

def phase : Stage Y R → Phase String (Option R)
  | outside _ => .idle
  | inside s _ => .entered s.job
  | loaded s content _ _ => .loaded s.job content
  | timed s content _ _ _ => .loaded s.job content
  | stored s _ => .stored s.job

def todo : Stage Y R → List (Section Y R)
  | outside todo => todo
  | inside _ todo => todo
  | loaded _ _ _ todo => todo
  | timed _ _ _ _ todo => todo
  | stored _ todo => todo

def current : Stage Y R → Option (Section Y R)
  | outside _ => none
  | inside s _ => some s
  | loaded s _ _ _ => some s
  | timed s _ _ _ _ => some s
  | stored s _ => some s

def isTimed : Stage Y R → Bool
  | timed _ _ _ _ _ => true
  | _ => false

structure Untimed (stage : Stage Y R) : Prop where
  current : ∀ s, stage.current = some s → s.Untimed
  todo : ∀ s ∈ stage.todo, s.Untimed
  plain : stage.isTimed = false

theorem Untimed.enter {s : Section Y R} {todo : List (Section Y R)}
    (untimed : (outside (s :: todo)).Untimed) : (inside s todo).Untimed := by
  refine ⟨?_, fun s' listed => untimed.todo s' (List.mem_cons_of_mem _ listed), rfl⟩
  intro s' same
  obtain rfl := Option.some.inj same
  exact untimed.todo s List.mem_cons_self

end Stage

/-- The jobs thread `i` has entered. -/
def jobsOf (s : State Nat String (Option R)) (i : Nat) : List (Job String (Option R)) :=
  (s.log.filter fun entry => decide (entry.1 = i)).map Prod.snd

section
variable (valid : String → Option R → Prop) (plans : List (ℚ → List (Section Y R)))

/-- A thread that has not read the clock yet, or is somewhere in its sections. -/
def Follows (thread : Thread Y T R) (plan : ℚ → List (Section Y R))
    (phase : Phase String (Option R)) (mine : List (Job String (Option R))) : Prop :=
  (Starts thread.consumer valid thread.prog plan ∧ (∀ now, ∀ s ∈ plan now, s.Untimed) ∧
      phase = .idle ∧ mine = []) ∨
    ∃ now stage, Performs thread.consumer valid thread.prog stage ∧ phase = stage.phase ∧
      mine ++ stage.todo.map Section.job = (plan now).map Section.job ∧ stage.Untimed

/-- The pool and the cells agree, and every thread but `i` follows its plan. -/
structure SimExcept (i : Option Nat) (p : Pool Y T R) (s : State Nat String (Option R)) : Prop where
  permanent : ∀ key entry, p.world.store key = some entry → entry.expiry = none
  cell : ∀ key, s.cell key = p.world.read key
  lock : s.lock = p.locks
  acquired : p.acquired = (s.log.filter fun entry => entry.2.locked).map fun entry =>
    (entry.1, entry.2.key)
  length : p.threads.length = plans.length
  follows : ∀ j thread plan, some j ≠ i → p.threads[j]? = some thread → plans[j]? = some plan →
    Follows valid thread plan (s.phase j) (jobsOf s j)
  idle : ∀ j, plans.length ≤ j → s.phase j = .idle

abbrev Sim (p : Pool Y T R) (s : State Nat String (Option R)) : Prop :=
  SimExcept valid plans none p s

/-- Thread `i` of the pool stands at `stage`. -/
structure At (i : Nat) (consumer : Y → Option T) (plan : ℚ → List (Section Y R)) (now : ℚ)
    (prog : Prog Y T R Unit) (stage : Stage Y R) (p : Pool Y T R)
    (s : State Nat String (Option R)) : Prop where
  others : SimExcept valid plans (some i) p s
  planned : plans[i]? = some plan
  thread : p.threads[i]? = some ⟨consumer, prog⟩
  phase : s.phase i = stage.phase
  mine : jobsOf s i ++ stage.todo.map Section.job = (plan now).map Section.job
  untimed : stage.Untimed

def Admits (i : Nat) (job : Job String (Option R)) : Prop :=
  ∃ plan now, plans[i]? = some plan ∧ job ∈ (plan now).map Section.job

variable {valid} {plans}

theorem jobsOf_append_ne (s : State Nat String (Option R)) (i j : Nat)
    (job : Job String (Option R)) (other : j ≠ i) :
    jobsOf { s with log := s.log ++ [(i, job)] } j = jobsOf s j := by
  simp [jobsOf, Ne.symm other]

theorem jobsOf_append_self (s : State Nat String (Option R)) (i : Nat)
    (job : Job String (Option R)) (rest : List (Job String (Option R))) :
    jobsOf { s with log := s.log ++ [(i, job)] } i ++ rest = jobsOf s i ++ job :: rest := by
  simp [jobsOf]

/-- What thread `i` does leaves the other threads where they are. -/
theorem SimExcept.step {i : Nat} {p p' : Pool Y T R} {s s' : State Nat String (Option R)}
    (sim : SimExcept valid plans (some i) p s) (bound : i < plans.length) (thread : Thread Y T R)
    (permanent : ∀ key entry, p'.world.store key = some entry → entry.expiry = none)
    (cell : ∀ key, s'.cell key = p'.world.read key) (lock : s'.lock = p'.locks)
    (acquired : p'.acquired = (s'.log.filter fun entry => entry.2.locked).map fun entry =>
      (entry.1, entry.2.key))
    (threads : p'.threads = p.threads.set i thread ∨ p'.threads = p.threads)
    (phase : ∀ j, j ≠ i → s'.phase j = s.phase j)
    (mine : ∀ j, j ≠ i → jobsOf s' j = jobsOf s j) : SimExcept valid plans (some i) p' s' := by
  have elsewhere : ∀ j, j ≠ i → p'.threads[j]? = p.threads[j]? := by
    intro j other
    rcases threads with set | same
    · rw [set, List.getElem?_set_ne (Ne.symm other)]
    · rw [same]
  refine ⟨permanent, cell, lock, acquired, ?_, fun j thread' plan apart found planned => ?_,
    fun j beyond => ?_⟩
  · rcases threads with set | same
    · rw [set, List.length_set, sim.length]
    · rw [same, sim.length]
  · have other : j ≠ i := fun h => apart (by rw [h])
    rw [phase j other, mine j other]
    exact sim.follows j thread' plan apart (by rw [← elsewhere j other]; exact found) planned
  · rw [phase j (by omega)]
    exact sim.idle j beyond

theorem At.bound {i : Nat} {consumer : Y → Option T} {plan : ℚ → List (Section Y R)} {now : ℚ}
    {prog : Prog Y T R Unit} {stage : Stage Y R} {p : Pool Y T R} {s : State Nat String (Option R)}
    (here : At valid plans i consumer plan now prog stage p s) : i < plans.length :=
  (List.getElem?_eq_some_iff.mp here.planned).1

theorem At.found {i : Nat} {consumer : Y → Option T} {plan : ℚ → List (Section Y R)} {now : ℚ}
    {prog : Prog Y T R Unit} {stage : Stage Y R} {p : Pool Y T R} {s : State Nat String (Option R)}
    (here : At valid plans i consumer plan now prog stage p s) (next : Thread Y T R) :
    (p.threads.set i next)[i]? = some next := by
  have bound : i < p.threads.length := by rw [here.others.length]; exact here.bound
  rw [List.getElem?_set_self bound]

theorem At.admits {i : Nat} {consumer : Y → Option T} {plan : ℚ → List (Section Y R)} {now : ℚ}
    {prog : Prog Y T R Unit} {sec : Section Y R} {todo : List (Section Y R)} {p : Pool Y T R}
    {s : State Nat String (Option R)}
    (here : At valid plans i consumer plan now prog (.outside (sec :: todo)) p s) :
    Admits plans i sec.job := by
  refine ⟨plan, now, here.planned, ?_⟩
  rw [← here.mine]
  simp [Stage.todo]

/-- A thread passes to another stage without an operation and without entering a job. -/
theorem At.silent {i : Nat} {consumer : Y → Option T} {plan : ℚ → List (Section Y R)} {now : ℚ}
    {prog : Prog Y T R Unit} {stage : Stage Y R} {p : Pool Y T R}
    {s : State Nat String (Option R)} (here : At valid plans i consumer plan now prog stage p s)
    (stage' : Stage Y R) (todo : stage'.todo = stage.todo) (untimed : stage'.Untimed) :
    At valid plans i consumer plan now prog stage' p
      { s with phase := Function.update s.phase i stage'.phase } := by
  have base := here.others
  refine ⟨base.step here.bound ⟨consumer, prog⟩ base.permanent base.cell base.lock base.acquired
      (Or.inr rfl) (fun j other => Function.update_of_ne other _ _) (fun _ _ => rfl),
    here.planned, here.thread, Function.update_self _ _ _, ?_, untimed⟩
  rw [todo]
  exact here.mine

/-- A thread performs an operation that no cell or lock notices. -/
theorem At.resume {i : Nat} {consumer : Y → Option T} {plan : ℚ → List (Section Y R)} {now : ℚ}
    {prog next : Prog Y T R Unit} {stage stage' : Stage Y R} {p : Pool Y T R}
    {s : State Nat String (Option R)} (here : At valid plans i consumer plan now prog stage p s)
    (world : World R) (store : world.store = p.world.store) (clock : world.clock = p.world.clock)
    (phase : s.phase i = stage'.phase)
    (todo : stage'.todo.map Section.job = stage.todo.map Section.job) (untimed : stage'.Untimed) :
    At valid plans i consumer plan now next stage'
      ({ p with world := world }.resume i ⟨consumer, prog⟩ next) s := by
  have base := here.others
  refine ⟨base.step here.bound ⟨consumer, next⟩ ?_ ?_ base.lock base.acquired (Or.inl rfl)
    (fun _ _ => rfl) (fun _ _ => rfl), here.planned, here.found _, phase, ?_, untimed⟩
  · intro key entry stored
    exact base.permanent key entry (by rw [← store]; exact stored)
  · intro key
    rw [base.cell key]
    simp only [Pool.resume, World.read, World.readAt, store, clock]
  · rw [todo]
    exact here.mine

theorem At.enter {i : Nat} {consumer : Y → Option T} {plan : ℚ → List (Section Y R)} {now : ℚ}
    {prog : Prog Y T R Unit} {sec : Section Y R} {todo : List (Section Y R)} {p : Pool Y T R}
    {s : State Nat String (Option R)}
    (here : At valid plans i consumer plan now prog (.outside (sec :: todo)) p s)
    (unlocked : sec.locked = false) :
    At valid plans i consumer plan now prog (.inside sec todo) p
      { s with phase := Function.update s.phase i (.entered sec.job), log := s.log ++ [(i, sec.job)] } := by
  have base := here.others
  refine ⟨base.step here.bound ⟨consumer, prog⟩ base.permanent base.cell base.lock ?_ (Or.inr rfl)
      (fun j other => Function.update_of_ne other _ _) (fun j other => jobsOf_append_ne s i j _ other),
    here.planned, here.thread, Function.update_self _ _ _, ?_, here.untimed.enter⟩
  · have skipped : sec.job.locked = false := unlocked
    rw [List.filter_append, base.acquired]
    simp [skipped]
  · exact (jobsOf_append_self s i sec.job _).trans here.mine

theorem At.acquire {i : Nat} {consumer : Y → Option T} {plan : ℚ → List (Section Y R)} {now : ℚ}
    {prog next : Prog Y T R Unit} {sec : Section Y R} {todo : List (Section Y R)} {p : Pool Y T R}
    {s : State Nat String (Option R)}
    (here : At valid plans i consumer plan now prog (.outside (sec :: todo)) p s)
    (locked : sec.locked = true) :
    At valid plans i consumer plan now next (.inside sec todo)
      ({ p with
        locks := Function.update p.locks sec.key (.held i)
        acquired := p.acquired ++ [(i, sec.key)] }.resume i ⟨consumer, prog⟩ next)
      { s with
        lock := Function.update s.lock sec.job.key (.held i)
        phase := Function.update s.phase i (.entered sec.job)
        log := s.log ++ [(i, sec.job)] } := by
  have base := here.others
  refine ⟨base.step here.bound ⟨consumer, next⟩ base.permanent base.cell ?_ ?_ (Or.inl rfl)
      (fun j other => Function.update_of_ne other _ _) (fun j other => jobsOf_append_ne s i j _ other),
    here.planned, here.found _, Function.update_self _ _ _, ?_, here.untimed.enter⟩
  · rw [base.lock]
    rfl
  · have counted : sec.job.locked = true := locked
    simp only [Pool.resume, List.filter_append, List.map_append, base.acquired]
    simp [counted]
    rfl
  · exact (jobsOf_append_self s i sec.job _).trans here.mine

theorem At.store {i : Nat} {consumer : Y → Option T} {plan : ℚ → List (Section Y R)} {now : ℚ}
    {prog next : Prog Y T R Unit} {sec : Section Y R} {content : Option R}
    {todo : List (Section Y R)} {p : Pool Y T R} {s : State Nat String (Option R)}
    (here : At valid plans i consumer plan now prog (.loaded sec content [] todo) p s) (value : R) :
    At valid plans i consumer plan now next (.stored sec todo)
      ({ p with world := p.world.write sec.key value none }.resume i ⟨consumer, prog⟩ next)
      { s with
        cell := Function.update s.cell sec.job.key (some value)
        phase := Function.update s.phase i (.stored sec.job) } := by
  have base := here.others
  refine ⟨base.step here.bound ⟨consumer, next⟩ ?_ ?_ base.lock base.acquired (Or.inl rfl)
      (fun j other => Function.update_of_ne other _ _) (fun _ _ => rfl),
    here.planned, here.found _, Function.update_self _ _ _, here.mine,
    ⟨here.untimed.current, here.untimed.todo, rfl⟩⟩
  · intro key entry stored
    simp only [Pool.resume, World.write] at stored
    by_cases same : key = sec.key
    · rw [same, Function.update_self, Option.some.injEq] at stored
      rw [← stored]
      rfl
    · rw [Function.update_of_ne same] at stored
      exact base.permanent key entry stored
  · intro key
    simp only [Pool.resume, World.read, World.readAt, World.write]
    by_cases same : key = sec.key
    · rw [same, show sec.job.key = sec.key from rfl, Function.update_self, Function.update_self]
      simp [Entry.liveAt]
    · rw [Function.update_of_ne same, show sec.job.key = sec.key from rfl,
        Function.update_of_ne same]
      exact base.cell key

theorem At.release {i : Nat} {consumer : Y → Option T} {plan : ℚ → List (Section Y R)} {now : ℚ}
    {prog next : Prog Y T R Unit} {sec : Section Y R} {todo : List (Section Y R)} {p : Pool Y T R}
    {s : State Nat String (Option R)}
    (here : At valid plans i consumer plan now prog (.stored sec todo) p s) :
    At valid plans i consumer plan now next (.outside todo)
      ({ p with locks := Function.update p.locks sec.key .releasing }.resume i ⟨consumer, prog⟩ next)
      { s with
        lock := Function.update s.lock sec.job.key .releasing
        phase := Function.update s.phase i .idle } := by
  have base := here.others
  refine ⟨base.step here.bound ⟨consumer, next⟩ base.permanent base.cell ?_ base.acquired
      (Or.inl rfl) (fun j other => Function.update_of_ne other _ _) (fun _ _ => rfl),
    here.planned, here.found _, Function.update_self _ _ _, here.mine,
    ⟨fun _ h => (nomatch h), here.untimed.todo, rfl⟩⟩
  rw [base.lock]
  rfl

variable {good : String → Option R → Prop}

theorem At.advance (goodValid : ∀ key content, good key content → valid key content)
    (closed : ∀ i job v v', Admits plans i job → good job.key v → job.writes v = some v' →
      good job.key v')
    {i : Nat} {consumer : Y → Option T} {plan : ℚ → List (Section Y R)} {now : ℚ} {p : Pool Y T R}
    {prog : Prog Y T R Unit} {stage : Stage Y R} (performs : Performs consumer valid prog stage) :
    ∀ s, At valid plans i consumer plan now prog stage p s → Sane (Admits plans) good s →
      ∀ p', p.advance i ⟨consumer, prog⟩ = some p' →
        ∃ s' prog' stage', Moves (Admits plans) s s' ∧ Performs consumer valid prog' stage' ∧
          At valid plans i consumer plan now prog' stage' p' s' := by
  induction performs with
  | done => intro s _ _ p' advanced; cases advanced
  | register sec todo parent child rest k listed next ih =>
      intro s here _ p' advanced
      obtain rfl := Option.some.inj advanced
      refine ⟨s, _, _, .refl, next, here.resume (p.world.register parent child) rfl rfl here.phase
        rfl ⟨fun _ h => (nomatch h), fun sec' h => ?_, rfl⟩⟩
      rcases List.mem_cons.mp h with rfl | h
      · exact here.untimed.todo sec List.mem_cons_self
      · exact here.untimed.todo sec' (List.mem_cons_of_mem _ h)
  | acquire sec todo k locked next ih =>
      intro s here _ p' advanced
      simp only [Pool.advance] at advanced
      split at advanced
      · rename_i free
        obtain rfl := Option.some.inj advanced
        have freeCell : s.lock sec.job.key = .free := by rw [here.others.lock]; exact free
        exact ⟨_, _, _, .single (.acquire s i sec.job here.admits here.phase locked freeCell), next,
          here.acquire locked⟩
      · cases advanced
  | enter sec todo prog unlocked next ih =>
      intro s here sane p' advanced
      have move : Move (Admits plans) s _ := .enter s i sec.job here.admits here.phase unlocked
      obtain ⟨s', prog', stage', moves, performs', there⟩ :=
        ih _ (here.enter unlocked) (sane.step closed _ _ move) p' advanced
      exact ⟨s', prog', stage', .head move moves, performs', there⟩
  | registerInside sec todo parent child rest k listed next ih =>
      intro s here _ p' advanced
      obtain rfl := Option.some.inj advanced
      refine ⟨s, _, _, .refl, next, here.resume (p.world.register parent child) rfl rfl here.phase
        rfl ⟨fun sec' h => ?_, here.untimed.todo, rfl⟩⟩
      obtain rfl := Option.some.inj h
      exact here.untimed.current sec rfl
  | load sec todo k registered next ih =>
      intro s here sane p' advanced
      obtain rfl := Option.some.inj advanced
      have read : s.cell sec.key = p.world.read sec.key := here.others.cell sec.key
      have allowed := goodValid sec.key _ (sane.cell sec.key)
      rw [read] at allowed
      have move : Move (Admits plans) s _ := .load s i sec.job here.phase
      rw [show s.cell sec.job.key = p.world.read sec.key from read] at move
      have loaded := here.silent
        (.loaded sec (p.world.read sec.key) (sec.presents (p.world.read sec.key)) todo) rfl
        ⟨here.untimed.current, here.untimed.todo, rfl⟩
      exact ⟨_, _, _, .single move, next _ allowed,
        loaded.resume p.world rfl rfl loaded.phase rfl loaded.untimed⟩
  | present sec todo content item pending k next ih =>
      intro s here _ p' advanced
      obtain rfl := Option.some.inj advanced
      exact ⟨s, _, _, .refl, next, here.resume p.world rfl rfl here.phase rfl
        ⟨here.untimed.current, here.untimed.todo, rfl⟩⟩
  | store sec todo content value ttl k written next ih =>
      intro s here _ p' advanced
      obtain rfl := Option.some.inj advanced
      have none := here.untimed.current sec rfl content value _ written
      simp only [TtlRule.exactly.injEq] at none
      subst none
      have jobWrites : sec.job.writes content = some (some value) := by
        simp [Section.job, written]
      exact ⟨_, _, _, .single (.store s i sec.job content _ here.phase jobWrites), next,
        here.store value⟩
  | time sec todo content value ttl k written next ih =>
      intro s here _ p' _
      have none := here.untimed.current sec rfl content value _ written
      cases none
  | storeTimed sec todo content value ttl k written next ih =>
      intro s here _ p' _
      have plain := here.untimed.plain
      cases plain
  | skip sec todo content prog unwritten next ih =>
      intro s here sane p' advanced
      have jobWrites : sec.job.writes content = none := by simp [Section.job, unwritten]
      have move : Move (Admits plans) s _ := .skip s i sec.job content here.phase jobWrites
      have stored := here.silent (.stored sec todo) rfl
        ⟨here.untimed.current, here.untimed.todo, rfl⟩
      obtain ⟨s', prog', stage', moves, performs', there⟩ :=
        ih _ stored (sane.step closed _ _ move) p' advanced
      exact ⟨s', prog', stage', .head move moves, performs', there⟩
  | release sec todo k locked next ih =>
      intro s here _ p' advanced
      obtain rfl := Option.some.inj advanced
      exact ⟨_, _, _, .single (.release s i sec.job here.phase locked), next, here.release⟩
  | leave sec todo prog unlocked next ih =>
      intro s here sane p' advanced
      have move : Move (Admits plans) s _ := .leave s i sec.job here.phase unlocked
      have outside := here.silent (.outside todo) rfl
        ⟨fun _ h => (nomatch h), here.untimed.todo, rfl⟩
      obtain ⟨s', prog', stage', moves, performs', there⟩ :=
        ih _ outside (sane.step closed _ _ move) p' advanced
      exact ⟨s', prog', stage', .head move moves, performs', there⟩

/-! ## Whole schedules -/

theorem At.sim {i : Nat} {consumer : Y → Option T} {plan : ℚ → List (Section Y R)} {now : ℚ}
    {prog : Prog Y T R Unit} {stage : Stage Y R} {p : Pool Y T R} {s : State Nat String (Option R)}
    (here : At valid plans i consumer plan now prog stage p s)
    (performs : Performs consumer valid prog stage) : Sim valid plans p s := by
  have base := here.others
  refine ⟨base.permanent, base.cell, base.lock, base.acquired, base.length,
    fun j thread plan' _ found planned => ?_, base.idle⟩
  by_cases same : j = i
  · subst same
    rw [here.thread, Option.some.injEq] at found
    rw [here.planned, Option.some.injEq] at planned
    subst found planned
    exact Or.inr ⟨now, stage, performs, here.phase, here.mine, here.untimed⟩
  · exact base.follows j thread plan' (fun h => same (Option.some.inj h)) found planned

theorem SimExcept.except {p : Pool Y T R} {s : State Nat String (Option R)}
    (sim : Sim valid plans p s) (i : Nat) : SimExcept valid plans (some i) p s :=
  ⟨sim.permanent, sim.cell, sim.lock, sim.acquired, sim.length,
    fun j thread plan _ => sim.follows j thread plan (nofun), sim.idle⟩

theorem SimExcept.run (goodValid : ∀ key content, good key content → valid key content)
    (closed : ∀ i job v v', Admits plans i job → good job.key v → job.writes v = some v' →
      good job.key v')
    {p p' : Pool Y T R} {s : State Nat String (Option R)} (sim : Sim valid plans p s)
    (sane : Sane (Admits plans) good s) (i : Nat) (thread : Thread Y T R)
    (found : p.threads[i]? = some thread) (advanced : p.advance i thread = some p') :
    ∃ s', Moves (Admits plans) s s' ∧ Sim valid plans p' s' := by
  have bound : i < plans.length := by
    rw [← sim.length]
    exact (List.getElem?_eq_some_iff.mp found).1
  have planned : plans[i]? = some plans[i] := List.getElem?_eq_getElem bound
  obtain ⟨consumer, prog⟩ := thread
  rcases sim.follows i ⟨consumer, prog⟩ plans[i] (nofun) found planned with fresh | running
  · obtain ⟨⟨k, starts, performs⟩, untimed, idle, none⟩ := fresh
    simp only at starts
    subst starts
    obtain rfl := Option.some.inj advanced
    have before : At valid plans i consumer plans[i] p.world.clock (.dateNow k)
        (.outside (plans[i] p.world.clock)) p s :=
      ⟨sim.except i, planned, found, idle, by rw [none]; rfl,
        ⟨fun _ h => (nomatch h), untimed p.world.clock, rfl⟩⟩
    exact ⟨s, .refl, (before.resume p.world rfl rfl before.phase rfl before.untimed).sim
      (performs p.world.clock)⟩
  · obtain ⟨now, stage, performs, phase, mine, untimed⟩ := running
    have here : At valid plans i consumer plans[i] now prog stage p s :=
      ⟨sim.except i, planned, found, phase, mine, untimed⟩
    obtain ⟨s', prog', stage', moves, performs', there⟩ :=
      here.advance goodValid closed performs s sane p' advanced
    exact ⟨s', moves, there.sim performs'⟩

theorem SimExcept.act (goodValid : ∀ key content, good key content → valid key content)
    (closed : ∀ i job v v', Admits plans i job → good job.key v → job.writes v = some v' →
      good job.key v')
    {p p' : Pool Y T R} {s : State Nat String (Option R)} (sim : Sim valid plans p s)
    (sane : Sane (Admits plans) good s) (action : Action) (acted : p.act action = some p') :
    ∃ s', Moves (Admits plans) s s' ∧ Sim valid plans p' s' := by
  cases action with
  | run i =>
      obtain ⟨thread, found, advanced⟩ := Option.bind_eq_some_iff.mp acted
      exact sim.run goodValid closed sane i thread found advanced
  | fire key =>
      simp only [Pool.act] at acted
      split at acted
      · rename_i releasing
        obtain rfl := Option.some.inj acted
        have releasingCell : s.lock key = .releasing := by rw [sim.lock]; exact releasing
        refine ⟨_, .single (.unlock s key releasingCell), sim.permanent, sim.cell, ?_, sim.acquired,
          sim.length, sim.follows, sim.idle⟩
        rw [sim.lock]
      · cases acted
  | tick t =>
      simp only [Pool.act] at acted
      split at acted
      · obtain rfl := Option.some.inj acted
        refine ⟨s, .refl, sim.permanent, fun key => ?_, sim.lock, sim.acquired, sim.length,
          sim.follows, sim.idle⟩
        rw [sim.cell key]
        unfold World.read World.readAt
        cases stored : p.world.store key with
        | none => rfl
        | some entry => simp [Entry.liveAt, sim.permanent key entry stored]
      · cases acted

theorem SimExcept.exec (goodValid : ∀ key content, good key content → valid key content)
    (closed : ∀ i job v v', Admits plans i job → good job.key v → job.writes v = some v' →
      good job.key v') (schedule : List Action) :
    ∀ (p p' : Pool Y T R) (s : State Nat String (Option R)), Sim valid plans p s →
      Sane (Admits plans) good s → p.exec schedule = some p' →
      ∃ s', Moves (Admits plans) s s' ∧ Sim valid plans p' s' := by
  induction schedule with
  | nil =>
      intro p p' s sim _ executed
      obtain rfl := Option.some.inj executed
      exact ⟨s, .refl, sim⟩
  | cons action rest ih =>
      intro p p' s sim sane executed
      obtain ⟨next, acted, later⟩ := Option.bind_eq_some_iff.mp executed
      obtain ⟨mid, moves, midSim⟩ := sim.act goodValid closed sane action acted
      have midSane := Moves.invariant (fun s s' before move => before.step closed s s' move) sane moves
      obtain ⟨s', moves', sim'⟩ := ih next p' mid midSim midSane later
      exact ⟨s', moves.trans moves', sim'⟩

/-! ## Finished pools -/

/-- A thread that has returned has no operation left, but may still have to leave its
last section. -/
theorem At.finish {i : Nat} {consumer : Y → Option T} {plan : ℚ → List (Section Y R)} {now : ℚ}
    {p : Pool Y T R} {prog : Prog Y T R Unit} {stage : Stage Y R}
    (performs : Performs consumer valid prog stage) (result : Except Err Unit)
    (returned : prog = .ret result) :
    ∀ s, At valid plans i consumer plan now prog stage p s →
      ∃ s', Moves (Admits plans) s s' ∧ At valid plans i consumer plan now (.ret (.ok ()))
        (.outside []) p s' ∧ s'.log = s.log ∧ ∀ j, j ≠ i → s'.phase j = s.phase j := by
  induction performs with
  | done => intro s here; exact ⟨s, .refl, here, rfl, fun _ _ => rfl⟩
  | register sec todo parent child rest k listed next ih => cases returned
  | acquire sec todo k locked next ih => cases returned
  | enter sec todo prog unlocked next ih => subst returned; cases next
  | registerInside sec todo parent child rest k listed next ih => cases returned
  | load sec todo k registered next ih => cases returned
  | present sec todo content item pending k next ih => cases returned
  | store sec todo content value ttl k written next ih => cases returned
  | time sec todo content value ttl k written next ih => cases returned
  | storeTimed sec todo content value ttl k written next ih => cases returned
  | skip sec todo content prog unwritten next ih =>
      intro s here
      have jobWrites : sec.job.writes content = none := by simp [Section.job, unwritten]
      have move : Move (Admits plans) s _ := .skip s i sec.job content here.phase jobWrites
      have stored := here.silent (.stored sec todo) rfl
        ⟨here.untimed.current, here.untimed.todo, rfl⟩
      obtain ⟨s', moves, there, log, phase⟩ := ih returned _ stored
      exact ⟨s', .head move moves, there, log, fun j other =>
        (phase j other).trans (Function.update_of_ne other _ _)⟩
  | release sec todo k locked next ih => cases returned
  | leave sec todo prog unlocked next ih =>
      intro s here
      have move : Move (Admits plans) s _ := .leave s i sec.job here.phase unlocked
      have outside := here.silent (.outside todo) rfl
        ⟨fun _ h => (nomatch h), here.untimed.todo, rfl⟩
      obtain ⟨s', moves, there, log, phase⟩ := ih returned _ outside
      exact ⟨s', .head move moves, there, log, fun j other =>
        (phase j other).trans (Function.update_of_ne other _ _)⟩

/-- Thread `i` has returned, and has entered every section of its plan. -/
def Done (plans : List (ℚ → List (Section Y R))) (p : Pool Y T R)
    (s : State Nat String (Option R)) (i : Nat) : Prop :=
  s.phase i = .idle ∧ ∃ plan now consumer, plans[i]? = some plan ∧
    p.threads[i]? = some ⟨consumer, .ret (.ok ())⟩ ∧ jobsOf s i = (plan now).map Section.job

theorem Done.of_same {p : Pool Y T R} {s s' : State Nat String (Option R)} {i : Nat}
    (done : Done plans p s i) (log : s'.log = s.log) (phase : s'.phase i = s.phase i) :
    Done plans p s' i := by
  obtain ⟨idle, plan, now, consumer, planned, found, mine⟩ := done
  refine ⟨phase.trans idle, plan, now, consumer, planned, found, ?_⟩
  unfold jobsOf
  rw [log]
  exact mine

theorem SimExcept.finish {p : Pool Y T R} (finished : p.finished = true) : ∀ (n : Nat),
    n ≤ plans.length → ∀ s : State Nat String (Option R), Sim valid plans p s →
      ∃ s', Moves (Admits plans) s s' ∧ Sim valid plans p s' ∧
        ∀ i, i < n → Done plans p s' i := by
  intro n
  induction n with
  | zero => intro _ s sim; exact ⟨s, .refl, sim, fun i h => by omega⟩
  | succ n ih =>
      intro bound s sim
      obtain ⟨mid, moves, midSim, done⟩ := ih (by omega) s sim
      have inThreads : n < p.threads.length := by rw [midSim.length]; omega
      have found : p.threads[n]? = some p.threads[n] := List.getElem?_eq_getElem inThreads
      have planned : plans[n]? = some plans[n] := List.getElem?_eq_getElem (by omega)
      have returned : ∃ result, p.threads[n].prog = .ret result := by
        have all := List.all_eq_true.mp finished p.threads[n] (List.getElem_mem inThreads)
        cases hprog : p.threads[n].prog with
        | ret result => exact ⟨result, rfl⟩
        | _ => rw [hprog] at all; cases all
      obtain ⟨result, returned⟩ := returned
      rcases midSim.follows n _ plans[n] (nofun) found planned with fresh | running
      · obtain ⟨⟨k, starts, _⟩, _⟩ := fresh
        rw [starts] at returned
        cases returned
      · obtain ⟨now, stage, performs, phase, mine, untimed⟩ := running
        have here : At valid plans n p.threads[n].consumer plans[n] now p.threads[n].prog stage p mid :=
          ⟨midSim.except n, planned, found, phase, mine, untimed⟩
        obtain ⟨s', moves', there, log, others⟩ := here.finish performs result returned mid
        refine ⟨s', moves.trans moves', there.sim Performs.done, fun i below => ?_⟩
        by_cases last : i = n
        · subst last
          refine ⟨there.phase, plans[i], now, _, planned, there.thread, ?_⟩
          have all := there.mine
          simpa [Stage.todo] using all
        · exact (done i (by omega)).of_same log (others i last)

end

end TreeKeyCache
