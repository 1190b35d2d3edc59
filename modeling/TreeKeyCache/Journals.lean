import TreeKeyCache.HeldEntries
import TreeKeyCache.Writers

/-! # Programs that do their sections or stop

A program that locks every section it performs, and that does nothing more after a rejected
operation than giving its semaphore back, does a beginning of its list of sections, whatever
fails, and all of it if it returns.  A journal is what is left of the list, with the semaphore
that is held and the content of its key. -/
set_option autoImplicit false
namespace TreeKeyCache

open SharedCells (Job)

variable {Y T R A B : Type}

namespace Prog

/-! ## What follows a rejected operation -/

/-- No semaphore is touched, and whatever is rejected ends the program at once. -/
def Abrupt : Prog Y T R A → Prop
  | ret _ => True
  | dateNow k => ∀ t, (k t).Abrupt
  | get _ k => (∀ content, (k (.ok content)).Abrupt) ∧ ∀ e, k (.error e) = ret (.error e)
  | set _ _ _ k => (∀ done, (k (.ok done)).Abrupt) ∧ ∀ e, k (.error e) = ret (.error e)
  | getCurrentTtl _ k => (∀ ttl, (k (.ok ttl)).Abrupt) ∧ ∀ e, k (.error e) = ret (.error e)
  | registerChild _ _ k => (∀ done, (k (.ok done)).Abrupt) ∧ ∀ e, k (.error e) = ret (.error e)
  | acquire _ _ => False
  | release _ _ => False
  | yield _ k => (∀ value, (k (.ok value)).Abrupt) ∧ ∀ e, k (.error e) = ret (.error e)

/-- The end after a rejected operation; a semaphore that is held is given back. -/
def Unwinds (held : Option String) (p : Prog Y T R A) : Prop :=
  ∃ e, p = held.elim (ret (.error e)) fun key => release key (ret (.error e))

/-- Whatever is rejected is followed by the end; one semaphore at most is held. -/
def Brittle : Prog Y T R A → Option String → Prop
  | ret _, held => held = none
  | dateNow k, held => ∀ t, (k t).Brittle held
  | get _ k, held => (∀ content, (k (.ok content)).Brittle held) ∧ ∀ e, (k (.error e)).Unwinds held
  | set _ _ _ k, held => (∀ done, (k (.ok done)).Brittle held) ∧ ∀ e, (k (.error e)).Unwinds held
  | getCurrentTtl _ k, held => (∀ ttl, (k (.ok ttl)).Brittle held) ∧ ∀ e, (k (.error e)).Unwinds held
  | registerChild _ _ k, held =>
      (∀ done, (k (.ok done)).Brittle held) ∧ ∀ e, (k (.error e)).Unwinds held
  | acquire key k, held =>
      held = none ∧ (k (.ok ())).Brittle (some key) ∧ ∀ e, (k (.error e)).Unwinds none
  | release key k, held => held = some key ∧ k.Brittle none
  | yield _ k, held => (∀ value, (k (.ok value)).Brittle held) ∧ ∀ e, (k (.error e)).Unwinds held

theorem Abrupt.bind {p : Prog Y T R A} {f : A → Prog Y T R B} (abrupt : p.Abrupt)
    (after : ∀ a, (f a).Abrupt) : (p >>= f).Abrupt := by
  have breaks : ∀ {C : Type} {k : Except Err C → Prog Y T R A},
      (∀ e, k (.error e) = ret (.error e)) → ∀ e, (k (.error e) >>= f) = ret (.error e) := by
    intro C k broken e
    rw [broken e, ret_error_bind]
  induction p with
  | ret result =>
      cases result with
      | ok a => exact after a
      | error e => trivial
  | dateNow k ih => exact fun t => ih t (abrupt t)
  | get key k ih => exact ⟨fun content => ih _ (abrupt.1 content), breaks abrupt.2⟩
  | set key value ttl k ih => exact ⟨fun done => ih _ (abrupt.1 done), breaks abrupt.2⟩
  | getCurrentTtl key k ih => exact ⟨fun ttl => ih _ (abrupt.1 ttl), breaks abrupt.2⟩
  | registerChild parent child k ih => exact ⟨fun done => ih _ (abrupt.1 done), breaks abrupt.2⟩
  | acquire key k ih => exact abrupt.elim
  | release key k ih => exact abrupt.elim
  | yield item k ih => exact ⟨fun value => ih _ (abrupt.1 value), breaks abrupt.2⟩

theorem Unwinds.bind {held : Option String} {p : Prog Y T R A} (unwinds : p.Unwinds held)
    (f : A → Prog Y T R B) : (p >>= f).Unwinds held := by
  obtain ⟨e, rfl⟩ := unwinds
  refine ⟨e, ?_⟩
  cases held with
  | none => rfl
  | some key => rfl

theorem Brittle.bind {p : Prog Y T R A} {f : A → Prog Y T R B} {held : Option String}
    (brittle : p.Brittle held) (after : ∀ a, (f a).Brittle none) : (p >>= f).Brittle held := by
  induction p generalizing held with
  | ret result =>
      obtain rfl : held = none := brittle
      cases result with
      | ok a => exact after a
      | error e => rfl
  | dateNow k ih => exact fun t => ih t (brittle t)
  | get key k ih => exact ⟨fun content => ih _ (brittle.1 content), fun e => (brittle.2 e).bind f⟩
  | set key value ttl k ih => exact ⟨fun done => ih _ (brittle.1 done), fun e => (brittle.2 e).bind f⟩
  | getCurrentTtl key k ih => exact ⟨fun ttl => ih _ (brittle.1 ttl), fun e => (brittle.2 e).bind f⟩
  | registerChild parent child k ih =>
      exact ⟨fun done => ih _ (brittle.1 done), fun e => (brittle.2 e).bind f⟩
  | acquire key k ih => exact ⟨brittle.1, ih _ brittle.2.1, fun e => (brittle.2.2 e).bind f⟩
  | release key k ih => exact ⟨brittle.1, ih brittle.2⟩
  | yield item k ih => exact ⟨fun value => ih _ (brittle.1 value), fun e => (brittle.2 e).bind f⟩

theorem Abrupt.guarded {p : Prog Y T R A} (abrupt : p.Abrupt) (key : String) :
    (p.tryFinally (dontWait key)).Brittle (some key) := by
  have breaks : ∀ {C : Type} {k : Except Err C → Prog Y T R A},
      (∀ e, k (.error e) = ret (.error e)) →
        ∀ e, ((k (.error e)).tryFinally (dontWait key)).Unwinds (some key) := by
    intro C k broken e
    rw [broken e]
    exact ⟨e, rfl⟩
  induction p with
  | ret result => exact ⟨rfl, rfl⟩
  | dateNow k ih => exact fun t => ih t (abrupt t)
  | get key' k ih => exact ⟨fun content => ih _ (abrupt.1 content), breaks abrupt.2⟩
  | set key' value ttl k ih => exact ⟨fun done => ih _ (abrupt.1 done), breaks abrupt.2⟩
  | getCurrentTtl key' k ih => exact ⟨fun ttl => ih _ (abrupt.1 ttl), breaks abrupt.2⟩
  | registerChild parent child k ih => exact ⟨fun done => ih _ (abrupt.1 done), breaks abrupt.2⟩
  | acquire key' k ih => exact abrupt.elim
  | release key' k ih => exact abrupt.elim
  | yield item k ih => exact ⟨fun value => ih _ (abrupt.1 value), breaks abrupt.2⟩

theorem Abrupt.locked {p : Prog Y T R A} (abrupt : p.Abrupt) (key : String) :
    (semaphoreAcquire key >>= fun _ => p.tryFinally (dontWait key)).Brittle none :=
  ⟨rfl, abrupt.guarded key, fun e => ⟨e, rfl⟩⟩

theorem abrupt_storageGet (key : String) : (storageGet key : Prog Y T R _).Abrupt :=
  ⟨fun _ => trivial, fun _ => rfl⟩

theorem abrupt_storageSet (key : String) (value : R) (ttl : Option ℚ) :
    (storageSet key value ttl : Prog Y T R Unit).Abrupt := ⟨fun _ => trivial, fun _ => rfl⟩

theorem abrupt_storageTtl (key : String) : (storageTtl key : Prog Y T R _).Abrupt :=
  ⟨fun _ => trivial, fun _ => rfl⟩

theorem abrupt_yieldItem (item : Y) : (yieldItem item : Prog Y T R _).Abrupt :=
  ⟨fun _ => trivial, fun _ => rfl⟩

theorem abrupt_ret (result : Except Err A) : (ret result : Prog Y T R A).Abrupt := trivial

theorem brittle_ret (result : Except Err A) : (ret result : Prog Y T R A).Brittle none := rfl

theorem brittle_storageRegister (parent : Option String) (child : String) :
    (storageRegister parent child : Prog Y T R Unit).Brittle none :=
  ⟨fun _ => rfl, fun e => ⟨e, rfl⟩⟩

end Prog

/-! ## Journals -/

/-- The key whose semaphore is held with its content, the jobs that are left, and whether all
that was done was as they say. -/
structure Journal (R : Type) where
  held : Option (String × Option R)
  todo : List (Job String (Option R))
  sound : Prop

namespace Journal

/-- The jobs that are left after a read: one that writes nothing is done with it. -/
def afterRead (key : String) (content : Option R) :
    List (Job String (Option R)) → List (Job String (Option R))
  | [] => []
  | job :: rest => if job.key = key ∧ (job.writes content).isNone then rest else job :: rest

/-- The write of the first job that is left, without a ttl, under the semaphore. -/
def Writes (s : Journal R) (key : String) (value : R) (ttl : Option ℚ) : Prop :=
  ttl = none ∧ ∃ content job rest, s.held = some (key, content) ∧ s.todo = job :: rest ∧
    job.key = key ∧ job.writes content = some (some value)

def Completed (s : Journal R) (result : Except Err Unit) : Prop :=
  s.sound ∧ s.held = none ∧ (result = .ok () → s.todo = [])

end Journal

/-- The answers a program gets for which `valid` contents are stored and whose consumer assigns
`edit item`, when everybody writes under the semaphores and anything may fail. -/
def journalEnv (valid : String → Option R → Prop) (edit : Y → Option T) :
    Environment (Journal R) Y T R where
  dateNow s _ s' := s' = s
  get s key answer s' := (∃ e, answer = .error e ∧ s' = s) ∨ ∃ content, answer = .ok content ∧
    valid key content ∧ (∀ known, s.held = some (key, known) → content = known) ∧
      s' = { s with todo := Journal.afterRead key content s.todo }
  set s key value ttl answer s' := ∃ effective : Bool, (answer = .ok () → effective = true) ∧
    s' = ⟨if effective then some (key, some value) else s.held,
      if effective then s.todo.tail else s.todo, s.sound ∧ s.Writes key value ttl⟩
  getCurrentTtl s _ _ s' := s' = s
  registerChild s _ _ _ s' := s' = s
  acquire s key answer s' :=
    (answer = .ok () ∧ ∃ content, s' = ⟨some (key, content), s.todo, s.sound ∧ s.held = none⟩) ∨
      ∃ e, answer = .error e ∧ s' = s
  release s key s' := s' = ⟨none, s.todo, s.sound ∧ ∃ content, s.held = some (key, content)⟩
  yield s item answer s' := s' = s ∧ ((∃ e, answer = .error e) ∨ answer = .ok (edit item))

namespace Stage

def left : Stage Y R → List (Job String (Option R))
  | outside todo => todo.map Section.job
  | inside s todo => s.job :: todo.map Section.job
  | loaded s content _ todo =>
      if (s.job.writes content).isNone then todo.map Section.job else s.job :: todo.map Section.job
  | timed s _ _ _ todo => s.job :: todo.map Section.job
  | stored _ todo => todo.map Section.job

def heldKey (stage : Stage Y R) : Option String := stage.current.map Section.key

/-- Every section is locked and writes without a ttl. -/
structure Locked (stage : Stage Y R) : Prop where
  untimed : stage.Untimed
  current : ∀ s, stage.current = some s → s.locked = true
  todo : ∀ s ∈ stage.todo, s.locked = true

theorem Locked.enter {s : Section Y R} {todo : List (Section Y R)}
    (locked : (outside (s :: todo)).Locked) : (inside s todo).Locked := by
  refine ⟨locked.untimed.enter, ?_, fun s' listed => locked.todo s' (List.mem_cons_of_mem _ listed)⟩
  intro s' same
  obtain rfl := Option.some.inj same
  exact locked.todo s List.mem_cons_self

structure Keeps (stage : Stage Y R) (s : Journal R) : Prop where
  sound : s.sound
  left : s.todo = stage.left
  held : s.held.map Prod.fst = stage.heldKey
  content : ∀ sec content pending todo, stage = loaded sec content pending todo →
    s.held = some (sec.key, content)

theorem Locked.registered {s : Section Y R} {todo : List (Section Y R)}
    (locked : (outside (s :: todo)).Locked) (rest : List (Option String × String)) :
    (outside ({ s with registers := rest } :: todo)).Locked := by
  have untimed := locked.untimed.todo s List.mem_cons_self
  have lockedHead := locked.todo s List.mem_cons_self
  refine ⟨⟨fun _ impossible => (by cases impossible), fun s' listed => ?_, rfl⟩,
    fun _ impossible => (by cases impossible), fun s' listed => ?_⟩
  · rcases List.mem_cons.mp listed with rfl | later
    · exact untimed
    · exact locked.untimed.todo s' (List.mem_cons_of_mem _ later)
  · rcases List.mem_cons.mp listed with rfl | later
    · exact lockedHead
    · exact locked.todo s' (List.mem_cons_of_mem _ later)

end Stage

theorem Prog.Unwinds.completed {valid : String → Option R → Prop} {edit : Y → Option T}
    {p : Prog Y T R Unit} {s : Journal R} (unwinds : p.Unwinds (s.held.map Prod.fst))
    (sound : s.sound) : p.Wp (journalEnv valid edit) Journal.Completed s := by
  obtain ⟨e, rfl⟩ := unwinds
  cases held : s.held with
  | none => exact ⟨sound, held, fun impossible => by cases impossible⟩
  | some pair =>
      rintro _ rfl
      exact ⟨⟨sound, pair.2, held⟩, rfl, fun impossible => by cases impossible⟩

theorem Performs.journal {edit : Y → Option T} {valid : String → Option R → Prop}
    {p : Prog Y T R Unit} {stage : Stage Y R} (performs : Performs edit valid p stage) :
    ∀ s : Journal R, stage.Locked → p.Brittle stage.heldKey → stage.Keeps s →
      p.Wp (journalEnv valid edit) Journal.Completed s := by
  induction performs with
  | done =>
      intro s _ _ keeps
      exact ⟨keeps.sound, Option.map_eq_none_iff.mp keeps.held, fun _ => keeps.left⟩
  | register sec todo parent child rest k listed next ih =>
      rintro _ locked ⟨brittle, fails⟩ keeps answer s rfl
      cases answer with
      | error e => exact Prog.Unwinds.completed (keeps.held ▸ fails e) keeps.sound
      | ok done =>
          refine ih s (locked.registered rest) (brittle _) ⟨keeps.sound, keeps.left, keeps.held, ?_⟩
          intro _ _ _ _ impossible
          cases impossible
  | acquire sec todo k lockedSec next ih =>
      rintro s locked ⟨_, brittle, fails⟩ keeps answer s' (⟨rfl, content, rfl⟩ | ⟨e, rfl, rfl⟩)
      · refine ih _ locked.enter brittle ⟨⟨keeps.sound, Option.map_eq_none_iff.mp keeps.held⟩,
          keeps.left, rfl, ?_⟩
        intro _ _ _ _ impossible
        cases impossible
      · exact Prog.Unwinds.completed (keeps.held ▸ fails e) keeps.sound
  | enter sec todo p unlocked next ih =>
      intro s locked
      rw [locked.todo sec List.mem_cons_self] at unlocked
      cases unlocked
  | registerInside sec todo parent child rest k listed next ih =>
      rintro _ locked ⟨brittle, fails⟩ keeps answer s rfl
      cases answer with
      | error e => exact Prog.Unwinds.completed (keeps.held ▸ fails e) keeps.sound
      | ok done =>
          have again : (Stage.inside { sec with registers := rest } todo).Locked := by
            refine ⟨⟨?_, locked.untimed.todo, rfl⟩, ?_, locked.todo⟩
            · intro s' same
              obtain rfl := Option.some.inj same
              exact locked.untimed.current sec rfl
            · intro s' same
              obtain rfl := Option.some.inj same
              exact locked.current sec rfl
          refine ih s again (brittle _) ⟨keeps.sound, keeps.left, keeps.held, ?_⟩
          intro _ _ _ _ impossible
          cases impossible
  | load sec todo k registered next ih =>
      rintro s locked ⟨brittle, fails⟩ keeps answer s' (⟨e, rfl, rfl⟩ | ⟨content, rfl, stored, same, rfl⟩)
      · exact Prog.Unwinds.completed (keeps.held ▸ fails e) keeps.sound
      · obtain ⟨⟨key, known⟩, held, key_eq⟩ := Option.map_eq_some_iff.mp keeps.held
        obtain rfl : key = sec.key := key_eq
        obtain rfl := same known held
        refine ih content stored _ ⟨⟨locked.untimed.current, locked.untimed.todo, rfl⟩, locked.current,
          locked.todo⟩ (brittle content) ⟨keeps.sound, ?_, keeps.held, ?_⟩
        · show Journal.afterRead sec.key content s.todo = _
          rw [keeps.left]
          show (if sec.job.key = sec.key ∧ _ then _ else _) = _
          simp only [Stage.left, show sec.job.key = sec.key from rfl, true_and]
        · intro _ _ _ _ same
          cases same
          exact held
  | present sec todo content item pending k next ih =>
      rintro _ locked ⟨brittle, fails⟩ keeps answer s ⟨rfl, ⟨e, rfl⟩ | rfl⟩
      · exact Prog.Unwinds.completed (keeps.held ▸ fails e) keeps.sound
      · refine ih s ⟨⟨locked.untimed.current, locked.untimed.todo, rfl⟩, locked.current,
          locked.todo⟩ (brittle _) ⟨keeps.sound, keeps.left, keeps.held, ?_⟩
        intro _ _ _ _ same
        cases same
        exact keeps.content _ _ _ _ rfl
  | store sec todo content value ttl k written next ih =>
      rintro s locked ⟨brittle, fails⟩ keeps answer s' ⟨effective, succeeds, rfl⟩
      have held := keeps.content _ _ _ _ rfl
      obtain ⟨rfl⟩ : ttl = none := by
        have rule := locked.untimed.current sec rfl content value _ written
        cases rule
        rfl
      have job : sec.job.writes content = some (some value) := by
        show (sec.writes content).map _ = _
        rw [written]
        rfl
      have left : s.todo = sec.job :: todo.map Section.job := by
        rw [keeps.left, Stage.left, job]
        rfl
      have writes : s.Writes sec.key value none := ⟨rfl, content, sec.job, _, held, left, rfl, job⟩
      cases answer with
      | error e =>
          refine Prog.Unwinds.completed ?_ ⟨keeps.sound, writes⟩
          have fails' := fails e
          cases effective with
          | false => exact keeps.held ▸ fails'
          | true => exact fails'
      | ok done =>
          obtain rfl := succeeds rfl
          refine ih _ ⟨⟨locked.untimed.current, locked.untimed.todo, rfl⟩, locked.current,
            locked.todo⟩ (brittle _) ⟨⟨keeps.sound, writes⟩, ?_, rfl, ?_⟩
          · show s.todo.tail = _
            rw [left]
            rfl
          · intro _ _ _ _ impossible
            cases impossible
  | time sec todo content value ttl k written next ih =>
      intro s locked
      have rule := locked.untimed.current sec rfl content value _ written
      cases rule
  | storeTimed sec todo content value ttl k written next ih =>
      intro s locked
      have plain := locked.untimed.plain
      cases plain
  | skip sec todo content p unwritten next ih =>
      intro s locked brittle keeps
      have job : sec.job.writes content = none := by
        show (sec.writes content).map _ = _
        rw [unwritten]
        rfl
      refine ih s ⟨⟨locked.untimed.current, locked.untimed.todo, rfl⟩, locked.current,
        locked.todo⟩ brittle ⟨keeps.sound, ?_, keeps.held, ?_⟩
      · rw [keeps.left, Stage.left, job]
        rfl
      · intro _ _ _ _ impossible
        cases impossible
  | release sec todo k lockedSec next ih =>
      rintro s locked ⟨_, brittle⟩ keeps s' rfl
      obtain ⟨⟨key, known⟩, held, key_eq⟩ := Option.map_eq_some_iff.mp keeps.held
      obtain rfl : key = sec.key := key_eq
      refine ih _ ⟨⟨fun _ impossible => (by cases impossible), locked.untimed.todo, rfl⟩,
        fun _ impossible => (by cases impossible), locked.todo⟩ brittle
        ⟨⟨keeps.sound, known, held⟩, keeps.left, rfl, ?_⟩
      intro _ _ _ _ impossible
      cases impossible
  | leave sec todo p unlocked next ih =>
      intro s locked
      rw [locked.current sec rfl] at unlocked
      cases unlocked

/-! ## One operation -/

/-- An operation in the world `w`: it stores nothing and leaves the jobs as they are, or it does
the first of them. -/
inductive Journal.Advances (w : World R) (s s' : Journal R) : Option (Event R) → Prop where
  | waits {event : Option (Event R)} (same : s'.todo = s.todo)
      (stores : ∀ key value ttl, event ≠ some (.stored key value ttl)) : Advances w s s' event
  | passes (job : Job String (Option R)) (first : s.todo = job :: s'.todo)
      (nothing : job.writes (w.read job.key) = none) : Advances w s s' none
  | writes (job : Job String (Option R)) (value : R) (first : s.todo = job :: s'.todo)
      (held : s.held.map Prod.fst = some job.key)
      (written : job.writes (w.read job.key) = some (some value)) :
      Advances w s s' (some (.stored job.key value none))

section
variable {valid : String → Option R → Prop} {edit : Y → Option T} {s : Journal R}
  {p p' : Prog Y T R Unit}

theorem Prog.Wp.journal_sound (holds : p.Wp (journalEnv valid edit) Journal.Completed s) : s.sound := by
  let e : Err := .thrown ""
  induction p generalizing s with
  | ret result => exact holds.1
  | dateNow k ih => exact ih 0 (holds 0 s rfl)
  | get key k ih => exact ih _ (holds (.error e) s (.inl ⟨e, rfl, rfl⟩))
  | set key value ttl k ih =>
      exact (ih _ (holds (.error e) _ ⟨false, fun impossible => (by cases impossible), rfl⟩)).1
  | getCurrentTtl key k ih => exact ih _ (holds (.error e) s rfl)
  | registerChild parent child k ih => exact ih _ (holds (.error e) s rfl)
  | acquire key k ih => exact ih _ (holds (.error e) s (.inr ⟨e, rfl, rfl⟩))
  | release key k ih => exact (ih (holds _ rfl)).1
  | yield item k ih => exact ih _ (holds (.error e) s ⟨rfl, .inl ⟨e, rfl⟩⟩)

theorem Prog.Wp.journal_turn {event : Option (Event R)} {failed : Bool} {w : World R}
    (holds : p.Wp (journalEnv valid edit) Journal.Completed s) (turn : p.Turn event failed p')
    (reads : ∀ key k, p = .get key k → failed = false → p' = k (.ok (w.read key)))
    (answers : ∀ item k, p = .yield item k → failed = false → p' = k (.ok (edit item)))
    (stored : ∀ key, valid key (w.read key))
    (known : ∀ key content, s.held = some (key, content) → w.read key = content) :
    HeldAllows (s.held.map Prod.fst) event ∧ ∃ s' : Journal R,
      p'.Wp (journalEnv valid edit) Journal.Completed s' ∧
        s'.held.map Prod.fst = heldAfter (s.held.map Prod.fst) event ∧
        (∀ key content, s'.held = some (key, content) → (worldAfter w event).read key = content) ∧
        s.Advances w s' event := by
  have waits : ∀ p' : Prog Y T R Unit, p'.Wp (journalEnv valid edit) Journal.Completed s →
      HeldAllows (s.held.map Prod.fst) (none : Option (Event R)) ∧ ∃ s' : Journal R,
        p'.Wp (journalEnv valid edit) Journal.Completed s' ∧
          s'.held.map Prod.fst = heldAfter (s.held.map Prod.fst) (none : Option (Event R)) ∧
          (∀ key content, s'.held = some (key, content) →
            (worldAfter w (none : Option (Event R))).read key = content) ∧ s.Advances w s' none :=
    fun p' next => ⟨trivial, s, next, rfl, known, .waits rfl fun _ _ _ impossible => by cases impossible⟩
  -- a write that takes effect, whether it is rejected or not
  have written : ∀ (key : String) (value : R) (ttl : Option ℚ) (answer : Except Err Unit)
      (k : Except Err Unit → Prog Y T R Unit),
      (Prog.set key value ttl k).Wp (journalEnv valid edit) Journal.Completed s →
      HeldAllows (s.held.map Prod.fst) (some (Event.stored key value ttl)) ∧ ∃ s' : Journal R,
        (k answer).Wp (journalEnv valid edit) Journal.Completed s' ∧
          s'.held.map Prod.fst = heldAfter (s.held.map Prod.fst) (some (Event.stored key value ttl)) ∧
          (∀ key' content, s'.held = some (key', content) →
            (worldAfter w (some (Event.stored key value ttl))).read key' = content) ∧
          s.Advances w s' (some (.stored key value ttl)) := by
    intro key value ttl answer k holds
    have next := holds answer _ ⟨true, fun _ => rfl, rfl⟩
    obtain ⟨_, rfl, content, job, rest, held, left, rfl, writes⟩ := next.journal_sound
    refine ⟨trivial, _, next, ?_, ?_, .writes job value ?_ ?_ ?_⟩
    · rw [held]
      rfl
    · intro key' content' same
      cases same
      show (w.write job.key value none).read job.key = some value
      rw [World.read_write_none, if_pos rfl]
    · show s.todo = job :: s.todo.tail
      rw [left]
      rfl
    · rw [held]
      rfl
    · rw [known job.key content held, writes]
  cases turn with
  | dateNow t k => exact waits _ (holds t s rfl)
  | get key content k =>
      rw [reads key k rfl rfl]
      have next := holds (.ok (w.read key)) _ (.inr ⟨_, rfl, stored key, known key, rfl⟩)
      refine ⟨trivial, _, next, rfl, known, ?_⟩
      cases left : s.todo with
      | nil => exact .waits (by rw [left]; rfl) fun _ _ _ impossible => by cases impossible
      | cons job rest =>
          by_cases passed : job.key = key ∧ (job.writes (w.read key)).isNone
          · refine .passes job ?_ ?_
            · show s.todo = job :: (if _ then rest else job :: rest)
              rw [left, if_pos passed]
            · rw [passed.1]
              exact Option.isNone_iff_eq_none.mp passed.2
          · refine .waits ?_ fun _ _ _ impossible => by cases impossible
            show (if _ then rest else job :: rest) = s.todo
            rw [left, if_neg passed]
  | getFailed key e k => exact waits _ (holds (.error e) s (.inl ⟨e, rfl, rfl⟩))
  | set key value ttl k => exact written key value ttl (.ok ()) k holds
  | setFailed key value ttl e effective k =>
      cases effective with
      | true => exact written key value ttl (.error e) k holds
      | false =>
          have next := holds (.error e) _ ⟨false, fun impossible => (by cases impossible), rfl⟩
          exact ⟨trivial, _, next, rfl, known, .waits rfl fun _ _ _ impossible => by cases impossible⟩
  | getCurrentTtl key ttl k => exact waits _ (holds (.ok ttl) s rfl)
  | getCurrentTtlFailed key e k => exact waits _ (holds (.error e) s rfl)
  | registerChild parent child k =>
      exact ⟨trivial, s, holds (.ok ()) s rfl, rfl, known,
        .waits rfl fun _ _ _ impossible => by cases impossible⟩
  | registerChildFailed parent child e effective k =>
      cases effective with
      | false => exact waits _ (holds (.error e) s rfl)
      | true => exact ⟨trivial, s, holds (.error e) s rfl, rfl, known,
          .waits rfl fun _ _ _ impossible => by cases impossible⟩
  | acquire key k =>
      have next := holds (.ok ()) _ (.inl ⟨rfl, w.read key, rfl⟩)
      have nothing : s.held = none := next.journal_sound.2
      refine ⟨?_, _, next, rfl, ?_, .waits rfl fun _ _ _ impossible => by cases impossible⟩
      · show s.held.map Prod.fst = none
        rw [nothing]
        rfl
      · intro key' content same
        cases same
        rfl
  | acquireFailed key e k => exact waits _ (holds (.error e) s (.inr ⟨e, rfl, rfl⟩))
  | release key k =>
      have next := holds _ rfl
      obtain ⟨_, content, held⟩ := next.journal_sound
      refine ⟨?_, _, next, rfl, ?_, .waits rfl fun _ _ _ impossible => by cases impossible⟩
      · show s.held.map Prod.fst = some key
        rw [held]
        rfl
      · intro key' content' impossible
        cases impossible
  | yield item value k =>
      rw [answers item k rfl rfl]
      exact waits _ (holds (.ok (edit item)) s ⟨rfl, .inr rfl⟩)
  | yieldFailed item e k => exact waits _ (holds (.error e) s ⟨rfl, .inl ⟨e, rfl⟩⟩)

end

end TreeKeyCache
