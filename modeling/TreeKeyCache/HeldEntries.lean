import TreeKeyCache.LockedWrites
import TreeKeyCache.OneKey
import TreeKeyCache.Refinement

/-! # What the holder of a semaphore knows, whatever fails

`heldEnv` answers a program as a pool does in which everybody writes under the semaphore of the
key: what has been read of the key that is held stays so until the program writes it.  A program
is sound in it when it writes only so, and changes the contents only as is permitted.  In a pool of
sound programs every write, also one that takes effect although it is rejected, then finds the
content it was computed from. -/
set_option autoImplicit false
namespace TreeKeyCache

open SharedCells (Lock)

variable {Y Y' T R A B : Type}

/-- The key that is held with its content, and whether all that was done was sound. -/
structure Held (R : Type) where
  key : Option (String × Option R)
  sound : Prop

/-- The new contents that are permitted for a key and its old content. -/
abbrev Change (R : Type) := String → Option R → R → Prop

/-- A sound write: under the semaphore of its key, without a ttl, and permitted. -/
def Held.Writes (change : Change R) (s : Held R) (key : String) (value : R) (ttl : Option ℚ) : Prop :=
  ttl = none ∧ ∃ content, s.key = some (key, content) ∧ change key content value

def heldEnv (change : Change R) : Environment (Held R) Y T R where
  dateNow s _ s' := s' = s
  get s key answer s' := s' = s ∧
    ∀ content known, answer = .ok content → s.key = some (key, known) → content = known
  set s key value ttl answer s' := ∃ effective : Bool, (answer = .ok () → effective = true) ∧
    s' = ⟨if effective then some (key, some value) else s.key, s.sound ∧ s.Writes change key value ttl⟩
  getCurrentTtl s _ _ s' := s' = s
  registerChild s _ _ _ s' := s' = s
  acquire s key answer s' :=
    (answer = .ok () ∧ ∃ content, s' = ⟨some (key, content), s.sound ∧ s.key = none⟩) ∨
      ∃ e, answer = .error e ∧ s' = s
  release s key s' := s' = ⟨none, s.sound ∧ ∃ content, s.key = some (key, content)⟩
  yield s _ _ s' := s' = s

/-- All has been sound, and nothing is held. -/
def Held.Idle (s : Held R) : Prop := s.sound ∧ s.key = none

namespace Prog

variable {change : Change R} {s : Held R}

/-- From nothing held to nothing held, whatever fails. -/
def Sound (change : Change R) (p : Prog Y T R A) (post : A → Prop) : Prop :=
  ∀ s : Held R, s.Idle → p.Wp (heldEnv change) (fun s result => s.Idle ∧ ∀ a, result = .ok a → post a) s

/-- With the semaphore of a key, before the key is written: it holds the content `known`. -/
def SoundInside (change : Change R) (p : Prog Y T R A) (key : String) (known : Option R) : Prop :=
  ∀ s : Held R, s.sound → s.key = some (key, known) →
    p.Wp (heldEnv change) (fun s _ => s.sound ∧ ∃ content, s.key = some (key, content)) s

theorem Wp.mapItem {f : Y → Y'} {p : Prog Y T R A} {post : Held R → Except Err A → Prop}
    (holds : p.Wp (heldEnv change) post s) : (p.mapItem f).Wp (heldEnv change) post s := by
  induction p generalizing s with
  | ret result => exact holds
  | dateNow k ih => exact fun t s' answered => ih t (holds t s' answered)
  | get key k ih => exact fun answer s' answered => ih answer (holds answer s' answered)
  | set key value ttl k ih => exact fun answer s' answered => ih answer (holds answer s' answered)
  | getCurrentTtl key k ih => exact fun answer s' answered => ih answer (holds answer s' answered)
  | registerChild parent child k ih =>
      exact fun answer s' answered => ih answer (holds answer s' answered)
  | acquire key k ih => exact fun answer s' answered => ih answer (holds answer s' answered)
  | release key k ih => exact fun s' answered => ih (holds s' answered)
  | yield item k ih => exact fun answer s' answered => ih answer (holds answer s' answered)

theorem Wp.sound_now {p : Prog Y T R A} {post : Held R → Except Err A → Prop}
    (sound : ∀ s result, post s result → s.sound) (holds : p.Wp (heldEnv change) post s) : s.sound := by
  induction p generalizing s with
  | ret result => exact sound s result holds
  | dateNow k ih => exact ih 0 (holds 0 s rfl)
  | get key k ih =>
      cases known : s.key with
      | none => exact ih _ (holds (.ok none) s ⟨rfl, fun _ _ _ held => by cases known.symm.trans held⟩)
      | some pair =>
          refine ih _ (holds (.ok pair.2) s ⟨rfl, fun content other same held => ?_⟩)
          obtain rfl := Except.ok.inj same
          rw [known] at held
          obtain rfl := Option.some.inj held
          rfl
  | set key value ttl k ih => exact (ih (.ok ()) (holds (.ok ()) _ ⟨true, fun _ => rfl, rfl⟩)).1
  | getCurrentTtl key k ih => exact ih (.ok none) (holds (.ok none) s rfl)
  | registerChild parent child k ih => exact ih (.ok ()) (holds (.ok ()) s rfl)
  | acquire key k ih => exact (ih (.ok ()) (holds (.ok ()) _ (.inl ⟨rfl, none, rfl⟩))).1
  | release key k ih => exact (ih (holds _ rfl)).1
  | yield item k ih => exact ih (.ok none) (holds (.ok none) s rfl)

theorem Quiet.heldWp {P : A → Prop} {p : Prog Y T R A} (quiet : p.Quiet) (returns : p.Returns P) :
    p.Wp (heldEnv change) (fun s' result => s' = s ∧ ∀ a, result = .ok a → P a) s := by
  induction p with
  | ret result => exact ⟨rfl, returns⟩
  | dateNow k ih =>
      rintro t _ rfl
      exact ih t (quiet t) (returns t)
  | get key k ih =>
      rintro answer _ ⟨rfl, _⟩
      exact ih answer (quiet answer) (returns answer)
  | getCurrentTtl key k ih =>
      rintro answer _ rfl
      exact ih answer (quiet answer) (returns answer)
  | yield item k ih =>
      rintro answer _ rfl
      exact ih answer (quiet answer) (returns answer)
  | set key value ttl k ih => exact quiet.elim
  | registerChild parent child k ih => exact quiet.elim
  | acquire key k ih => exact quiet.elim
  | release key k ih => exact quiet.elim

/-! ## Outside the semaphores -/

theorem Sound.bind {p : Prog Y T R A} {f : A → Prog Y T R B} {middle : A → Prop} {post : B → Prop}
    (first : p.Sound change middle) (second : ∀ a, middle a → (f a).Sound change post) :
    (p >>= f).Sound change post := by
  intro s idle
  refine Wp.seq _ (first s idle) (fun s e reached => ⟨reached.1, fun _ impossible => by cases impossible⟩) ?_
  exact fun s a reached => second a (reached.2 a rfl) s reached.1

theorem Quiet.sound {P : A → Prop} {p : Prog Y T R A} (quiet : p.Quiet) (returns : p.Returns P) :
    p.Sound change P := by
  intro s idle
  refine (quiet.heldWp (s := s) returns).mono fun s' result reached => ?_
  rw [reached.1]
  exact ⟨idle, reached.2⟩

theorem sound_ret {result : Except Err A} {post : A → Prop} (holds : ∀ a, result = .ok a → post a) :
    (ret result : Prog Y T R A).Sound change post := fun _ idle => ⟨idle, holds⟩

theorem sound_storageRegister (parent : Option String) (child : String) :
    (storageRegister parent child : Prog Y T R Unit).Sound change fun _ => True := by
  rintro s idle answer _ rfl
  exact ⟨idle, fun _ _ => trivial⟩

theorem Returns.mono {P P' : A → Prop} (weaker : ∀ a, P a → P' a) {p : Prog Y T R A}
    (returns : p.Returns P) : p.Returns P' := by
  rw [← bind_ret p]
  refine returns.bind fun a holds b same => ?_
  obtain rfl := Except.ok.inj same
  exact weaker a holds

theorem Wp.returns {P : A → Prop} {p : Prog Y T R A} {post : Held R → Except Err A → Prop}
    (holds : p.Wp (heldEnv change) post s) (returns : p.Returns P) :
    p.Wp (heldEnv change) (fun s result => post s result ∧ ∀ a, result = .ok a → P a) s := by
  induction p generalizing s with
  | ret result => exact ⟨holds, returns⟩
  | dateNow k ih => exact fun t s' answered => ih t (holds t s' answered) (returns t)
  | get key k ih => exact fun answer s' answered => ih answer (holds answer s' answered) (returns answer)
  | set key value ttl k ih =>
      exact fun answer s' answered => ih answer (holds answer s' answered) (returns answer)
  | getCurrentTtl key k ih =>
      exact fun answer s' answered => ih answer (holds answer s' answered) (returns answer)
  | registerChild parent child k ih =>
      exact fun answer s' answered => ih answer (holds answer s' answered) (returns answer)
  | acquire key k ih =>
      exact fun answer s' answered => ih answer (holds answer s' answered) (returns answer)
  | release key k ih => exact fun s' answered => ih (holds s' answered) returns
  | yield item k ih =>
      exact fun answer s' answered => ih answer (holds answer s' answered) (returns answer)

theorem Sound.locked {key : String} {p : Prog Y T R A} {post : A → Prop}
    (inside : ∀ content, p.SoundInside change key content) (returns : p.Returns post) :
    (semaphoreAcquire key >>= fun _ => p.tryFinally (dontWait key)).Sound change post := by
  rintro s ⟨sound, nothing⟩ answer s' (⟨rfl, content, rfl⟩ | ⟨e, rfl, rfl⟩)
  · show (p.tryFinally (dontWait key)).Wp (heldEnv change) _ _
    apply Wp.tryFinally
    have body := inside content ⟨some (key, content), s.sound ∧ s.key = none⟩ ⟨sound, nothing⟩ rfl
    refine (body.returns returns).mono ?_
    rintro s' result ⟨⟨soundNow, known, held⟩, returned⟩ _ rfl
    exact ⟨⟨⟨soundNow, known, held⟩, rfl⟩, returned⟩
  · refine ⟨⟨sound, nothing⟩, fun _ impossible => ?_⟩
    cases impossible

/-! ## Inside a semaphore -/

theorem Quiet.soundInside {P : A → Prop} {p : Prog Y T R A} {f : A → Prog Y T R B} {key : String}
    {known : Option R} (quiet : p.Quiet) (returns : p.Returns P)
    (second : ∀ a, P a → (f a).SoundInside change key known) :
    (p >>= f).SoundInside change key known := by
  intro s sound held
  refine Wp.seq _ (quiet.heldWp (s := s) returns) ?_ ?_
  · rintro s' e ⟨rfl, _⟩
    exact ⟨sound, known, held⟩
  · rintro s' a ⟨rfl, holds⟩
    exact second a (holds a rfl) s' sound held

theorem soundInside_storageGet {key : String} {known : Option R} {f : Option R → Prog Y T R A}
    (second : (f known).SoundInside change key known) :
    (storageGet key >>= f).SoundInside change key known := by
  rintro s sound held answer _ ⟨rfl, heard⟩
  cases answer with
  | error e => exact ⟨sound, known, held⟩
  | ok content =>
      obtain rfl := heard content known rfl held
      exact second _ sound held

theorem soundInside_storageRegister {key : String} {known : Option R} (parent : Option String)
    (child : String) {f : Unit → Prog Y T R A} (second : (f ()).SoundInside change key known) :
    (storageRegister parent child >>= f).SoundInside change key known := by
  rintro s sound held answer _ rfl
  cases answer with
  | error e => exact ⟨sound, known, held⟩
  | ok _ => exact second _ sound held

theorem soundInside_ret (result : Except Err A) (key : String) (known : Option R) :
    (ret result : Prog Y T R A).SoundInside change key known := fun _ sound held => ⟨sound, known, held⟩

theorem soundInside_storageSet {key : String} {known : Option R} {value : R}
    (permitted : change key known value) :
    (storageSet key value none : Prog Y T R Unit).SoundInside change key known := by
  rintro s sound held answer _ ⟨effective, _, rfl⟩
  refine ⟨⟨sound, rfl, known, held, permitted⟩, ?_⟩
  cases effective with
  | false => exact ⟨known, held⟩
  | true => exact ⟨some value, rfl⟩

theorem SoundInside.andReturn {p : Prog Y T R A} {key : String} {known : Option R} {b : B}
    (inside : p.SoundInside change key known) :
    (p >>= fun _ => ret (.ok b)).SoundInside change key known := by
  intro s sound held
  exact Wp.seq _ (inside s sound held) (fun _ _ reached => reached) fun _ _ reached => reached

end Prog

/-! ## Storages without expiry -/

def World.Permanent (w : World R) : Prop := ∀ key entry, w.store key = some entry → entry.expiry = none

theorem World.Permanent.write {w : World R} (permanent : w.Permanent) (key : String) (value : R) :
    (w.write key value none).Permanent := by
  intro other entry stored
  by_cases same : other = key
  · rw [same, w.store_write_self key value none] at stored
    obtain rfl := Option.some.inj stored
    rfl
  · rw [w.store_write_of_ne value none same] at stored
    exact permanent other entry stored

theorem World.read_write_none (w : World R) (key : String) (value : R) (other : String) :
    (w.write key value none).read other = if other = key then some value else w.read other := by
  rw [World.read_eq, World.read_eq, World.write_clock]
  split
  · rename_i same
    rw [same, w.store_write_self key value none]
    rfl
  · rename_i different
    rw [w.store_write_of_ne value none different]

/-! ## One operation -/

/-- What a sound thread does next, in a world in which it knows the content of its key. -/
theorem Prog.Wp.held_turn {change : Change R} {s : Held R} {p p' : Prog Y T R A}
    {post : Held R → Except Err A → Prop} {event : Option (Event R)} {failed : Bool} {w : World R}
    (sound : ∀ s result, post s result → s.sound) (holds : p.Wp (heldEnv change) post s)
    (turn : p.Turn event failed p')
    (reads : ∀ key k, p = .get key k → failed = false → p' = k (.ok (w.read key)))
    (known : ∀ key content, s.key = some (key, content) → w.read key = content) :
    (∀ key value ttl, event = some (.stored key value ttl) → s.Writes change key value ttl) ∧
      HeldAllows (s.key.map Prod.fst) event ∧
      ∃ s' : Held R, p'.Wp (heldEnv change) post s' ∧
        s'.key.map Prod.fst = heldAfter (s.key.map Prod.fst) event ∧
        ∀ key content, s'.key = some (key, content) → (worldAfter w event).read key = content := by
  have silent : ∀ p' : Prog Y T R A, p'.Wp (heldEnv change) post s →
      (∀ key value ttl, (none : Option (Event R)) = some (.stored key value ttl) →
        s.Writes change key value ttl) ∧ HeldAllows (s.key.map Prod.fst) (none : Option (Event R)) ∧
      ∃ s' : Held R, p'.Wp (heldEnv change) post s' ∧
        s'.key.map Prod.fst = heldAfter (s.key.map Prod.fst) (none : Option (Event R)) ∧
        ∀ key content, s'.key = some (key, content) →
          (worldAfter w (none : Option (Event R))).read key = content :=
    fun p' next => ⟨fun _ _ _ impossible => (by cases impossible), trivial, s, next, rfl, known⟩
  -- a write that takes effect, whether it is rejected or not
  have stored : ∀ (key : String) (value : R) (ttl : Option ℚ) (answer : Except Err Unit)
      (k : Except Err Unit → Prog Y T R A), (Prog.set key value ttl k).Wp (heldEnv change) post s →
      (∀ key' value' ttl', some (Event.stored key value ttl) = some (.stored key' value' ttl') →
        s.Writes change key' value' ttl') ∧
      HeldAllows (s.key.map Prod.fst) (some (Event.stored key value ttl)) ∧
      ∃ s' : Held R, (k answer).Wp (heldEnv change) post s' ∧
        s'.key.map Prod.fst = heldAfter (s.key.map Prod.fst) (some (Event.stored key value ttl)) ∧
        ∀ key' content, s'.key = some (key', content) →
          (worldAfter w (some (Event.stored key value ttl))).read key' = content := by
    intro key value ttl answer k holds
    have next := holds answer _ ⟨true, fun _ => rfl, rfl⟩
    have writes : s.Writes change key value ttl := (next.sound_now sound).2
    obtain ⟨rfl, content, held, permitted⟩ := writes
    refine ⟨?_, trivial, _, next, ?_, ?_⟩
    · intro _ _ _ same
      cases same
      exact ⟨rfl, content, held, permitted⟩
    · rw [held]
      rfl
    · intro key' content' same
      cases same
      show (w.write key value none).read key = some value
      rw [World.read_write_none, if_pos rfl]
  cases turn with
  | dateNow t k => exact silent _ (holds t s rfl)
  | get key content k =>
      rw [reads key k rfl rfl]
      refine silent _ (holds (.ok (w.read key)) s ⟨rfl, fun other found same held => ?_⟩)
      obtain rfl := Except.ok.inj same
      exact known key found held
  | getFailed key e k =>
      exact silent _ (holds (.error e) s ⟨rfl, fun _ _ impossible => by cases impossible⟩)
  | set key value ttl k => exact stored key value ttl (.ok ()) k holds
  | setFailed key value ttl e effective k =>
      cases effective with
      | true => exact stored key value ttl (.error e) k holds
      | false =>
          have next := holds (.error e) _ ⟨false, fun impossible => (by cases impossible), rfl⟩
          exact ⟨fun _ _ _ impossible => (by cases impossible), trivial, _, next, rfl, known⟩
  | getCurrentTtl key ttl k => exact silent _ (holds (.ok ttl) s rfl)
  | getCurrentTtlFailed key e k => exact silent _ (holds (.error e) s rfl)
  | registerChild parent child k =>
      exact ⟨fun _ _ _ impossible => (by cases impossible), trivial, s, holds (.ok ()) s rfl, rfl, known⟩
  | registerChildFailed parent child e effective k =>
      cases effective with
      | false => exact silent _ (holds (.error e) s rfl)
      | true => exact ⟨fun _ _ _ impossible => (by cases impossible), trivial, s, holds (.error e) s rfl,
          rfl, known⟩
  | acquire key k =>
      have next := holds (.ok ()) _ (.inl ⟨rfl, w.read key, rfl⟩)
      have nothing : s.key = none := (next.sound_now sound).2
      refine ⟨fun _ _ _ impossible => (by cases impossible), ?_, _, next, rfl, ?_⟩
      · show s.key.map Prod.fst = none
        rw [nothing]
        rfl
      · intro key' content same
        cases same
        rfl
  | acquireFailed key e k => exact silent _ (holds (.error e) s (.inr ⟨e, rfl, rfl⟩))
  | release key k =>
      have next := holds _ rfl
      obtain ⟨_, content, held⟩ := next.sound_now sound
      refine ⟨fun _ _ _ impossible => (by cases impossible), ?_, _, next, rfl, ?_⟩
      · show s.key.map Prod.fst = some key
        rw [held]
        rfl
      · intro key' content' impossible
        cases impossible
  | yield item value k => exact silent _ (holds (.ok value) s rfl)
  | yieldFailed item e k => exact silent _ (holds (.error e) s rfl)

/-! ## Pools -/

/-- Every thread is sound, and knows what it holds. -/
structure HeldPool (changes : Nat → Change R) (p : Pool Y T R) : Prop where
  threads : ∀ i thread, p.threads[i]? = some thread → ∃ s : Held R,
    (∀ key, p.locks key = .held i ↔ s.key.map Prod.fst = some key) ∧
      (∀ key content, s.key = some (key, content) → p.world.read key = content) ∧
        thread.prog.Wp (heldEnv (changes i)) (fun s _ => s.Idle) s
  permanent : p.world.Permanent

def Prog.ended : Prog Y T R A → Bool
  | .ret _ => true
  | _ => false

/-- The thread has come to its end. -/
def Pool.Ended (p : Pool Y T R) (i : Nat) : Prop :=
  ∃ thread result, p.threads[i]? = some thread ∧ thread.prog = .ret result

section
variable {changes : Nat → Change R} {p p' : Pool Y T R}

theorem Pool.TurnOf.not_ended {i : Nat} {thread : Thread Y T R} {event : Option (Event R)}
    {failed : Bool} {prog : Prog Y T R Unit} (turn : p.TurnOf p' i thread event failed prog) :
    ¬ p.Ended i := by
  rintro ⟨other, result, running, ended⟩
  obtain rfl := Option.some.inj (running.symm.trans turn.running)
  have moved := turn.turn
  rw [ended] at moved
  cases moved

theorem Pool.TurnOf.read_kept {i : Nat} {thread : Thread Y T R} {event : Option (Event R)}
    {failed : Bool} {prog : Prog Y T R Unit} (turn : p.TurnOf p' i thread event failed prog)
    {key : String} (untouched : ∀ value ttl, event ≠ some (.stored key value ttl)) :
    p'.world.read key = p.world.read key := by
  rw [turn.world]
  rcases event with _ | (⟨other, value, ttl⟩ | _ | _ | _)
  · rfl
  · have apart : key ≠ other := fun same => untouched value ttl (by rw [same])
    show (p.world.write other value ttl).read key = _
    rw [World.read_eq, World.read_eq, p.world.store_write_of_ne value ttl apart, World.write_clock]
  · rfl
  · rfl
  · rfl

theorem Pool.Ended.suffer {i : Nat} (ended : p.Ended i) {action : FaultyAction T}
    (suffered : p.suffer action = some p') : p'.Ended i := by
  obtain ⟨j, thread, event, failed, prog, turn, _, _⟩ | ⟨key, _, _, rfl⟩ | ⟨t, _, _, rfl⟩ :=
    Pool.suffer_cases suffered
  · have apart : j ≠ i := fun same => turn.not_ended (same ▸ ended)
    obtain ⟨other, result, running, returned⟩ := ended
    refine ⟨other, result, ?_, returned⟩
    rw [turn.threads, List.getElem?_set_ne apart]
    exact running
  · exact ended
  · exact ended

/-- A thread goes on: the others know what they knew, and what it has written was permitted. -/
theorem HeldPool.turn (pool : HeldPool changes p) {i : Nat} {thread : Thread Y T R}
    {event : Option (Event R)} {failed : Bool} {prog : Prog Y T R Unit}
    (turn : p.TurnOf p' i thread event failed prog) :
    HeldPool changes p' ∧ ∀ key, p'.world.read key = p.world.read key ∨
      ∃ value, p'.world.read key = some value ∧ changes i key (p.world.read key) value := by
  have bound : i < p.threads.length := (List.getElem?_eq_some_iff.mp turn.running).1
  obtain ⟨s, holds, known, sound⟩ := pool.threads i thread turn.running
  obtain ⟨writes, allowed, s', next, after, knownAfter⟩ :=
    sound.held_turn (fun _ _ idle => idle.1) turn.turn turn.reads known
  refine ⟨⟨fun j other found => ?_, ?_⟩, fun key => ?_⟩
  · rw [turn.threads] at found
    by_cases same : j = i
    · subst same
      rw [List.getElem?_set_self bound] at found
      obtain rfl := Option.some.inj found
      refine ⟨s', fun key => ?_, ?_, next⟩
      · rw [turn.locks, after]
        exact locksAfter_self holds allowed key
      · rw [turn.world]
        exact knownAfter
    · rw [List.getElem?_set_ne (Ne.symm same)] at found
      obtain ⟨s₁, holds₁, known₁, sound₁⟩ := pool.threads j other found
      refine ⟨s₁, fun key => ?_, fun key content held => ?_, sound₁⟩
      · rw [turn.locks]
        exact (locksAfter_other same holds allowed turn.free key).trans (holds₁ key)
      · rw [turn.read_kept fun value ttl stored => ?_]
        · exact known₁ key content held
        · obtain ⟨_, content', mine, _⟩ := writes key value ttl stored
          have heldHere := (holds key).mpr (by rw [mine]; rfl)
          have heldThere := (holds₁ key).mpr (by rw [held]; rfl)
          exact same (SharedCells.Lock.held.inj (heldThere.symm.trans heldHere))
  · rw [turn.world]
    rcases event with _ | (⟨other, value, ttl⟩ | _ | _ | _)
    · exact pool.permanent
    · obtain ⟨rfl, _⟩ := writes other value ttl rfl
      exact pool.permanent.write other value
    · exact pool.permanent
    · exact pool.permanent
    · exact pool.permanent
  · by_cases stored : ∃ value ttl, event = some (.stored key value ttl)
    · obtain ⟨value, ttl, rfl⟩ := stored
      obtain ⟨rfl, content, held, permitted⟩ := writes key value ttl rfl
      refine .inr ⟨value, ?_, ?_⟩
      · rw [turn.world]
        show (p.world.write key value none).read key = _
        rw [World.read_write_none, if_pos rfl]
      · rwa [known key content held]
    · exact .inl (turn.read_kept fun value ttl same => stored ⟨value, ttl, same⟩)

theorem HeldPool.suffer (pool : HeldPool changes p) {action : FaultyAction T}
    (suffered : p.suffer action = some p') : HeldPool changes p' ∧
      ∀ key, p'.world.read key = p.world.read key ∨ ∃ i value, ¬ p.Ended i ∧
        p'.world.read key = some value ∧ changes i key (p.world.read key) value := by
  obtain ⟨i, thread, event, failed, prog, turn, _, _⟩ | ⟨key, _, releasing, rfl⟩ | ⟨t, _, _, rfl⟩ :=
    Pool.suffer_cases suffered
  · obtain ⟨next, written⟩ := pool.turn turn
    refine ⟨next, fun key => (written key).imp_right ?_⟩
    rintro ⟨value, read, permitted⟩
    exact ⟨i, value, turn.not_ended, read, permitted⟩
  · refine ⟨⟨fun i thread running => ?_, pool.permanent⟩, fun _ => .inl rfl⟩
    obtain ⟨s, holds, known, sound⟩ := pool.threads i thread running
    refine ⟨s, fun other => ?_, known, sound⟩
    rw [← holds other]
    show Function.update p.locks key .free other = .held i ↔ _
    by_cases here : other = key
    · simp [here, releasing]
    · rw [Function.update_of_ne here]
  · have same : ∀ key, World.read { p.world with clock := t } key = p.world.read key := fun key =>
      readAt_of_permanent p.world pool.permanent t p.world.clock key
    refine ⟨⟨fun i thread running => ?_, pool.permanent⟩, fun key => .inl (same key)⟩
    obtain ⟨s, holds, known, sound⟩ := pool.threads i thread running
    exact ⟨s, holds, fun key content held => (same key).trans (known key content held), sound⟩

/-- What the threads that go on cannot change about a content stays as it is. -/
theorem HeldPool.settled {X : Type} (key : String) (observe : Option R → X) :
    ∀ (schedule : List (FaultyAction T)) (p p' : Pool Y T R), HeldPool changes p →
      (∀ i, ¬ p.Ended i → ∀ old new, changes i key old new → observe (some new) = observe old) →
      Progress.exec Pool.suffer p schedule = some p' →
        HeldPool changes p' ∧ observe (p'.world.read key) = observe (p.world.read key) := by
  intro schedule
  induction schedule with
  | nil =>
      intro p p' pool _ ran
      obtain rfl := Option.some.inj ran
      exact ⟨pool, rfl⟩
  | cons action rest ih =>
      intro p p' pool spared ran
      obtain ⟨next, suffered, ran⟩ := Option.bind_eq_some_iff.mp ran
      obtain ⟨poolNext, written⟩ := pool.suffer suffered
      obtain ⟨last, same⟩ := ih next p' poolNext
        (fun i going => spared i fun ended => going (ended.suffer suffered)) ran
      refine ⟨last, same.trans ?_⟩
      rcases written key with unchanged | ⟨i, value, going, read, permitted⟩
      · rw [unchanged]
      · rw [read]
        exact spared i going _ _ permitted

end

end TreeKeyCache
