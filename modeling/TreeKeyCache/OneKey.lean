import TreeKeyCache.Faults
import Mathlib.Data.Set.Finite.Basic

/-! # One semaphore at a time

The writers take one semaphore and give it back before they take the next one, whatever
fails.  A program whose semaphore events are paired in every run does so at every moment, and
in a pool of such programs every semaphore that is not free is held by a thread that holds
no other, or is being released. -/
set_option autoImplicit false
namespace TreeKeyCache

open Prog SharedCells

variable {Y T R A B : Type}

namespace Prog

/-- The program holds the semaphore of `held` now, acquires one only when it holds none, and
holds none at its end; if operations of it may fail, also when some do. -/
def OneKey (mayFail : Prop) : Prog Y T R A → Option String → Prop
  | ret _, held => held = none
  | dateNow k, held => ∀ t, (k t).OneKey mayFail held
  | get _ k, held => (∀ content, (k (.ok content)).OneKey mayFail held) ∧
      (mayFail → ∀ e, (k (.error e)).OneKey mayFail held)
  | set _ _ _ k, held => (k (.ok ())).OneKey mayFail held ∧
      (mayFail → ∀ e, (k (.error e)).OneKey mayFail held)
  | getCurrentTtl _ k, held => (∀ ttl, (k (.ok ttl)).OneKey mayFail held) ∧
      (mayFail → ∀ e, (k (.error e)).OneKey mayFail held)
  | registerChild _ _ k, held => (k (.ok ())).OneKey mayFail held ∧
      (mayFail → ∀ e, (k (.error e)).OneKey mayFail held)
  | acquire key k, held => held = none ∧ (k (.ok ())).OneKey mayFail (some key) ∧
      (mayFail → ∀ e, (k (.error e)).OneKey mayFail none)
  | release key k, held => held = some key ∧ k.OneKey mayFail none
  | yield _ k, held => (∀ value, (k (.ok value)).OneKey mayFail held) ∧
      (mayFail → ∀ e, (k (.error e)).OneKey mayFail held)

theorem OneKey.mapItem {Y' : Type} (f : Y → Y') {mayFail : Prop} {p : Prog Y T R A}
    {held : Option String} (oneKey : p.OneKey mayFail held) : (p.mapItem f).OneKey mayFail held := by
  induction p generalizing held with
  | ret result => exact oneKey
  | dateNow k ih => exact fun t => ih t (oneKey t)
  | get key k ih =>
      exact ⟨fun content => ih _ (oneKey.1 content), fun may e => ih _ (oneKey.2 may e)⟩
  | set key value ttl k ih => exact ⟨ih _ oneKey.1, fun may e => ih _ (oneKey.2 may e)⟩
  | getCurrentTtl key k ih =>
      exact ⟨fun ttl => ih _ (oneKey.1 ttl), fun may e => ih _ (oneKey.2 may e)⟩
  | registerChild parent child k ih =>
      exact ⟨ih _ oneKey.1, fun may e => ih _ (oneKey.2 may e)⟩
  | acquire key k ih => exact ⟨oneKey.1, ih _ oneKey.2.1, fun may e => ih _ (oneKey.2.2 may e)⟩
  | release key k ih => exact ⟨oneKey.1, ih oneKey.2⟩
  | yield item k ih => exact ⟨fun value => ih _ (oneKey.1 value), fun may e => ih _ (oneKey.2 may e)⟩

end Prog

/-! ## From paired events to one semaphore at a time -/

theorem Paired.cancel {before rest : List LockEvent} (paired : Paired before)
    (whole : Paired (before ++ rest)) : Paired rest := by
  induction paired with
  | nil => exact whole
  | «section» key _ ih =>
      cases whole with
      | «section» _ tail => exact ih tail

/-- After these events of a tidy program it holds the semaphore of `held`. -/
def Owns (locks : List LockEvent) : Option String → Prop
  | none => Paired locks
  | some key => ∃ before, Paired before ∧ locks = before ++ [.acquired key]

theorem Owns.eq_none {locks : List LockEvent} {held : Option String} (owns : Owns locks held)
    (paired : Paired locks) : held = none := by
  cases held with
  | none => rfl
  | some key =>
      obtain ⟨before, earlier, rfl⟩ := owns
      exact absurd (earlier.cancel paired) (not_paired_acquired key)

/-- Nothing but an acquire is possible without a semaphore, and nothing but its release with one. -/
theorem Owns.acquire {locks rest : List LockEvent} {held : Option String} {key : String}
    (owns : Owns locks held) (paired : Paired (locks ++ .acquired key :: rest)) : held = none := by
  cases held with
  | none => rfl
  | some other =>
      obtain ⟨before, earlier, rfl⟩ := owns
      rw [List.append_assoc] at paired
      cases earlier.cancel paired

theorem Owns.release {locks rest : List LockEvent} {held : Option String} {key : String}
    (owns : Owns locks held) (paired : Paired (locks ++ .released key :: rest)) :
    held = some key := by
  cases held with
  | none => cases owns.cancel paired
  | some other =>
      obtain ⟨before, earlier, rfl⟩ := owns
      rw [List.append_assoc] at paired
      cases earlier.cancel paired
      rfl

theorem Owns.heard {log : LockLog} {held : Option String} (owns : Owns log.locks held)
    (operation : Rejected) (answer : Except Err A) :
    Owns (log.heard operation answer).locks held := by
  rw [heard_locks]
  exact owns

namespace Prog

theorem Wp.paired_end {p : Prog Y T R A} {log : LockLog} (tidy : p.Wp anyAnswer Tidy log) :
    ∃ rest, Paired (log.locks ++ rest) := by
  induction p generalizing log with
  | ret result => exact ⟨[], by rw [List.append_nil]; exact tidy⟩
  | dateNow k ih => exact ih 0 (tidy 0 log rfl)
  | get key k ih => exact ih (.ok none) (tidy (.ok none) log rfl)
  | set key value ttl k ih => exact ih (.ok ()) (tidy (.ok ()) log rfl)
  | getCurrentTtl key k ih => exact ih (.ok none) (tidy (.ok none) log rfl)
  | registerChild parent child k ih => exact ih (.ok ()) (tidy (.ok ()) log rfl)
  | acquire key k ih =>
      obtain ⟨rest, paired⟩ := ih (.ok ()) (tidy (.ok ()) _ rfl)
      rw [LockLog.lock, List.append_assoc] at paired
      exact ⟨_, paired⟩
  | release key k ih =>
      obtain ⟨rest, paired⟩ := ih (tidy _ rfl)
      rw [LockLog.lock, List.append_assoc] at paired
      exact ⟨_, paired⟩
  | yield item k ih => exact ih (.ok none) (tidy (.ok none) log rfl)

theorem Wp.oneKey {p : Prog Y T R A} {log : LockLog} {held : Option String}
    (tidy : p.Wp anyAnswer Tidy log) (owns : Owns log.locks held) : p.OneKey True held := by
  induction p generalizing log held with
  | ret result => exact owns.eq_none tidy
  | dateNow k ih => exact fun t => ih t (tidy t log rfl) owns
  | get key k ih =>
      have rest : ∀ answer, (k answer).OneKey True held := fun answer =>
        ih answer (tidy answer _ rfl) (owns.heard _ answer)
      exact ⟨fun content => rest _, fun _ e => rest _⟩
  | set key value ttl k ih =>
      have rest : ∀ answer, (k answer).OneKey True held := fun answer =>
        ih answer (tidy answer _ rfl) (owns.heard _ answer)
      exact ⟨rest _, fun _ e => rest _⟩
  | getCurrentTtl key k ih =>
      have rest : ∀ answer, (k answer).OneKey True held := fun answer =>
        ih answer (tidy answer _ rfl) (owns.heard _ answer)
      exact ⟨fun ttl => rest _, fun _ e => rest _⟩
  | registerChild parent child k ih =>
      have rest : ∀ answer, (k answer).OneKey True held := fun answer =>
        ih answer (tidy answer _ rfl) (owns.heard _ answer)
      exact ⟨rest _, fun _ e => rest _⟩
  | acquire key k ih =>
      have acquired := tidy (.ok ()) _ rfl
      obtain ⟨rest, paired⟩ := acquired.paired_end
      rw [LockLog.lock, List.append_assoc] at paired
      obtain rfl := owns.acquire paired
      exact ⟨rfl, ih _ acquired ⟨log.locks, owns, rfl⟩,
        fun _ e => ih _ (tidy (.error e) _ rfl) (owns.heard (A := Unit) .acquire (.error e))⟩
  | release key k ih =>
      have released := tidy _ rfl
      obtain ⟨rest, paired⟩ := released.paired_end
      rw [LockLog.lock, List.append_assoc] at paired
      obtain rfl := owns.release paired
      obtain ⟨before, earlier, same⟩ := owns
      refine ⟨rfl, ih released ?_⟩
      rw [LockLog.lock, same, List.append_assoc]
      exact earlier.append (paired_single key)
  | yield item k ih =>
      have rest : ∀ answer, (k answer).OneKey True held := fun answer =>
        ih answer (tidy answer _ rfl) owns
      exact ⟨fun value => rest _, fun _ e => rest _⟩

theorem Wp.oneKey_start {p : Prog Y T R A} (tidy : p.Wp anyAnswer Tidy .start) : p.OneKey True none :=
  tidy.oneKey (show Owns [] none from Paired.nil)

theorem OneKey.of_true {mayFail : Prop} {p : Prog Y T R A} {held : Option String}
    (oneKey : p.OneKey True held) : p.OneKey mayFail held := by
  induction p generalizing held with
  | ret result => exact oneKey
  | dateNow k ih => exact fun t => ih t (oneKey t)
  | get key k ih =>
      exact ⟨fun content => ih _ (oneKey.1 content), fun _ e => ih _ (oneKey.2 trivial e)⟩
  | set key value ttl k ih => exact ⟨ih _ oneKey.1, fun _ e => ih _ (oneKey.2 trivial e)⟩
  | getCurrentTtl key k ih =>
      exact ⟨fun ttl => ih _ (oneKey.1 ttl), fun _ e => ih _ (oneKey.2 trivial e)⟩
  | registerChild parent child k ih =>
      exact ⟨ih _ oneKey.1, fun _ e => ih _ (oneKey.2 trivial e)⟩
  | acquire key k ih => exact ⟨oneKey.1, ih _ oneKey.2.1, fun _ e => ih _ (oneKey.2.2 trivial e)⟩
  | release key k ih => exact ⟨oneKey.1, ih oneKey.2⟩
  | yield item k ih => exact ⟨fun value => ih _ (oneKey.1 value), fun _ e => ih _ (oneKey.2 trivial e)⟩

end Prog

/-! ## The writers -/

section
variable [SerializedForm R]

theorem WritingProgram.oneKey {o : Options T R} {p : Prog (AnyItem T R) T R Unit}
    (writing : WritingProgram o p) : p.OneKey True none := by
  cases writing with
  | deepTreeSet path createValue ttl previousKeys minLevelSemaphore =>
      exact (deepTreeSet_tidy o path createValue ttl minLevelSemaphore previousKeys
        .nil).oneKey_start.mapItem _
  | setNode path value ttl =>
      exact (setNode_tidy o path ttl value .nil).oneKey_start.mapItem _
  | fullTreeSet tree createValue minLevelSemaphore ttl =>
      exact (fullTreeSet_tidy o ttl minLevelSemaphore createValue tree .nil).oneKey_start.mapItem _

omit [SerializedForm R] in
/-- A writer of `prune` gives its semaphore back if no operation of it fails. -/
theorem pruneWrite_oneKey (o : Options T R) (key : String) (tree : Tree R) {r : R}
    (serializes : o.treeSerializer.serialize tree = .ok r) :
    (pruneWrite o key tree : Prog Y T R Unit).OneKey False none := by
  have stored : ∀ ttl : Option ℚ, (Prog.ret (o.treeSerializer.serialize tree) >>= fun serialized =>
      Prog.storageSet key serialized ttl >>= fun _ => Prog.dontWait key :
        Prog Y T R Unit).OneKey False (some key) := by
    intro ttl
    rw [serializes]
    exact ⟨⟨rfl, rfl⟩, fun impossible => impossible.elim⟩
  unfold pruneWrite
  refine ⟨rfl, ⟨fun ttl => ?_, fun impossible => impossible.elim⟩, fun impossible => impossible.elim⟩
  change (persistTree o key ttl tree >>= fun _ => Prog.dontWait key).OneKey _ _
  rw [persistTree]
  split
  · simp only [Prog.bind_assoc]
    exact ⟨fun current => stored _, fun impossible => impossible.elim⟩
  · simp only [Prog.bind_assoc]
    exact stored none

end

/-! ## Pools -/

/-- The semaphore held after an event. -/
def heldAfter (held : Option String) : Option (Event R) → Option String
  | some (.acquired key) => some key
  | some (.released _) => none
  | _ => held

/-- A semaphore is acquired with none held, and the one that is released is held. -/
def HeldAllows (held : Option String) : Option (Event R) → Prop
  | some (.acquired _) => held = none
  | some (.released key) => held = some key
  | _ => True

theorem Prog.OneKey.turn {mayFail : Prop} {p p' : Prog Y T R A} {held : Option String}
    {event : Option (Event R)} {failed : Bool} (oneKey : p.OneKey mayFail held)
    (turn : p.Turn event failed p') (may : failed = true → mayFail) :
    HeldAllows held event ∧ p'.OneKey mayFail (heldAfter held event) := by
  cases turn with
  | dateNow t k => exact ⟨trivial, oneKey t⟩
  | get key content k => exact ⟨trivial, oneKey.1 content⟩
  | getFailed key e k => exact ⟨trivial, oneKey.2 (may rfl) e⟩
  | set key value ttl k => exact ⟨trivial, oneKey.1⟩
  | setFailed key value ttl e effective k =>
      cases effective with
      | false => exact ⟨trivial, oneKey.2 (may rfl) e⟩
      | true => exact ⟨trivial, oneKey.2 (may rfl) e⟩
  | getCurrentTtl key ttl k => exact ⟨trivial, oneKey.1 ttl⟩
  | getCurrentTtlFailed key e k => exact ⟨trivial, oneKey.2 (may rfl) e⟩
  | registerChild parent child k => exact ⟨trivial, oneKey.1⟩
  | registerChildFailed parent child e effective k =>
      cases effective with
      | false => exact ⟨trivial, oneKey.2 (may rfl) e⟩
      | true => exact ⟨trivial, oneKey.2 (may rfl) e⟩
  | acquire key k => exact ⟨oneKey.1, oneKey.2.1⟩
  | acquireFailed key e k =>
      obtain ⟨rfl, rest⟩ := oneKey
      exact ⟨trivial, rest.2 (may rfl) e⟩
  | release key k => exact ⟨oneKey.1, oneKey.2⟩
  | yield item value k => exact ⟨trivial, oneKey.1 value⟩
  | yieldFailed item e k => exact ⟨trivial, oneKey.2 (may rfl) e⟩

/-- The keys whose releases are scheduled. -/
def Pool.pending (p : Pool Y T R) : Set String := {key | p.locks key = .releasing}

/-- Every thread holds the semaphore of one key at most; those for which `mayFail` does not hold
do so as long as no operation of theirs is rejected. -/
structure OneKeyPool (mayFail : Nat → Prop) (p : Pool Y T R) : Prop where
  threads : ∀ i thread, p.threads[i]? = some thread → ∃ held : Option String,
    (∀ key, p.locks key = .held i ↔ held = some key) ∧ thread.prog.OneKey (mayFail i) held
  beyond : ∀ i key, p.threads.length ≤ i → p.locks key ≠ .held i
  pending : p.pending.Finite

section
variable {mayFail : Nat → Prop} {p p' : Pool Y T R}

theorem locksAfter_self {i : Nat} {locks : String → Lock Nat} {held : Option String}
    {event : Option (Event R)} (holds : ∀ key, locks key = .held i ↔ held = some key)
    (allowed : HeldAllows held event) (key : String) :
    locksAfter i locks event key = .held i ↔ heldAfter held event = some key := by
  rcases event with _ | (_ | _ | other | other)
  · exact holds key
  · exact holds key
  · exact holds key
  · obtain rfl : held = none := allowed
    change Function.update locks other (.held i) key = .held i ↔ some other = some key
    by_cases same : key = other
    · rw [same, Function.update_self, eq_self, eq_self]
    · rw [Function.update_of_ne same, holds key, Option.some_inj, eq_comm (a := other)]
      simp [same]
  · obtain rfl : held = some other := allowed
    change Function.update locks other .releasing key = .held i ↔ none = some key
    by_cases same : key = other
    · simp [same]
    · rw [Function.update_of_ne same, holds key]
      simp [Ne.symm same]

theorem locksAfter_other {i j : Nat} {locks : String → Lock Nat} {held : Option String}
    {event : Option (Event R)} (apart : j ≠ i) (holds : ∀ key, locks key = .held i ↔ held = some key)
    (allowed : HeldAllows held event) (free : AcquiresFree locks event) (key : String) :
    locksAfter i locks event key = .held j ↔ locks key = .held j := by
  have changed : ∀ (other : String) (now : Lock Nat), now ≠ .held j → locks other ≠ .held j →
      (Function.update locks other now key = .held j ↔ locks key = .held j) := by
    intro other now after before
    by_cases same : key = other
    · subst same
      rw [Function.update_self]
      exact ⟨fun mine => absurd mine after, fun mine => absurd mine before⟩
    · rw [Function.update_of_ne same]
  rcases event with _ | (_ | _ | other | other)
  · exact Iff.rfl
  · exact Iff.rfl
  · exact Iff.rfl
  · have was : locks other = .free := free
    exact changed other _ (by simp [apart.symm]) (by simp [was])
  · have was : locks other = .held i := (holds other).mpr allowed
    exact changed other _ (by simp) (by simp [was, apart.symm])

theorem pending_locksAfter {i : Nat} {locks : String → Lock Nat} {event : Option (Event R)}
    (free : AcquiresFree locks event) :
    {key | locksAfter i locks event key = .releasing} =
      {key | locks key = .releasing} ∪ {key | event = some (.released key)} := by
  ext key
  change locksAfter i locks event key = .releasing ↔
    locks key = .releasing ∨ event = some (.released key)
  rcases event with _ | (_ | _ | other | other)
  · simp [locksAfter]
  · simp [locksAfter, Event.locks]
  · simp [locksAfter, Event.locks]
  · have was : locks other = .free := free
    change Function.update locks other (.held i) key = .releasing ↔ _
    by_cases same : key = other
    · simp [same, was]
    · simp [Function.update_of_ne same]
  · change Function.update locks other .releasing key = .releasing ↔ _
    by_cases same : key = other
    · simp [same]
    · simp [Function.update_of_ne same, Ne.symm same]

theorem OneKeyPool.released (oneKeys : OneKeyPool mayFail p) {i : Nat} {thread : Thread Y T R}
    {key : String} {failed : Bool} {prog : Prog Y T R Unit}
    (turn : p.TurnOf p' i thread (some (.released key)) failed prog) (may : failed = true → mayFail i) :
    p.locks key = .held i := by
  obtain ⟨held, holds, oneKey⟩ := oneKeys.threads i thread turn.running
  exact (holds key).mpr (oneKey.turn turn.turn may).1

theorem OneKeyPool.turn (oneKeys : OneKeyPool mayFail p) {i : Nat} {thread : Thread Y T R}
    {event : Option (Event R)} {failed : Bool} {prog : Prog Y T R Unit}
    (turn : p.TurnOf p' i thread event failed prog) (may : failed = true → mayFail i) :
    OneKeyPool mayFail p' := by
  have bound : i < p.threads.length := (List.getElem?_eq_some_iff.mp turn.running).1
  obtain ⟨held, holds, oneKey⟩ := oneKeys.threads i thread turn.running
  obtain ⟨allowed, next⟩ := oneKey.turn turn.turn may
  have others : ∀ j, j ≠ i → ∀ key, p'.locks key = .held j ↔ p.locks key = .held j := by
    intro j apart key
    rw [turn.locks]
    exact locksAfter_other apart holds allowed turn.free key
  refine ⟨fun j other found => ?_, fun j key past => ?_, ?_⟩
  · rw [turn.threads] at found
    by_cases same : j = i
    · subst same
      rw [List.getElem?_set_self bound] at found
      obtain rfl := Option.some.inj found
      refine ⟨heldAfter held event, fun key => ?_, next⟩
      rw [turn.locks]
      exact locksAfter_self holds allowed key
    · rw [List.getElem?_set_ne (Ne.symm same)] at found
      obtain ⟨held', holds', oneKey'⟩ := oneKeys.threads j other found
      exact ⟨held', fun key => (others j same key).trans (holds' key), oneKey'⟩
  · rw [turn.threads, List.length_set] at past
    have apart : j ≠ i := by omega
    exact fun mine => oneKeys.beyond j key past ((others j apart key).mp mine)
  · have finite : {key | event = some (.released key)}.Finite := by
      refine Set.Subsingleton.finite fun a here b there => ?_
      exact Event.released.inj (Option.some.inj (here.symm.trans there))
    rw [Pool.pending, turn.locks, pending_locksAfter turn.free]
    exact oneKeys.pending.union finite

theorem OneKeyPool.suffer (oneKeys : OneKeyPool mayFail p) (action : FaultyAction T)
    (may : ∀ i, action.rejects = some i → mayFail i) (suffered : p.suffer action = some p') :
    OneKeyPool mayFail p' := by
  obtain ⟨i, thread, event, failed, prog, turn, _, rejected⟩ | ⟨key, _, releasing, rfl⟩ |
    ⟨t, _, later, rfl⟩ := Pool.suffer_cases suffered
  · exact oneKeys.turn turn fun isFailed => may i (rejected isFailed)
  · have same : ∀ other i, Function.update p.locks key .free other = .held i ↔
        p.locks other = .held i := by
      intro other i
      by_cases here : other = key
      · simp [here, releasing]
      · rw [Function.update_of_ne here]
    refine ⟨fun i thread running => ?_, fun i other past => ?_, ?_⟩
    · obtain ⟨held, holds, oneKey⟩ := oneKeys.threads i thread running
      exact ⟨held, fun other => (same other i).trans (holds other), oneKey⟩
    · exact fun mine => oneKeys.beyond i other past ((same other i).mp mine)
    · refine oneKeys.pending.subset fun other freed => ?_
      change Function.update p.locks key .free other = .releasing at freed
      by_cases here : other = key
      · exact here ▸ releasing
      · rwa [Function.update_of_ne here] at freed
  · exact ⟨oneKeys.threads, oneKeys.beyond, oneKeys.pending⟩

theorem OneKeyPool.join (oneKeys : OneKeyPool mayFail p) (thread : Thread Y T R)
    (oneKey : thread.prog.OneKey (mayFail p.threads.length) none) :
    OneKeyPool mayFail { p with threads := p.threads ++ [thread] } := by
  refine ⟨fun i other running => ?_, fun i key past => ?_, oneKeys.pending⟩
  · simp only at running
    by_cases old : i < p.threads.length
    · rw [List.getElem?_append_left old] at running
      exact oneKeys.threads i other running
    · have new : i = p.threads.length := by
        have bound := (List.getElem?_eq_some_iff.mp running).1
        rw [List.length_append, List.length_singleton] at bound
        omega
      subst new
      rw [List.getElem?_append_right (le_refl _), Nat.sub_self] at running
      obtain rfl := Option.some.inj running
      refine ⟨none, fun key => ?_, oneKey⟩
      have others : p.locks key ≠ .held p.threads.length := oneKeys.beyond _ key (le_refl _)
      simp [others]
  · refine oneKeys.beyond i key ?_
    rw [List.length_append, List.length_singleton] at past
    omega

theorem oneKeyPool_start (w : World R) (threads : List (Thread Y T R))
    (oneKey : ∀ i (thread : Thread Y T R), threads[i]? = some thread →
      thread.prog.OneKey (mayFail i) none) : OneKeyPool mayFail (Pool.start w threads) := by
  refine ⟨fun i thread running => ⟨none, fun key => ?_, oneKey i thread running⟩, fun i key _ => ?_, ?_⟩
  · simp [Pool.start]
  · simp [Pool.start]
  · have none : (Pool.start w threads).pending = ∅ := by
      ext key
      simp [Pool.pending, Pool.start]
    rw [none]
    exact Set.finite_empty

end

end TreeKeyCache
