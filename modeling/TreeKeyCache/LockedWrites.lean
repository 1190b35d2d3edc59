import TreeKeyCache.Pool
import TreeKeyCache.Monitors

/-! # Writes under a lock

A thread that holds the semaphore of a key knows the entry of the key: nobody else writes
it, and all that changes is the clock.  `Guarded` is the weakest precondition of "every
write is made under the semaphore of its key, and is the kind of write that was promised",
in terms of what the thread knows.  In a pool of guarded threads every write finds the
entry its thread knows of. -/
set_option autoImplicit false
namespace TreeKeyCache

variable {Y T R A B : Type}

/-! ## What an entry answers -/

/-- What `storage.get` answers for an entry. -/
def entryRead (entry : Option (Entry R)) (t : ℚ) : Option R :=
  match entry with
  | none => none
  | some entry => if entry.liveAt t then some entry.content else none

/-- What `storage.getCurrentTtl` answers for an entry. -/
def entryTtl (entry : Option (Entry R)) (t : ℚ) : Option ℚ :=
  match entry with
  | none => none
  | some entry => if entry.liveAt t then entry.expiry.map fun e => (e - t) / 1000 else none

theorem World.readAt_eq (w : World R) (t : ℚ) (key : String) :
    w.readAt t key = entryRead (w.store key) t := rfl

theorem World.read_eq (w : World R) (key : String) : w.read key = entryRead (w.store key) w.clock :=
  rfl

theorem World.currentTtl_eq (w : World R) (key : String) :
    w.currentTtl key = entryTtl (w.store key) w.clock := rfl

/-- The entry written at time `t`. -/
def writtenEntry (t : ℚ) (value : R) (ttl : Option ℚ) : Entry R :=
  ⟨value, ttl.map fun s => t + s * 1000⟩

theorem World.store_write_self (w : World R) (key : String) (value : R) (ttl : Option ℚ) :
    (w.write key value ttl).store key = some (writtenEntry w.clock value ttl) := Function.update_self ..

theorem World.store_write_of_ne (w : World R) {key other : String} (value : R) (ttl : Option ℚ)
    (different : other ≠ key) : (w.write key value ttl).store other = w.store other :=
  Function.update_of_ne different ..

/-! ## Results -/

namespace Prog

/-- Whatever the environment answers, a result satisfies `P`. -/
def Returns (P : A → Prop) : Prog Y T R A → Prop
  | ret result => ∀ a, result = .ok a → P a
  | dateNow k => ∀ t, (k t).Returns P
  | get _ k => ∀ answer, (k answer).Returns P
  | set _ _ _ k => ∀ answer, (k answer).Returns P
  | getCurrentTtl _ k => ∀ answer, (k answer).Returns P
  | registerChild _ _ k => ∀ answer, (k answer).Returns P
  | acquire _ k => ∀ answer, (k answer).Returns P
  | release _ k => k.Returns P
  | yield _ k => ∀ answer, (k answer).Returns P

theorem Returns.bind {P : A → Prop} {Q : B → Prop} {p : Prog Y T R A} {f : A → Prog Y T R B}
    (first : p.Returns P) (second : ∀ a, P a → (f a).Returns Q) : (p >>= f).Returns Q := by
  induction p with
  | ret result =>
      cases result with
      | ok a => exact second a (first a rfl)
      | error e => exact fun b failed => (nomatch failed)
  | dateNow k ih => exact fun t => ih t (first t)
  | get key k ih => exact fun answer => ih answer (first answer)
  | set key value ttl k ih => exact fun answer => ih answer (first answer)
  | getCurrentTtl key k ih => exact fun answer => ih answer (first answer)
  | registerChild parent child k ih => exact fun answer => ih answer (first answer)
  | acquire key k ih => exact fun answer => ih answer (first answer)
  | release key k ih => exact ih first
  | yield item k ih => exact fun answer => ih answer (first answer)

theorem returns_any {p : Prog Y T R A} : p.Returns fun _ => True := by
  induction p with
  | ret result => exact fun _ _ => trivial
  | dateNow k ih => exact ih
  | get key k ih => exact ih
  | set key value ttl k ih => exact ih
  | getCurrentTtl key k ih => exact ih
  | registerChild parent child k ih => exact ih
  | acquire key k ih => exact ih
  | release key k ih => exact ih
  | yield item k ih => exact ih

end Prog

/-! ## Guarded programs -/

/-- The key whose semaphore the thread holds, with its entry, and a time that has been. -/
structure Knowledge (R : Type) where
  held : Option (String × Option (Entry R))
  since : ℚ

/-- A kind of write: to a key with an entry, at a time, of a value with a ttl. -/
abbrev Kind (R : Type) := String → Option (Entry R) → ℚ → R → Option ℚ → Prop

namespace Prog

variable (kind : Kind R) (consumer : Y → Option T)

def Guarded : Prog Y T R A → (Knowledge R → Except Err A → Prop) → Knowledge R → Prop
  | ret result, post, s => post s result
  | dateNow k, post, s => ∀ t, s.since ≤ t → (k t).Guarded post ⟨s.held, t⟩
  | get key k, post, s => ∀ t, s.since ≤ t → ∀ content,
      (∀ entry, s.held = some (key, entry) → content = entryRead entry t) →
        (k (.ok content)).Guarded post ⟨s.held, t⟩
  | set key value ttl k, post, s => ∃ entry, s.held = some (key, entry) ∧ ∀ t, s.since ≤ t →
      kind key entry t value ttl ∧
        (k (.ok ())).Guarded post ⟨some (key, some (writtenEntry t value ttl)), t⟩
  | getCurrentTtl key k, post, s => ∀ t, s.since ≤ t → ∀ ttl,
      (∀ entry, s.held = some (key, entry) → ttl = entryTtl entry t) →
        (k (.ok ttl)).Guarded post ⟨s.held, t⟩
  | registerChild _ _ k, post, s => (k (.ok ())).Guarded post s
  | acquire key k, post, s => s.held = none ∧ ∀ t, s.since ≤ t → ∀ entry,
      (k (.ok ())).Guarded post ⟨some (key, entry), t⟩
  | release key k, post, s => (∃ entry, s.held = some (key, entry)) ∧ k.Guarded post ⟨none, s.since⟩
  | yield item k, post, s => (k (.ok (consumer item))).Guarded post s

variable {kind} {consumer}

theorem Guarded.mono {p : Prog Y T R A} {post post' : Knowledge R → Except Err A → Prop}
    {s : Knowledge R} (weaker : ∀ s result, post s result → post' s result)
    (guarded : p.Guarded kind consumer post s) : p.Guarded kind consumer post' s := by
  induction p generalizing s with
  | ret result => exact weaker s result guarded
  | dateNow k ih => exact fun t later => ih t (guarded t later)
  | get key k ih => exact fun t later content known => ih _ (guarded t later content known)
  | set key value ttl k ih =>
      obtain ⟨entry, held, writes⟩ := guarded
      exact ⟨entry, held, fun t later => ⟨(writes t later).1, ih _ (writes t later).2⟩⟩
  | getCurrentTtl key k ih => exact fun t later ttl known => ih _ (guarded t later ttl known)
  | registerChild parent child k ih => exact ih _ guarded
  | acquire key k ih => exact ⟨guarded.1, fun t later entry => ih _ (guarded.2 t later entry)⟩
  | release key k ih => exact ⟨guarded.1, ih guarded.2⟩
  | yield item k ih => exact ih _ guarded

theorem Guarded.bind {p : Prog Y T R A} {f : A → Prog Y T R B}
    {post : Knowledge R → Except Err B → Prop} {s : Knowledge R}
    (guarded : p.Guarded kind consumer (fun s result => match result with
      | .ok a => (f a).Guarded kind consumer post s
      | .error e => post s (.error e)) s) : (p >>= f).Guarded kind consumer post s := by
  induction p generalizing s with
  | ret result =>
      cases result with
      | ok a => exact guarded
      | error e => exact guarded
  | dateNow k ih => exact fun t later => ih t (guarded t later)
  | get key k ih => exact fun t later content known => ih _ (guarded t later content known)
  | set key value ttl k ih =>
      obtain ⟨entry, held, writes⟩ := guarded
      exact ⟨entry, held, fun t later => ⟨(writes t later).1, ih _ (writes t later).2⟩⟩
  | getCurrentTtl key k ih => exact fun t later ttl known => ih _ (guarded t later ttl known)
  | registerChild parent child k ih => exact ih _ guarded
  | acquire key k ih => exact ⟨guarded.1, fun t later entry => ih _ (guarded.2 t later entry)⟩
  | release key k ih => exact ⟨guarded.1, ih guarded.2⟩
  | yield item k ih => exact ih _ guarded

theorem Guarded.tryFinally {p : Prog Y T R A} {last : Prog Y T R Unit}
    {post : Knowledge R → Except Err A → Prop} {s : Knowledge R}
    (guarded : p.Guarded kind consumer (fun s result =>
      (last >>= fun _ => ret result).Guarded kind consumer post s) s) :
    (p.tryFinally last).Guarded kind consumer post s := by
  induction p generalizing s with
  | ret result => exact guarded
  | dateNow k ih => exact fun t later => ih t (guarded t later)
  | get key k ih => exact fun t later content known => ih _ (guarded t later content known)
  | set key value ttl k ih =>
      obtain ⟨entry, held, writes⟩ := guarded
      exact ⟨entry, held, fun t later => ⟨(writes t later).1, ih _ (writes t later).2⟩⟩
  | getCurrentTtl key k ih => exact fun t later ttl known => ih _ (guarded t later ttl known)
  | registerChild parent child k ih => exact ih _ guarded
  | acquire key k ih => exact ⟨guarded.1, fun t later entry => ih _ (guarded.2 t later entry)⟩
  | release key k ih => exact ⟨guarded.1, ih guarded.2⟩
  | yield item k ih => exact ih _ guarded

theorem Guarded.bindWith {p : Prog Y T R A} {f : A → Prog Y T R B}
    {post : Knowledge R → Except Err B → Prop} {s : Knowledge R} (H : Knowledge R → Prop)
    (Q : A → Prop)
    (first : p.Guarded kind consumer (fun s result => H s ∧ ∀ a, result = .ok a → Q a) s)
    (failed : ∀ s e, H s → post s (.error e))
    (second : ∀ s a, H s → Q a → (f a).Guarded kind consumer post s) :
    (p >>= f).Guarded kind consumer post s := by
  apply Guarded.bind
  refine first.mono fun s result reached => ?_
  cases result with
  | ok a => exact second s a reached.1 (reached.2 a rfl)
  | error e => exact failed s e reached.1

/-- A program that changes nothing and returns `P` keeps what the thread knows. -/
theorem Quiet.guarded {P : A → Prop} {p : Prog Y T R A} (quiet : p.Quiet) (returns : p.Returns P)
    {s : Knowledge R} : p.Guarded kind consumer (fun s' result => s'.held = s.held ∧
      s.since ≤ s'.since ∧ ∀ a, result = .ok a → P a) s := by
  induction p generalizing s with
  | ret result => exact ⟨rfl, le_refl _, returns⟩
  | dateNow k ih =>
      intro t later
      refine (ih t (quiet t) (returns t)).mono fun s' result reached => ?_
      exact ⟨reached.1, later.trans reached.2.1, reached.2.2⟩
  | get key k ih =>
      intro t later content _
      refine (ih _ (quiet _) (returns _)).mono fun s' result reached => ?_
      exact ⟨reached.1, later.trans reached.2.1, reached.2.2⟩
  | getCurrentTtl key k ih =>
      intro t later ttl _
      refine (ih _ (quiet _) (returns _)).mono fun s' result reached => ?_
      exact ⟨reached.1, later.trans reached.2.1, reached.2.2⟩
  | yield item k ih => exact ih _ (quiet _) (returns _)
  | set key value ttl k ih => exact quiet.elim
  | registerChild parent child k ih => exact quiet.elim
  | acquire key k ih => exact quiet.elim
  | release key k ih => exact quiet.elim

theorem Quiet.guardedThen {P : A → Prop} {p : Prog Y T R A} {f : A → Prog Y T R B}
    {post : Knowledge R → Except Err B → Prop} {s : Knowledge R} (quiet : p.Quiet)
    (returns : p.Returns P) (failed : ∀ t e, s.since ≤ t → post ⟨s.held, t⟩ (.error e))
    (second : ∀ t a, s.since ≤ t → P a → (f a).Guarded kind consumer post ⟨s.held, t⟩) :
    (p >>= f).Guarded kind consumer post s := by
  refine Guarded.bindWith (fun s' => s'.held = s.held ∧ s.since ≤ s'.since) P
    ((quiet.guarded returns).mono fun s' result reached =>
      ⟨⟨reached.1, reached.2.1⟩, reached.2.2⟩) ?_ ?_
  · rintro ⟨held, since⟩ e ⟨rfl, later⟩
    exact failed since e later
  · rintro ⟨held, since⟩ a ⟨rfl, later⟩ holds
    exact second since a later holds

end Prog

/-! ## Pools of guarded threads -/

/-- What thread `i` knows is so. -/
structure Pool.Knows (p : Pool Y T R) (i : Nat) (s : Knowledge R) : Prop where
  since : s.since ≤ p.world.clock
  holds : ∀ key, p.locks key = .held i ↔ ∃ entry, s.held = some (key, entry)
  entry : ∀ key entry, s.held = some (key, entry) → p.world.store key = entry

/-- Every thread is guarded and gives its semaphore back. -/
structure GuardedPool (kinds : Nat → Kind R) (p : Pool Y T R) : Prop where
  threads : ∀ i thread, p.threads[i]? = some thread → ∃ s, p.Knows i s ∧
    thread.prog.Guarded (kinds i) thread.consumer (fun s _ => s.held = none) s
  beyond : ∀ i key, p.threads.length ≤ i → p.locks key ≠ .held i

section
variable {kinds : Nat → Kind R} {p p' : Pool Y T R}

theorem GuardedPool.kind (guarded : GuardedPool kinds p) {i : Nat} {thread : Thread Y T R}
    (running : p.threads[i]? = some thread) {key : String} {value : R} {ttl : Option ℚ}
    {k : Except Err Unit → Prog Y T R Unit} (writing : thread.prog = .set key value ttl k) :
    kinds i key (p.world.store key) p.world.clock value ttl := by
  obtain ⟨s, knows, safe⟩ := guarded.threads i thread running
  rw [writing] at safe
  obtain ⟨entry, held, writes⟩ := safe
  rw [knows.entry key entry held]
  exact (writes p.world.clock knows.since).1

/-- What the others know stays so when thread `i` touches nothing of theirs. -/
theorem GuardedPool.resume (guarded : GuardedPool kinds p) {i : Nat} {thread : Thread Y T R}
    (running : p.threads[i]? = some thread) (prog : Prog Y T R Unit) (s : Knowledge R)
    (threads : p'.threads = p.threads.set i { thread with prog := prog })
    (clock : p.world.clock ≤ p'.world.clock)
    (locks : ∀ key j, j ≠ i → (p'.locks key = .held j ↔ p.locks key = .held j))
    (store : ∀ key, p'.world.store key = p.world.store key ∨ p.locks key = .held i)
    (knows : p'.Knows i s)
    (safe : prog.Guarded (kinds i) thread.consumer (fun s _ => s.held = none) s) :
    GuardedPool kinds p' := by
  have bound : i < p.threads.length := (List.getElem?_eq_some_iff.mp running).1
  refine ⟨fun j other found => ?_, fun j key past => ?_⟩
  · rw [threads] at found
    by_cases same : j = i
    · subst same
      rw [List.getElem?_set_self bound] at found
      obtain rfl := Option.some.inj found
      exact ⟨s, knows, safe⟩
    · rw [List.getElem?_set_ne (Ne.symm same)] at found
      obtain ⟨s', knows', safe'⟩ := guarded.threads j other found
      refine ⟨s', ⟨knows'.since.trans clock, fun key => ?_, fun key entry held => ?_⟩, safe'⟩
      · rw [locks key j same]
        exact knows'.holds key
      · rcases store key with unchanged | mine
        · rw [unchanged]
          exact knows'.entry key entry held
        · have theirs := (knows'.holds key).mpr ⟨entry, held⟩
          rw [theirs] at mine
          exact absurd (SharedCells.Lock.held.inj mine) same
  · rw [threads, List.length_set] at past
    have other : j ≠ i := by omega
    rw [ne_eq, locks key j other]
    exact guarded.beyond j key past

theorem GuardedPool.quiet (guarded : GuardedPool kinds p) {i : Nat} {thread : Thread Y T R}
    (running : p.threads[i]? = some thread) (prog : Prog Y T R Unit) (world : World R)
    (sameStore : world.store = p.world.store) (sameClock : world.clock = p.world.clock)
    {held : Option (String × Option (Entry R))} {since : ℚ}
    (knows : p.Knows i ⟨held, since⟩) {since' : ℚ} (later : since' ≤ p.world.clock)
    (safe : prog.Guarded (kinds i) thread.consumer (fun s _ => s.held = none) ⟨held, since'⟩) :
    GuardedPool kinds ({ p with world := world }.resume i thread prog) := by
  refine guarded.resume running prog ⟨held, since'⟩ rfl (le_of_eq sameClock.symm)
    (fun _ _ _ => Iff.rfl) (fun key => Or.inl ?_) ⟨?_, knows.holds, fun key entry here => ?_⟩ safe
  · change world.store key = _
    rw [sameStore]
  · change since' ≤ world.clock
    rw [sameClock]
    exact later
  · change world.store key = entry
    rw [sameStore]
    exact knows.entry key entry here

theorem held_key_iff {key : String} {entry : Option (Entry R)} (other : String) :
    (∃ entry', some (key, entry) = some (other, entry')) ↔ other = key := by
  constructor
  · rintro ⟨_, same⟩
    exact (Prod.mk.inj (Option.some.inj same)).1.symm
  · rintro rfl
    exact ⟨entry, rfl⟩

theorem Pool.Knows.held_iff {i : Nat} {s : Knowledge R} (knows : p.Knows i s) {key : String}
    {entry : Option (Entry R)} (held : s.held = some (key, entry)) (other : String) :
    p.locks other = .held i ↔ other = key := by
  rw [knows.holds other, held]
  exact held_key_iff other

theorem GuardedPool.write (guarded : GuardedPool kinds p) {i : Nat} {thread : Thread Y T R}
    (running : p.threads[i]? = some thread) (prog : Prog Y T R Unit) {s : Knowledge R}
    (knows : p.Knows i s) {key : String} {entry : Option (Entry R)} (held : s.held = some (key, entry))
    {value : R} {ttl : Option ℚ}
    (safe : prog.Guarded (kinds i) thread.consumer (fun s _ => s.held = none)
      ⟨some (key, some (writtenEntry p.world.clock value ttl)), p.world.clock⟩) :
    GuardedPool kinds ({ p with world := p.world.write key value ttl }.resume i thread prog) := by
  refine guarded.resume running prog _ rfl (le_refl _) (fun _ _ _ => Iff.rfl) (fun other => ?_)
    ⟨le_refl _, fun other => ?_, fun other entry' here => ?_⟩ safe
  · by_cases same : other = key
    · exact Or.inr ((knows.held_iff held other).mpr same)
    · exact Or.inl (p.world.store_write_of_ne value ttl same)
  · exact (knows.held_iff held other).trans (held_key_iff other).symm
  · obtain ⟨rfl, rfl⟩ := Prod.mk.inj (Option.some.inj here)
    exact p.world.store_write_self key value ttl

theorem GuardedPool.acquire (guarded : GuardedPool kinds p) {i : Nat} {thread : Thread Y T R}
    (running : p.threads[i]? = some thread) (prog : Prog Y T R Unit) {s : Knowledge R}
    (knows : p.Knows i s) (nothing : s.held = none) {key : String} (free : p.locks key = .free)
    (safe : prog.Guarded (kinds i) thread.consumer (fun s _ => s.held = none)
      ⟨some (key, p.world.store key), p.world.clock⟩) :
    GuardedPool kinds ({ p with
      locks := Function.update p.locks key (.held i)
      acquired := p.acquired ++ [(i, key)] }.resume i thread prog) := by
  refine guarded.resume running prog _ rfl (le_refl _) (fun other j apart => ?_) (fun _ => Or.inl rfl)
    ⟨le_refl _, fun other => ?_, fun other entry here => ?_⟩ safe
  · change Function.update p.locks key (.held i) other = .held j ↔ _
    by_cases same : other = key
    · rw [same, Function.update_self, free]
      constructor
      · intro mine
        exact absurd (SharedCells.Lock.held.inj mine).symm apart
      · intro impossible
        cases impossible
    · rw [Function.update_of_ne same]
  · refine Iff.trans ?_ (held_key_iff other).symm
    change Function.update p.locks key (.held i) other = .held i ↔ other = key
    by_cases same : other = key
    · rw [same, Function.update_self]
      exact ⟨fun _ => rfl, fun _ => rfl⟩
    · rw [Function.update_of_ne same, knows.holds other, nothing]
      constructor
      · rintro ⟨_, here⟩
        cases here
      · exact fun impossible => absurd impossible same
  · obtain ⟨rfl, rfl⟩ := Prod.mk.inj (Option.some.inj here)
    rfl

theorem GuardedPool.release (guarded : GuardedPool kinds p) {i : Nat} {thread : Thread Y T R}
    (running : p.threads[i]? = some thread) (prog : Prog Y T R Unit) {s : Knowledge R}
    (knows : p.Knows i s) {key : String} {entry : Option (Entry R)} (held : s.held = some (key, entry))
    (safe : prog.Guarded (kinds i) thread.consumer (fun s _ => s.held = none) ⟨none, s.since⟩) :
    GuardedPool kinds
      ({ p with locks := Function.update p.locks key .releasing }.resume i thread prog) := by
  have mine := (knows.held_iff held key).mpr rfl
  refine guarded.resume running prog ⟨none, s.since⟩ rfl (le_refl _) (fun other j apart => ?_)
    (fun _ => Or.inl rfl) ⟨knows.since, fun other => ?_, fun _ _ here => (nomatch here)⟩ safe
  · change Function.update p.locks key .releasing other = .held j ↔ _
    by_cases same : other = key
    · rw [same, Function.update_self, mine]
      constructor
      · intro impossible
        cases impossible
      · intro theirs
        exact absurd (SharedCells.Lock.held.inj theirs).symm apart
    · rw [Function.update_of_ne same]
  · change Function.update p.locks key .releasing other = .held i ↔ _
    constructor
    · intro still
      by_cases same : other = key
      · rw [same, Function.update_self] at still
        cases still
      · rw [Function.update_of_ne same] at still
        exact absurd ((knows.held_iff held other).mp still) same
    · rintro ⟨_, here⟩
      cases here

theorem GuardedPool.advance (guarded : GuardedPool kinds p) {i : Nat} {thread : Thread Y T R}
    (running : p.threads[i]? = some thread) (advanced : p.advance i thread = some p') :
    GuardedPool kinds p' := by
  obtain ⟨s, knows, safe⟩ := guarded.threads i thread running
  unfold Pool.advance at advanced
  cases op : thread.prog with
  | ret result => rw [op] at advanced; cases advanced
  | dateNow k =>
      rw [op] at advanced safe
      obtain rfl := Option.some.inj advanced
      exact guarded.quiet running _ p.world rfl rfl knows (le_refl _) (safe _ knows.since)
  | get key k =>
      rw [op] at advanced safe
      obtain rfl := Option.some.inj advanced
      refine guarded.quiet running _ p.world rfl rfl knows (le_refl _)
        (safe _ knows.since _ fun entry held => ?_)
      rw [World.read_eq, knows.entry key entry held]
  | set key value ttl k =>
      rw [op] at advanced safe
      obtain rfl := Option.some.inj advanced
      obtain ⟨entry, held, writes⟩ := safe
      exact guarded.write running _ knows held (writes _ knows.since).2
  | getCurrentTtl key k =>
      rw [op] at advanced safe
      obtain rfl := Option.some.inj advanced
      refine guarded.quiet running _ p.world rfl rfl knows (le_refl _)
        (safe _ knows.since _ fun entry held => ?_)
      rw [World.currentTtl_eq, knows.entry key entry held]
  | registerChild parent child k =>
      rw [op] at advanced safe
      obtain rfl := Option.some.inj advanced
      exact guarded.quiet running _ (p.world.register parent child) rfl rfl knows knows.since safe
  | acquire key k =>
      rw [op] at advanced safe
      simp only at advanced
      split at advanced
      · rename_i free
        obtain rfl := Option.some.inj advanced
        exact guarded.acquire running _ knows safe.1 free (safe.2 _ knows.since _)
      · cases advanced
  | release key k =>
      rw [op] at advanced safe
      obtain rfl := Option.some.inj advanced
      obtain ⟨⟨entry, held⟩, rest⟩ := safe
      exact guarded.release running _ knows held rest
  | yield item k =>
      rw [op] at advanced safe
      obtain rfl := Option.some.inj advanced
      exact guarded.quiet running _ p.world rfl rfl knows knows.since safe

theorem GuardedPool.act (guarded : GuardedPool kinds p) (action : Action)
    (acted : p.act action = some p') : GuardedPool kinds p' := by
  cases action with
  | run i =>
      obtain ⟨thread, running, advanced⟩ := Option.bind_eq_some_iff.mp acted
      exact guarded.advance running advanced
  | fire key =>
      simp only [Pool.act] at acted
      split at acted
      · rename_i releasing
        obtain rfl := Option.some.inj acted
        have same : ∀ other i, Function.update p.locks key .free other = .held i ↔
            p.locks other = .held i := by
          intro other i
          by_cases here : other = key
          · rw [here, Function.update_self, releasing]
            exact ⟨fun impossible => (nomatch impossible), fun impossible => (nomatch impossible)⟩
          · rw [Function.update_of_ne here]
        refine ⟨fun i thread running => ?_, fun i other past => ?_⟩
        · obtain ⟨s, knows, safe⟩ := guarded.threads i thread running
          exact ⟨s, ⟨knows.since, fun other => (same other i).trans (knows.holds other),
            knows.entry⟩, safe⟩
        · exact fun mine => guarded.beyond i other past ((same other i).mp mine)
      · cases acted
  | tick t =>
      simp only [Pool.act] at acted
      split at acted
      · rename_i later
        obtain rfl := Option.some.inj acted
        refine ⟨fun i thread running => ?_, guarded.beyond⟩
        obtain ⟨s, knows, safe⟩ := guarded.threads i thread running
        exact ⟨s, ⟨knows.since.trans later, knows.holds, knows.entry⟩, safe⟩
      · cases acted

theorem GuardedPool.join (guarded : GuardedPool kinds p) (thread : Thread Y T R)
    (safe : thread.prog.Guarded (kinds p.threads.length) thread.consumer
      (fun s _ => s.held = none) ⟨none, p.world.clock⟩) :
    GuardedPool kinds { p with threads := p.threads ++ [thread] } := by
  refine ⟨fun i other running => ?_, fun i key past => ?_⟩
  · simp only at running
    by_cases old : i < p.threads.length
    · rw [List.getElem?_append_left old] at running
      obtain ⟨s, knows, safe'⟩ := guarded.threads i other running
      exact ⟨s, ⟨knows.since, knows.holds, knows.entry⟩, safe'⟩
    · have new : i = p.threads.length := by
        have bound := (List.getElem?_eq_some_iff.mp running).1
        rw [List.length_append, List.length_singleton] at bound
        omega
      rw [new, List.getElem?_append_right (le_refl _), Nat.sub_self] at running
      obtain rfl := Option.some.inj running
      refine ⟨⟨none, p.world.clock⟩, ⟨le_refl _, fun key => ?_, fun _ _ here => (nomatch here)⟩, ?_⟩
      · constructor
        · exact fun mine => absurd mine (guarded.beyond i key (by omega))
        · rintro ⟨_, here⟩
          cases here
      · rw [new]
        exact safe
  · refine guarded.beyond i key ?_
    rw [List.length_append, List.length_singleton] at past
    omega

theorem guardedPool_start (w : World R) (threads : List (Thread Y T R))
    (safe : ∀ i (thread : Thread Y T R), threads[i]? = some thread → ∀ t,
      thread.prog.Guarded (kinds i) thread.consumer (fun s _ => s.held = none) ⟨none, t⟩) :
    GuardedPool kinds (Pool.start w threads) := by
  refine ⟨fun i thread running => ⟨⟨none, w.clock⟩, ⟨le_refl _, fun key => ?_, fun _ _ here =>
    (nomatch here)⟩, safe i thread running _⟩, fun _ _ _ held => (nomatch held)⟩
  constructor
  · intro held
    cases held
  · rintro ⟨_, here⟩
    cases here

end

end TreeKeyCache
