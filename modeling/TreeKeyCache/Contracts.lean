import TreeKeyCache.Faults
import TreeKeyCache.LockedWrites
import TreeKeyCache.PruneInvisible

/-! # What threads rely on and guarantee

A contract says what the reads of a thread may find, which writes and registrations the thread
makes, and what it knows after each of them.  `Ensures` is the weakest precondition of "the
program keeps the contract, whatever fails".  An invariant of the storage that permitted
operations keep, and knowledge that the operations of others leave true, then hold at every
moment of every interleaving. -/
set_option autoImplicit false
namespace TreeKeyCache

variable {Y Y' T R A B S : Type}

/-- In terms of what a thread knows.  Its semaphores do not matter. -/
structure Contract (S R : Type) where
  hears : S → String → Option R → Prop
  learns : S → String → Option R → S
  stores : S → String → R → Option ℚ → Prop
  registers : S → Option String → String → Prop
  registered : S → Option String → String → S

namespace Contract

def permits (c : Contract S R) (s : S) : Event R → Prop
  | .stored key value ttl => c.stores s key value ttl
  | .registered parent child => c.registers s parent child
  | _ => True

def after (c : Contract S R) (s : S) : Event R → S
  | .registered parent child => c.registered s parent child
  | _ => s

end Contract

namespace Prog

def Ensures (c : Contract S R) : Prog Y T R A → (S → Except Err A → Prop) → S → Prop
  | ret result, post, s => post s result
  | dateNow k, post, s => ∀ t, (k t).Ensures c post s
  | get key k, post, s =>
      (∀ content, c.hears s key content → (k (.ok content)).Ensures c post (c.learns s key content)) ∧
        ∀ e, (k (.error e)).Ensures c post s
  | set key value ttl k, post, s => c.stores s key value ttl ∧ ∀ answer, (k answer).Ensures c post s
  | getCurrentTtl _ k, post, s => ∀ answer, (k answer).Ensures c post s
  | registerChild parent child k, post, s => c.registers s parent child ∧
      (k (.ok ())).Ensures c post (c.registered s parent child) ∧ ∀ e, (k (.error e)).Ensures c post s
  | acquire _ k, post, s => ∀ answer, (k answer).Ensures c post s
  | release _ k, post, s => k.Ensures c post s
  | yield _ k, post, s => ∀ answer, (k answer).Ensures c post s

variable {c : Contract S R} {s : S}

theorem Ensures.mono {p : Prog Y T R A} {post post' : S → Except Err A → Prop}
    (weaker : ∀ s result, post s result → post' s result) (ensures : p.Ensures c post s) :
    p.Ensures c post' s := by
  induction p generalizing s with
  | ret result => exact weaker s result ensures
  | dateNow k ih => exact fun t => ih t (ensures t)
  | get key k ih =>
      exact ⟨fun content heard => ih _ (ensures.1 content heard), fun e => ih _ (ensures.2 e)⟩
  | set key value ttl k ih => exact ⟨ensures.1, fun answer => ih answer (ensures.2 answer)⟩
  | getCurrentTtl key k ih => exact fun answer => ih answer (ensures answer)
  | registerChild parent child k ih =>
      exact ⟨ensures.1, ih _ ensures.2.1, fun e => ih _ (ensures.2.2 e)⟩
  | acquire key k ih => exact fun answer => ih answer (ensures answer)
  | release key k ih => exact ih ensures
  | yield item k ih => exact fun answer => ih answer (ensures answer)

theorem Ensures.bind {p : Prog Y T R A} {f : A → Prog Y T R B} {post : S → Except Err B → Prop}
    (ensures : p.Ensures c (fun s result => match result with
      | .ok a => (f a).Ensures c post s
      | .error e => post s (.error e)) s) : (p >>= f).Ensures c post s := by
  induction p generalizing s with
  | ret result =>
      cases result with
      | ok a => exact ensures
      | error e => exact ensures
  | dateNow k ih => exact fun t => ih t (ensures t)
  | get key k ih =>
      exact ⟨fun content heard => ih _ (ensures.1 content heard), fun e => ih _ (ensures.2 e)⟩
  | set key value ttl k ih => exact ⟨ensures.1, fun answer => ih answer (ensures.2 answer)⟩
  | getCurrentTtl key k ih => exact fun answer => ih answer (ensures answer)
  | registerChild parent child k ih =>
      exact ⟨ensures.1, ih _ ensures.2.1, fun e => ih _ (ensures.2.2 e)⟩
  | acquire key k ih => exact fun answer => ih answer (ensures answer)
  | release key k ih => exact ih ensures
  | yield item k ih => exact fun answer => ih answer (ensures answer)

theorem Ensures.tryFinally {p : Prog Y T R A} {last : Prog Y T R Unit}
    {post : S → Except Err A → Prop} (ensures : p.Ensures c (fun s result =>
      (last >>= fun _ => ret result).Ensures c post s) s) : (p.tryFinally last).Ensures c post s := by
  induction p generalizing s with
  | ret result => exact ensures
  | dateNow k ih => exact fun t => ih t (ensures t)
  | get key k ih =>
      exact ⟨fun content heard => ih _ (ensures.1 content heard), fun e => ih _ (ensures.2 e)⟩
  | set key value ttl k ih => exact ⟨ensures.1, fun answer => ih answer (ensures.2 answer)⟩
  | getCurrentTtl key k ih => exact fun answer => ih answer (ensures answer)
  | registerChild parent child k ih =>
      exact ⟨ensures.1, ih _ ensures.2.1, fun e => ih _ (ensures.2.2 e)⟩
  | acquire key k ih => exact fun answer => ih answer (ensures answer)
  | release key k ih => exact ih ensures
  | yield item k ih => exact fun answer => ih answer (ensures answer)

theorem Ensures.forAwait {body : Y → Except Err (Option T)} {p : Prog Y T R A}
    {post : S → Except Err A → Prop} (ensures : p.Ensures c post s) :
    (TreeKeyCache.forAwait body p).Ensures c post s := by
  induction p generalizing s with
  | ret result => exact ensures
  | dateNow k ih => exact fun t => ih t (ensures t)
  | get key k ih =>
      exact ⟨fun content heard => ih _ (ensures.1 content heard), fun e => ih _ (ensures.2 e)⟩
  | set key value ttl k ih => exact ⟨ensures.1, fun answer => ih answer (ensures.2 answer)⟩
  | getCurrentTtl key k ih => exact fun answer => ih answer (ensures answer)
  | registerChild parent child k ih =>
      exact ⟨ensures.1, ih _ ensures.2.1, fun e => ih _ (ensures.2.2 e)⟩
  | acquire key k ih => exact fun answer => ih answer (ensures answer)
  | release key k ih => exact ih ensures
  | yield item k ih => exact ih _ (ensures (body item))

theorem Ensures.mapItem (f : Y → Y') {p : Prog Y T R A} {post : S → Except Err A → Prop}
    (ensures : p.Ensures c post s) : (p.mapItem f).Ensures c post s := by
  induction p generalizing s with
  | ret result => exact ensures
  | dateNow k ih => exact fun t => ih t (ensures t)
  | get key k ih =>
      exact ⟨fun content heard => ih _ (ensures.1 content heard), fun e => ih _ (ensures.2 e)⟩
  | set key value ttl k ih => exact ⟨ensures.1, fun answer => ih answer (ensures.2 answer)⟩
  | getCurrentTtl key k ih => exact fun answer => ih answer (ensures answer)
  | registerChild parent child k ih =>
      exact ⟨ensures.1, ih _ ensures.2.1, fun e => ih _ (ensures.2.2 e)⟩
  | acquire key k ih => exact fun answer => ih answer (ensures answer)
  | release key k ih => exact ih ensures
  | yield item k ih => exact fun answer => ih answer (ensures answer)

/-! ## Rules for runs that do not fail -/

theorem Ensures.bindOk {p : Prog Y T R A} {f : A → Prog Y T R B} {next : S → B → Prop}
    (middle : S → A → Prop) (first : p.Ensures c (onOk middle) s)
    (second : ∀ s a, middle s a → (f a).Ensures c (onOk next) s) :
    (p >>= f).Ensures c (onOk next) s := by
  apply Ensures.bind
  refine first.mono fun s result reached => ?_
  cases result with
  | ok a => exact second s a (reached a rfl)
  | error e =>
      intro b failed
      cases failed

theorem Ensures.monoOk {p : Prog Y T R A} {post post' : S → A → Prop}
    (weaker : ∀ s a, post s a → post' s a) (ensures : p.Ensures c (onOk post) s) :
    p.Ensures c (onOk post') s :=
  ensures.mono fun s _ reached a same => weaker s a (reached a same)

theorem ensures_pure {a : A} {post : S → A → Prop} (holds : post s a) :
    (pure a : Prog Y T R A).Ensures c (onOk post) s := by
  intro b same
  cases same
  exact holds

theorem ensures_ret {result : Except Err A} {post : S → A → Prop}
    (holds : ∀ a, result = .ok a → post s a) :
    (ret result : Prog Y T R A).Ensures c (onOk post) s := holds

theorem Ensures.locked {p : Prog Y T R A} {post : S → A → Prop} (locked : Bool) (key : String)
    (ensures : p.Ensures c (onOk post) s) :
    (if locked then semaphoreAcquire key >>= fun _ =>
        p.tryFinally (if locked then dontWait key else pure ())
      else p.tryFinally (if locked then dontWait key else pure ())).Ensures c (onOk post) s := by
  have kept : (p.tryFinally (if locked then dontWait key else pure ())).Ensures c (onOk post) s := by
    apply Ensures.tryFinally
    refine ensures.mono fun s result reached => ?_
    cases locked with
    | false => exact reached
    | true => exact reached
  cases locked with
  | false => exact kept
  | true =>
      intro answer
      cases answer with
      | ok _ => exact kept
      | error e =>
          intro a failed
          cases failed

/-- A program that changes nothing and returns `P` whatever is answered. -/
theorem Quiet.ensures {P : A → Prop} {p : Prog Y T R A} (quiet : p.Quiet) (returns : p.Returns P)
    (unheard : ∀ key content, c.learns s key content = s) :
    p.Ensures c (onOk fun s' a => s' = s ∧ P a) s := by
  induction p with
  | ret result => exact fun a same => ⟨rfl, returns a same⟩
  | dateNow k ih => exact fun t => ih t (quiet t) (returns t)
  | get key k ih =>
      refine ⟨fun content _ => ?_, fun e => ih _ (quiet _) (returns _)⟩
      rw [unheard]
      exact ih _ (quiet _) (returns _)
  | getCurrentTtl key k ih => exact fun answer => ih _ (quiet _) (returns _)
  | yield item k ih => exact fun answer => ih _ (quiet _) (returns _)
  | set key value ttl k ih => exact quiet.elim
  | registerChild parent child k ih => exact quiet.elim
  | acquire key k ih => exact quiet.elim
  | release key k ih => exact quiet.elim

/-- A program that obeys a monitor keeps a contract that asks for no more. -/
theorem Obeys.ensures {M : Type} {m : Monitor M R} (view : S → M)
    (stores : ∀ s key value ttl, m.permits (view s) (.stored key value ttl) → c.stores s key value ttl)
    (stored : ∀ s key value ttl, m.after (view s) (.stored key value ttl) = view s)
    (registers : ∀ s parent child, c.registers s parent child)
    (registered : ∀ s parent child, m.after (view s) (.registered parent child) =
      view (c.registered s parent child))
    (blind : LockBlind m) (learns : ∀ s key content, view (c.learns s key content) = view s)
    {p : Prog Y T R A} {post : M → Except Err A → Prop} (obeys : p.Obeys m post (view s)) :
    p.Ensures c (fun s result => post (view s) result) s := by
  induction p generalizing s with
  | ret result => exact obeys
  | dateNow k ih => exact fun t => ih t (obeys t)
  | get key k ih =>
      refine ⟨fun content _ => ih _ ?_, fun e => ih _ (obeys _)⟩
      rw [learns]
      exact obeys _
  | set key value ttl k ih =>
      obtain ⟨permitted, failed, done⟩ := obeys
      rw [stored] at done
      refine ⟨stores s key value ttl permitted, fun answer => ?_⟩
      cases answer with
      | ok _ => exact ih _ done
      | error e => exact ih _ (failed e)
  | getCurrentTtl key k ih => exact fun answer => ih _ (obeys _)
  | registerChild parent child k ih =>
      obtain ⟨_, failed, done⟩ := obeys
      rw [registered] at done
      exact ⟨registers s parent child, ih _ done, fun e => ih _ (failed e)⟩
  | acquire key k ih =>
      obtain ⟨_, failed, done⟩ := obeys
      rw [blind.after_acquired] at done
      intro answer
      cases answer with
      | ok _ => exact ih _ done
      | error e => exact ih _ (failed e)
  | release key k ih =>
      obtain ⟨_, done⟩ := obeys
      rw [blind.after_released] at done
      exact ih done
  | yield item k ih => exact fun answer => ih _ (obeys _)

theorem Ensures.view {S' : Type} {c : Contract S R} {c' : Contract S' R} (view : S' → S)
    (hears : ∀ s key content, c'.hears s key content → c.hears (view s) key content)
    (stores : ∀ s key value ttl, c.stores (view s) key value ttl → c'.stores s key value ttl)
    (registers : ∀ s parent child, c.registers (view s) parent child → c'.registers s parent child)
    (learns : ∀ s key content, view (c'.learns s key content) = c.learns (view s) key content)
    (registered : ∀ s parent child, view (c'.registered s parent child) = c.registered (view s) parent child)
    {p : Prog Y T R A} {post : S → Except Err A → Prop} {s : S'} (ensures : p.Ensures c post (view s)) :
    p.Ensures c' (fun s result => post (view s) result) s := by
  induction p generalizing s with
  | ret result => exact ensures
  | dateNow k ih => exact fun t => ih t (ensures t)
  | get key k ih =>
      refine ⟨fun content heard => ih _ ?_, fun e => ih _ (ensures.2 e)⟩
      rw [learns]
      exact ensures.1 content (hears s key content heard)
  | set key value ttl k ih =>
      exact ⟨stores s key value ttl ensures.1, fun answer => ih answer (ensures.2 answer)⟩
  | getCurrentTtl key k ih => exact fun answer => ih answer (ensures answer)
  | registerChild parent child k ih =>
      refine ⟨registers s parent child ensures.1, ih _ ?_, fun e => ih _ (ensures.2.2 e)⟩
      rw [registered]
      exact ensures.2.1
  | acquire key k ih => exact fun answer => ih answer (ensures answer)
  | release key k ih => exact ih ensures
  | yield item k ih => exact fun answer => ih answer (ensures answer)

theorem Ensures.turn {p p' : Prog Y T R A} {post : S → Except Err A → Prop} {event : Option (Event R)}
    {failed : Bool} {w : World R} (ensures : p.Ensures c post s) (turn : p.Turn event failed p')
    (hears : ∀ key, c.hears s key (w.read key))
    (reads : ∀ key k, p = .get key k → failed = false → p' = k (.ok (w.read key))) :
    (∀ e, event = some e → c.permits s e) ∧ ∃ s', p'.Ensures c post s' ∧
      (s' = s ∨ (∃ e, event = some e ∧ s' = c.after s e) ∨
        (event = none ∧ ∃ key, s' = c.learns s key (w.read key))) := by
  have nothing : ∀ e : Event R, (none : Option (Event R)) = some e → c.permits s e := by
    intro e impossible
    cases impossible
  cases turn with
  | dateNow t k => exact ⟨nothing, s, ensures t, .inl rfl⟩
  | get key content k =>
      rw [reads key k rfl rfl]
      exact ⟨nothing, _, ensures.1 _ (hears key), .inr (.inr ⟨rfl, key, rfl⟩)⟩
  | getFailed key e k => exact ⟨nothing, s, ensures.2 e, .inl rfl⟩
  | set key value ttl k =>
      refine ⟨fun e same => ?_, s, ensures.2 _, .inl rfl⟩
      obtain rfl := Option.some.inj same
      exact ensures.1
  | setFailed key value ttl e effective k =>
      refine ⟨fun event same => ?_, s, ensures.2 _, .inl rfl⟩
      cases effective with
      | false => cases same
      | true =>
          obtain rfl := Option.some.inj same
          exact ensures.1
  | getCurrentTtl key ttl k => exact ⟨nothing, s, ensures _, .inl rfl⟩
  | getCurrentTtlFailed key e k => exact ⟨nothing, s, ensures _, .inl rfl⟩
  | registerChild parent child k =>
      refine ⟨fun e same => ?_, _, ensures.2.1, .inr (.inl ⟨_, rfl, rfl⟩)⟩
      obtain rfl := Option.some.inj same
      exact ensures.1
  | registerChildFailed parent child e effective k =>
      refine ⟨fun event same => ?_, s, ensures.2.2 _, .inl rfl⟩
      cases effective with
      | false => cases same
      | true =>
          obtain rfl := Option.some.inj same
          exact ensures.1
  | acquire key k =>
      refine ⟨fun e same => ?_, s, ensures _, .inl rfl⟩
      obtain rfl := Option.some.inj same
      trivial
  | acquireFailed key e k => exact ⟨nothing, s, ensures _, .inl rfl⟩
  | release key k =>
      refine ⟨fun e same => ?_, s, ensures, .inl rfl⟩
      obtain rfl := Option.some.inj same
      trivial
  | yield item value k => exact ⟨nothing, s, ensures _, .inl rfl⟩
  | yieldFailed item e k => exact ⟨nothing, s, ensures _, .inl rfl⟩

end Prog

/-! ## Pools -/

/-- Permitted operations keep the invariant, and what anybody knows; and what can be read is what
is relied on. -/
structure Contract.Upholds (c : Contract S R) (invariant : World R → Prop)
    (knows : World R → S → Prop) : Prop where
  hears : ∀ w s key, invariant w → knows w s → c.hears s key (w.read key)
  learns : ∀ w s key, invariant w → knows w s → knows w (c.learns s key (w.read key))
  acts : ∀ w s event, invariant w → knows w s → c.permits s event →
    invariant (event.world w) ∧ knows (event.world w) (c.after s event)
  others : ∀ w s s' event, invariant w → knows w s → c.permits s event → knows w s' →
    knows (event.world w) s'
  clock : ∀ w t, w.clock ≤ t → invariant w → invariant { w with clock := t } ∧
    ∀ s, knows w s → knows { w with clock := t } s

/-- Every thread keeps the contract with what it knows, and comes to one of its `ends`. -/
structure Contract.Binds (c : Contract S R) (invariant : World R → Prop) (knows : World R → S → Prop)
    (ends : Nat → S → Except Err Unit → Prop) (p : Pool Y T R) : Prop where
  world : invariant p.world
  threads : ∀ (i : Nat) (thread : Thread Y T R), p.threads[i]? = some thread → ∃ s, knows p.world s ∧
    thread.prog.Ensures c (ends i) s

section
variable {c : Contract S R} {invariant : World R → Prop} {knows : World R → S → Prop}
  {ends : Nat → S → Except Err Unit → Prop} {p p' : Pool Y T R}

theorem Contract.Binds.ended (binds : c.Binds invariant knows ends p) {i : Nat} {thread : Thread Y T R}
    {result : Except Err Unit} (running : p.threads[i]? = some thread) (ended : thread.prog = .ret result) :
    ∃ s, knows p.world s ∧ ends i s result := by
  obtain ⟨s, known, ensures⟩ := binds.threads i thread running
  rw [ended] at ensures
  exact ⟨s, known, ensures⟩

theorem Contract.Binds.known (binds : c.Binds invariant knows ends p) (upholds : c.Upholds invariant knows)
    {action : FaultyAction T} (suffered : p.suffer action = some p') {s : S} (known : knows p.world s) :
    knows p'.world s := by
  obtain ⟨i, thread, event, failed, prog, turn, _, _⟩ | ⟨key, _, _, rfl⟩ | ⟨t, _, later, rfl⟩ :=
    Pool.suffer_cases suffered
  · obtain ⟨s₀, known₀, ensures⟩ := binds.threads i thread turn.running
    obtain ⟨permitted, _⟩ := ensures.turn turn.turn (fun key => upholds.hears _ _ key binds.world known₀)
      turn.reads
    rw [turn.world]
    cases event with
    | none => exact known
    | some event => exact upholds.others _ s₀ s event binds.world known₀ (permitted event rfl) known
  · exact known
  · exact (upholds.clock _ t later binds.world).2 s known

theorem Contract.Binds.suffer (binds : c.Binds invariant knows ends p)
    (upholds : c.Upholds invariant knows) (action : FaultyAction T)
    (suffered : p.suffer action = some p') : c.Binds invariant knows ends p' := by
  obtain ⟨i, thread, event, failed, prog, turn, _, _⟩ | ⟨key, _, _, rfl⟩ | ⟨t, _, later, rfl⟩ :=
    Pool.suffer_cases suffered
  · have bound : i < p.threads.length := (List.getElem?_eq_some_iff.mp turn.running).1
    obtain ⟨s, known, ensures⟩ := binds.threads i thread turn.running
    obtain ⟨permitted, s', ensures', reached⟩ := ensures.turn turn.turn
      (fun key => upholds.hears _ _ key binds.world known) turn.reads
    have kept := fun {other : S} => binds.known upholds suffered (s := other)
    refine ⟨?_, fun j other found => ?_⟩
    · rw [turn.world]
      cases event with
      | none => exact binds.world
      | some event => exact (upholds.acts _ s event binds.world known (permitted event rfl)).1
    · rw [turn.threads] at found
      by_cases same : j = i
      · subst same
        rw [List.getElem?_set_self bound] at found
        obtain rfl := Option.some.inj found
        refine ⟨s', ?_, ensures'⟩
        rcases reached with rfl | ⟨e, rfl, rfl⟩ | ⟨rfl, key, rfl⟩
        · exact kept known
        · rw [turn.world]
          exact (upholds.acts _ s e binds.world known (permitted e rfl)).2
        · exact kept (upholds.learns _ s key binds.world known)
      · rw [List.getElem?_set_ne (Ne.symm same)] at found
        obtain ⟨s₁, known₁, ensures₁⟩ := binds.threads j other found
        exact ⟨s₁, kept known₁, ensures₁⟩
  · exact ⟨binds.world, binds.threads⟩
  · have clocked := upholds.clock _ t later binds.world
    refine ⟨clocked.1, fun j other found => ?_⟩
    obtain ⟨s, known, ensures⟩ := binds.threads j other found
    exact ⟨s, clocked.2 s known, ensures⟩

end

/-! ## Runs of `prune` -/

section
variable [SerializedForm R] (o : Options T R) (c : Contract S R) (invariant : World R → Prop)
  (knows : World R → S → Prop)

/-- What the pipeline hands to a writer, the writer may write. -/
def Hands (s : S) (found : Option (String × Tree R)) : Prop :=
  ∀ key tree, found = some (key, tree) →
    (pruneWrite o key tree : Prog Y T R Unit).Ensures c (fun _ _ => True) s

/-- The writers of the pipeline come later than the threads with certain ends. -/
structure Contract.BindsRun (ends : Nat → S → Except Err Unit → Prop) (run : PruneRun Y T R) : Prop where
  pool : c.Binds invariant knows ends run.pool
  reader : ∃ s, knows run.pool.world s ∧ run.reader.Ensures c (Prog.onOk (Hands (Y := Y) o c)) s
  later : ∀ i, run.pool.threads.length ≤ i → ∀ s result, ends i s result

variable {o} {c} {invariant} {knows} {ends : Nat → S → Except Err Unit → Prop} {run next : PruneRun Y T R}

theorem Contract.BindsRun.suffer (binds : c.BindsRun o invariant knows ends run)
    (upholds : c.Upholds invariant knows)
    (reads : ∀ s key, (pruneRead o key : Prog Y T R _).Ensures c (Prog.onOk (Hands (Y := Y) o c)) s)
    (action : FaultyPruneAction T) (suffered : run.suffer o action = some next) :
    c.BindsRun o invariant knows ends next := by
  obtain ⟨s, known, ensures⟩ := binds.reader
  cases action with
  | pool action =>
      obtain ⟨p, poolSuffered, rfl⟩ := Option.map_eq_some_iff.mp suffered
      refine ⟨binds.pool.suffer upholds action poolSuffered,
        ⟨s, binds.pool.known upholds poolSuffered known, ensures⟩, fun i bound => binds.later i ?_⟩
      rwa [← Pool.suffer_length poolSuffered]
  | pull =>
      obtain ⟨key, rest, idle, keys, rfl⟩ | ⟨key, tree, found, rfl⟩ | ⟨k, asks, rfl⟩ |
        ⟨key, k, asks, rfl⟩ := PruneRun.pull_cases suffered
      · exact ⟨binds.pool, ⟨s, known, reads s key⟩, binds.later⟩
      · rw [found] at ensures
        have hands := ensures _ rfl key tree rfl
        refine ⟨⟨binds.pool.world, fun i thread running => ?_⟩, ⟨s, known, fun _ same => ?_⟩,
          fun i bound => binds.later i ?_⟩
        · simp only at running
          by_cases old : i < run.pool.threads.length
          · rw [List.getElem?_append_left old] at running
            exact binds.pool.threads i thread running
          · rw [List.getElem?_append_right (Nat.not_lt.mp old)] at running
            obtain rfl := List.mem_singleton.mp (List.mem_of_getElem? running)
            exact ⟨s, known, hands.mono fun s result _ => binds.later i (Nat.not_lt.mp old) s result⟩
        · cases same
          intro _ _ impossible
          cases impossible
        · exact Nat.le_trans (by simp) bound
      · rw [asks] at ensures
        exact ⟨binds.pool, ⟨s, known, ensures _⟩, binds.later⟩
      · rw [asks] at ensures
        exact ⟨binds.pool, ⟨_, upholds.learns _ s key binds.pool.world known,
          ensures.1 _ (upholds.hears _ s key binds.pool.world known)⟩, binds.later⟩

/-- In any interleaving, with any faults, the threads keep the contract. -/
theorem Contract.Upholds.throughout (upholds : c.Upholds invariant knows)
    (reads : ∀ s key, (pruneRead o key : Prog Y T R _).Ensures c (Prog.onOk (Hands (Y := Y) o c)) s)
    {w : World R} (initially : invariant w) {threads : List (Thread Y T R)}
    (ensures : ∀ (i : Nat) (thread : Thread Y T R), threads[i]? = some thread →
      ∃ s, knows w s ∧ thread.prog.Ensures c (ends i) s)
    (later : ∀ i, threads.length ≤ i → ∀ s result, ends i s result) {s : S} (known : knows w s)
    {keys : List String} {schedule : List (FaultyPruneAction T)}
    (ran : Progress.exec (PruneRun.suffer o) (PruneRun.start w threads keys) schedule = some run) :
    c.BindsRun o invariant knows ends run := by
  have start : c.BindsRun o invariant knows ends (PruneRun.start w threads keys) := by
    refine ⟨⟨initially, ensures⟩, ⟨s, known, ?_⟩, later⟩
    intro found same
    cases same
    intro _ _ impossible
    cases impossible
  exact Progress.exec_invariant
    (fun _ action _ binds (_ : True) suffered => binds.suffer upholds reads action suffered) schedule
    (fun _ _ => trivial) _ run start ran

theorem Contract.Upholds.always (upholds : c.Upholds invariant knows)
    (reads : ∀ s key, (pruneRead o key : Prog Y T R _).Ensures c (Prog.onOk (Hands (Y := Y) o c)) s)
    {w : World R} (initially : invariant w) {s : S} (known : knows w s) {threads : List (Thread Y T R)}
    (ensures : ∀ thread ∈ threads, thread.prog.Ensures c (fun _ _ => True) s) {keys : List String}
    {schedule : List (FaultyPruneAction T)}
    (ran : Progress.exec (PruneRun.suffer o) (PruneRun.start w threads keys) schedule = some run) :
    invariant run.pool.world := by
  have binds : c.BindsRun o invariant knows (fun _ _ _ => True) run :=
    upholds.throughout reads initially
      (fun _ thread running => ⟨s, known, ensures thread (List.mem_of_getElem? running)⟩)
      (fun _ _ _ _ => trivial) known ran
  exact binds.pool.world

end

end TreeKeyCache
