import TreeKeyCache.Write

/-! # Monitored programs

A monitor watches the operations of a program that change something and says which of
them it permits.  `Obeys` is the weakest precondition of "every operation is permitted,
whatever the environment answers": a rejected operation does not move the monitor, and
callbacks and consumers may answer or throw anything.  The rules follow the statements
programs are written with. -/
set_option autoImplicit false
namespace TreeKeyCache

variable {Y T R A B S : Type}

inductive Event (R : Type) where
  | stored (key : String) (value : R) (ttl : Option ℚ)
  | registered (parentKey : Option String) (partialKey : String)
  | acquired (key : String)
  | released (key : String)

structure Monitor (S R : Type) where
  permits : S → Event R → Prop
  after : S → Event R → S

namespace Prog

def Obeys (m : Monitor S R) : Prog Y T R A → (S → Except Err A → Prop) → S → Prop
  | ret result, post, s => post s result
  | dateNow k, post, s => ∀ t, (k t).Obeys m post s
  | get _ k, post, s => ∀ answer, (k answer).Obeys m post s
  | set key value ttl k, post, s =>
      m.permits s (.stored key value ttl) ∧ (∀ e, (k (.error e)).Obeys m post s) ∧
        (k (.ok ())).Obeys m post (m.after s (.stored key value ttl))
  | getCurrentTtl _ k, post, s => ∀ answer, (k answer).Obeys m post s
  | registerChild parent child k, post, s =>
      m.permits s (.registered parent child) ∧ (∀ e, (k (.error e)).Obeys m post s) ∧
        (k (.ok ())).Obeys m post (m.after s (.registered parent child))
  | acquire key k, post, s =>
      m.permits s (.acquired key) ∧ (∀ e, (k (.error e)).Obeys m post s) ∧
        (k (.ok ())).Obeys m post (m.after s (.acquired key))
  | release key k, post, s =>
      m.permits s (.released key) ∧ k.Obeys m post (m.after s (.released key))
  | yield _ k, post, s => ∀ answer, (k answer).Obeys m post s

/-- Nothing is asked of a run that fails. -/
def onOk (post : S → A → Prop) (s : S) (result : Except Err A) : Prop :=
  ∀ a, result = .ok a → post s a

variable (m : Monitor S R)

theorem Obeys.mono {p : Prog Y T R A} {post post' : S → Except Err A → Prop} {s : S}
    (weaker : ∀ s result, post s result → post' s result) (obeys : p.Obeys m post s) :
    p.Obeys m post' s := by
  induction p generalizing s with
  | ret result => exact weaker s result obeys
  | dateNow k ih => exact fun t => ih t (obeys t)
  | get key k ih => exact fun answer => ih answer (obeys answer)
  | set key value ttl k ih =>
      exact ⟨obeys.1, fun e => ih _ (obeys.2.1 e), ih _ obeys.2.2⟩
  | getCurrentTtl key k ih => exact fun answer => ih answer (obeys answer)
  | registerChild parent child k ih =>
      exact ⟨obeys.1, fun e => ih _ (obeys.2.1 e), ih _ obeys.2.2⟩
  | acquire key k ih => exact ⟨obeys.1, fun e => ih _ (obeys.2.1 e), ih _ obeys.2.2⟩
  | release key k ih => exact ⟨obeys.1, ih obeys.2⟩
  | yield item k ih => exact fun answer => ih answer (obeys answer)

theorem Obeys.bind {p : Prog Y T R A} {f : A → Prog Y T R B} {post : S → Except Err B → Prop} {s : S}
    (obeys : p.Obeys m (fun s result => match result with
      | .ok a => (f a).Obeys m post s
      | .error e => post s (.error e)) s) : (p >>= f).Obeys m post s := by
  induction p generalizing s with
  | ret result =>
      cases result with
      | ok a => exact obeys
      | error e => exact obeys
  | dateNow k ih => exact fun t => ih t (obeys t)
  | get key k ih => exact fun answer => ih answer (obeys answer)
  | set key value ttl k ih =>
      exact ⟨obeys.1, fun e => ih _ (obeys.2.1 e), ih _ obeys.2.2⟩
  | getCurrentTtl key k ih => exact fun answer => ih answer (obeys answer)
  | registerChild parent child k ih =>
      exact ⟨obeys.1, fun e => ih _ (obeys.2.1 e), ih _ obeys.2.2⟩
  | acquire key k ih => exact ⟨obeys.1, fun e => ih _ (obeys.2.1 e), ih _ obeys.2.2⟩
  | release key k ih => exact ⟨obeys.1, ih obeys.2⟩
  | yield item k ih => exact fun answer => ih answer (obeys answer)

theorem Obeys.tryFinally {p : Prog Y T R A} {last : Prog Y T R Unit} {post : S → Except Err A → Prop}
    {s : S} (obeys : p.Obeys m (fun s result =>
      (last >>= fun _ => ret result).Obeys m post s) s) : (p.tryFinally last).Obeys m post s := by
  induction p generalizing s with
  | ret result => exact obeys
  | dateNow k ih => exact fun t => ih t (obeys t)
  | get key k ih => exact fun answer => ih answer (obeys answer)
  | set key value ttl k ih =>
      exact ⟨obeys.1, fun e => ih _ (obeys.2.1 e), ih _ obeys.2.2⟩
  | getCurrentTtl key k ih => exact fun answer => ih answer (obeys answer)
  | registerChild parent child k ih =>
      exact ⟨obeys.1, fun e => ih _ (obeys.2.1 e), ih _ obeys.2.2⟩
  | acquire key k ih => exact ⟨obeys.1, fun e => ih _ (obeys.2.1 e), ih _ obeys.2.2⟩
  | release key k ih => exact ⟨obeys.1, ih obeys.2⟩
  | yield item k ih => exact fun answer => ih answer (obeys answer)

theorem Obeys.forAwait {body : Y → Except Err (Option T)} {p : Prog Y T R A}
    {post : S → Except Err A → Prop} {s : S} (obeys : p.Obeys m post s) :
    (TreeKeyCache.forAwait body p).Obeys m post s := by
  induction p generalizing s with
  | ret result => exact obeys
  | dateNow k ih => exact fun t => ih t (obeys t)
  | get key k ih => exact fun answer => ih answer (obeys answer)
  | set key value ttl k ih =>
      exact ⟨obeys.1, fun e => ih _ (obeys.2.1 e), ih _ obeys.2.2⟩
  | getCurrentTtl key k ih => exact fun answer => ih answer (obeys answer)
  | registerChild parent child k ih =>
      exact ⟨obeys.1, fun e => ih _ (obeys.2.1 e), ih _ obeys.2.2⟩
  | acquire key k ih => exact ⟨obeys.1, fun e => ih _ (obeys.2.1 e), ih _ obeys.2.2⟩
  | release key k ih => exact ⟨obeys.1, ih obeys.2⟩
  | yield item k ih => exact ih (body item) (obeys (body item))

/-! ## Rules for runs that do not fail -/

section
variable {m} {s : S} {post : S → A → Prop} {next : S → B → Prop}

theorem Obeys.bindOk {p : Prog Y T R A} {f : A → Prog Y T R B} (middle : S → A → Prop)
    (first : p.Obeys m (onOk middle) s)
    (second : ∀ s a, middle s a → (f a).Obeys m (onOk next) s) :
    (p >>= f).Obeys m (onOk next) s := by
  apply Obeys.bind
  refine first.mono m fun s result reached => ?_
  cases result with
  | ok a => exact second s a (reached a rfl)
  | error e => exact fun b failed => (nomatch failed)

theorem Obeys.monoOk {p : Prog Y T R A} {post' : S → A → Prop}
    (weaker : ∀ s a, post s a → post' s a) (obeys : p.Obeys m (onOk post) s) :
    p.Obeys m (onOk post') s :=
  obeys.mono m fun s _ reached a same => weaker s a (reached a same)

theorem obeys_pure {a : A} (holds : post s a) : (pure a : Prog Y T R A).Obeys m (onOk post) s := by
  intro b same
  cases same
  exact holds

theorem obeys_ret {result : Except Err A} (holds : ∀ a, result = .ok a → post s a) :
    (ret result : Prog Y T R A).Obeys m (onOk post) s := holds

theorem obeys_storageSet {key : String} {value : R} {ttl : Option ℚ} {post : S → Unit → Prop}
    (permitted : m.permits s (.stored key value ttl))
    (holds : post (m.after s (.stored key value ttl)) ()) :
    (storageSet key value ttl : Prog Y T R Unit).Obeys m (onOk post) s :=
  ⟨permitted, fun _ => obeys_ret fun _ failed => (nomatch failed), obeys_pure holds⟩

theorem obeys_storageRegister {parent : Option String} {child : String} {post : S → Unit → Prop}
    (permitted : m.permits s (.registered parent child))
    (holds : post (m.after s (.registered parent child)) ()) :
    (storageRegister parent child : Prog Y T R Unit).Obeys m (onOk post) s :=
  ⟨permitted, fun _ => obeys_ret fun _ failed => (nomatch failed), obeys_pure holds⟩

end

/-! ## Programs that change nothing -/

def Quiet : Prog Y T R A → Prop
  | ret _ => True
  | dateNow k => ∀ t, (k t).Quiet
  | get _ k => ∀ answer, (k answer).Quiet
  | getCurrentTtl _ k => ∀ answer, (k answer).Quiet
  | yield _ k => ∀ answer, (k answer).Quiet
  | set _ _ _ _ => False
  | registerChild _ _ _ => False
  | acquire _ _ => False
  | release _ _ => False

theorem Quiet.bind {p : Prog Y T R A} {f : A → Prog Y T R B} (first : p.Quiet)
    (second : ∀ a, (f a).Quiet) : (p >>= f).Quiet := by
  induction p with
  | ret result =>
      cases result with
      | ok a => exact second a
      | error e => trivial
  | dateNow k ih => exact fun t => ih t (first t)
  | get key k ih => exact fun answer => ih answer (first answer)
  | getCurrentTtl key k ih => exact fun answer => ih answer (first answer)
  | yield item k ih => exact fun answer => ih answer (first answer)
  | set key value ttl k ih => exact first.elim
  | registerChild parent child k ih => exact first.elim
  | acquire key k ih => exact first.elim
  | release key k ih => exact first.elim

theorem quiet_ret (result : Except Err A) : (ret result : Prog Y T R A).Quiet := trivial

theorem quiet_yieldItem (item : Y) : (yieldItem item : Prog Y T R (Option T)).Quiet :=
  fun _ => trivial

theorem Quiet.obeys {m : Monitor S R} {s : S} {p : Prog Y T R A} (quiet : p.Quiet) :
    p.Obeys m (onOk fun s' _ => s' = s) s := by
  induction p with
  | ret result => exact fun _ _ => rfl
  | dateNow k ih => exact fun t => ih t (quiet t)
  | get key k ih => exact fun answer => ih answer (quiet answer)
  | getCurrentTtl key k ih => exact fun answer => ih answer (quiet answer)
  | yield item k ih => exact fun answer => ih answer (quiet answer)
  | set key value ttl k ih => exact quiet.elim
  | registerChild parent child k ih => exact quiet.elim
  | acquire key k ih => exact quiet.elim
  | release key k ih => exact quiet.elim

/-- A program that changes nothing leaves the monitor where it is. -/
theorem Quiet.thenOk {m : Monitor S R} {s : S} {next : S → B → Prop} {p : Prog Y T R A}
    {f : A → Prog Y T R B} (quiet : p.Quiet) (rest : ∀ a, (f a).Obeys m (onOk next) s) :
    (p >>= f).Obeys m (onOk next) s := by
  refine Obeys.bindOk (fun s' _ => s' = s) quiet.obeys ?_
  intro s' a same
  rw [same]
  exact rest a

theorem quiet_now : (now : Prog Y T R ℚ).Quiet := fun _ => trivial

theorem quiet_storageGet (key : String) : (storageGet key : Prog Y T R (Option R)).Quiet :=
  fun _ => trivial

theorem quiet_storageTtl (key : String) : (storageTtl key : Prog Y T R (Option ℚ)).Quiet :=
  fun _ => trivial

/-! ## Monitors that do not look at locks -/

section
variable {m} {s : S} {post : S → A → Prop}

structure LockBlind (m : Monitor S R) : Prop where
  permits_acquired : ∀ s key, m.permits s (.acquired key)
  permits_released : ∀ s key, m.permits s (.released key)
  after_acquired : ∀ s key, m.after s (.acquired key) = s
  after_released : ∀ s key, m.after s (.released key) = s

theorem LockBlind.acquire (blind : LockBlind m) (locked : Bool) (key : String) {p : Prog Y T R A}
    (obeys : p.Obeys m (onOk post) s) :
    (if locked then semaphoreAcquire key >>= fun _ => p else p).Obeys m (onOk post) s := by
  cases locked with
  | false => exact obeys
  | true =>
      refine ⟨blind.permits_acquired s key, fun _ => obeys_ret fun _ failed => (nomatch failed), ?_⟩
      rw [blind.after_acquired]
      exact obeys

theorem LockBlind.tryFinally (blind : LockBlind m) (locked : Bool) (key : String)
    {p : Prog Y T R A} (obeys : p.Obeys m (onOk post) s) :
    (p.tryFinally (if locked then dontWait key else pure ())).Obeys m (onOk post) s := by
  apply Obeys.tryFinally
  refine obeys.mono m fun s result reached => ?_
  cases locked with
  | false => exact reached
  | true =>
      refine ⟨blind.permits_released s key, ?_⟩
      rw [blind.after_released]
      exact reached

end

/-! ## Runs of monitored programs -/

/-- A relation between worlds and monitor states that permitted operations keep. -/
structure Tracks (m : Monitor S R) (related : World R → S → Prop) : Prop where
  stored : ∀ w s key value ttl, related w s → m.permits s (.stored key value ttl) →
    related (w.write key value ttl) (m.after s (.stored key value ttl))
  registered : ∀ w s parent child, related w s → m.permits s (.registered parent child) →
    related (w.register parent child) (m.after s (.registered parent child))
  acquired : ∀ w s key, related w s → related w (m.after s (.acquired key))
  released : ∀ w s key, related w s → related w (m.after s (.released key))

theorem Tracks.run {m : Monitor S R} {related : World R → S → Prop} (tracks : Tracks m related)
    (edit : Y → Option T) {p : Prog Y T R A} {post : S → Except Err A → Prop} :
    ∀ {s : S} {w : World R}, p.Obeys m post s → related w s →
      ∃ s', related (p.run edit w).world s' := by
  induction p with
  | ret result =>
      intro s w _ holds
      exact ⟨s, holds⟩
  | dateNow k ih =>
      intro s w obeys holds
      exact ih w.clock (obeys w.clock) holds
  | get key k ih =>
      intro s w obeys holds
      exact ih _ (obeys _) holds
  | set key value ttl k ih =>
      intro s w obeys holds
      exact ih _ obeys.2.2 (tracks.stored w s key value ttl holds obeys.1)
  | getCurrentTtl key k ih =>
      intro s w obeys holds
      exact ih _ (obeys _) holds
  | registerChild parent child k ih =>
      intro s w obeys holds
      exact ih _ obeys.2.2 (tracks.registered w s parent child holds obeys.1)
  | acquire key k ih =>
      intro s w obeys holds
      exact ih _ obeys.2.2 (tracks.acquired w s key holds)
  | release key k ih =>
      intro s w obeys holds
      exact ih obeys.2 (tracks.released w s key holds)
  | yield item k ih =>
      intro s w obeys holds
      exact ih _ (obeys _) holds

end Prog

end TreeKeyCache
