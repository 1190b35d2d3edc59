import TreeKeyCache.PositiveTtls
import TreeKeyCache.PruneInvisible
import TreeKeyCache.PruneRuns

/-! # Storages that answer like Redis

Asked for the ttl of a key that does not expire, Redis answers -1, and -2 for a key that it does
not have.  `prune` hands the answer on to `persistTree`, which takes any number but zero for a
ttl.  A run is one call after another; the writers of a `prune` interleave with one another and
with its pipeline, operations may be rejected, and a call may be left at any point. -/
set_option autoImplicit false
namespace TreeKeyCache

variable {Y T R A : Type}

/-! ## The storage -/

def World.Expires (w : World R) (key : String) : Prop :=
  match w.store key with
  | none => False
  | some entry => entry.liveAt w.clock ∧ entry.expiry.isSome = true

/-- What `getCurrentTtl` may answer: the ttl of a key that expires is positive or undefined. -/
def World.RedisTtl (w : World R) (key : String) (answer : Option ℚ) : Prop :=
  match w.store key with
  | none => answer = some (-2)
  | some entry =>
      if entry.liveAt w.clock then
        if entry.expiry.isSome then ValidTtl answer else answer = some (-1)
      else answer = some (-2)

instance (w : World R) (key : String) (answer : Option ℚ) : Decidable (w.RedisTtl key answer) := by
  unfold World.RedisTtl
  cases w.store key <;> infer_instance

theorem World.RedisTtl.cases {w : World R} {key : String} {answer : Option ℚ}
    (answers : w.RedisTtl key answer) :
    (w.Expires key ∧ ValidTtl answer) ∨
      (¬ w.Expires key ∧ ∃ seconds, answer = some seconds ∧ seconds < 0) := by
  unfold RedisTtl at answers
  unfold Expires
  cases held : w.store key with
  | none =>
      rw [held] at answers
      exact .inr ⟨id, -2, answers, by decide⟩
  | some entry =>
      rw [held] at answers
      dsimp only at answers ⊢
      split at answers
      case isTrue live =>
        split at answers
        case isTrue timed => exact .inl ⟨⟨live, timed⟩, answers⟩
        case isFalse untimed => exact .inr ⟨fun both => untimed both.2, -1, answers, by decide⟩
      case isFalse dead => exact .inr ⟨fun both => dead both.1, -2, answers, by decide⟩

/-! ## Runs -/

/-- An answer to `getCurrentTtl`, with the storage it was given in. -/
structure TtlAnswer (R : Type) where
  key : String
  world : World R
  answer : Option ℚ

/-- A call of `storage.set`, with the answers that its program had before. -/
structure HandedTtl (R : Type) where
  key : String
  ttl : Option ℚ
  asked : List (TtlAnswer R)
  prunes : Bool

structure Task (Y T R : Type) where
  prog : Prog Y T R Unit
  asked : List (TtlAnswer R)
  prunes : Bool

/-- What the storage and the consumer do at this point. -/
structure RedisReply (T : Type) where
  fails : Option Err
  ttl : Option ℚ
  value : Option T

namespace RedisReply

def answer {A : Type} (reply : RedisReply T) (a : A) : Except Err A :=
  match reply.fails with
  | some e => .error e
  | none => .ok a

end RedisReply

inductive RedisAction (T : Type) where
  | pull (reply : RedisReply T)
  | run (task : Nat) (reply : RedisReply T)
  | tick (time : ℚ)

structure CallRun (Y T R : Type) where
  world : World R
  tasks : List (Task Y T R)
  /-- The keys that the pipeline of `prune` has not come to, and the one it is reading. -/
  keys : List String
  reader : Prog Y T R (Option (String × Tree R))
  sets : List (HandedTtl R)

namespace CallRun

def resume (run : CallRun Y T R) (i : Nat) (task : Task Y T R) (prog : Prog Y T R Unit) :
    CallRun Y T R :=
  { run with tasks := run.tasks.set i { task with prog := prog } }

/-- The next operation of a task.  A rejected one changes nothing. -/
def advance (run : CallRun Y T R) (i : Nat) (task : Task Y T R) (reply : RedisReply T) :
    Option (CallRun Y T R) :=
  let changed (world : World R) : World R := if reply.fails.isSome then run.world else world
  match task.prog with
  | .ret _ => none
  | .dateNow k => some (run.resume i task (k run.world.clock))
  | .get key k => some (run.resume i task (k (reply.answer (run.world.read key))))
  | .set key v ttl k =>
      some ({ run with
        world := changed (run.world.write key v ttl)
        sets := run.sets ++ [HandedTtl.mk key ttl task.asked task.prunes] }.resume i task
          (k (reply.answer ())))
  | .getCurrentTtl key k =>
      match reply.fails with
      | some e => some (run.resume i task (k (.error e)))
      | none =>
          if run.world.RedisTtl key reply.ttl then
            some (run.resume i { task with asked := task.asked ++ [TtlAnswer.mk key run.world reply.ttl] }
              (k (.ok reply.ttl)))
          else none
  | .registerChild parent child k =>
      some ({ run with world := changed (run.world.register parent child) }.resume i task
        (k (reply.answer ())))
  | .acquire _ k => some (run.resume i task (k (reply.answer ())))
  | .release _ k => some (run.resume i task k)
  | .yield _ k => some (run.resume i task (k (reply.answer reply.value)))

/-- The next operation of the pipeline, as in `PruneRun.pull`. -/
def pull [SerializedForm R] (o : Options T R) (run : CallRun Y T R) (reply : RedisReply T) :
    Option (CallRun Y T R) :=
  match run.reader with
  | .ret (.ok none) =>
      match run.keys with
      | [] => none
      | key :: rest => some { run with keys := rest, reader := pruneRead o key }
  | .ret (.ok (some (chainedKey, tree))) =>
      some { run with
        tasks := run.tasks ++ [⟨pruneWrite o chainedKey tree, [], true⟩]
        reader := .ret (.ok none) }
  | .dateNow k => some { run with reader := k run.world.clock }
  | .get key k => some { run with reader := k (reply.answer (run.world.read key)) }
  | _ => none

def act [SerializedForm R] (o : Options T R) (run : CallRun Y T R) :
    RedisAction T → Option (CallRun Y T R)
  | .pull reply => run.pull o reply
  | .run i reply => run.tasks[i]?.bind fun task => run.advance i task reply
  | .tick t =>
      if run.world.clock ≤ t then some { run with world := { run.world with clock := t } } else none

def exec [SerializedForm R] (o : Options T R) (run : CallRun Y T R) :
    List (RedisAction T) → Option (CallRun Y T R)
  | [] => some run
  | action :: rest => (run.act o action).bind fun next => next.exec o rest

end CallRun

structure RedisSession (R : Type) where
  world : World R
  sets : List (HandedTtl R)

/-- A call of the cache.  The storage enumerates the keys of a `prune`. -/
inductive CacheCall (T : Type) where
  | setNode (path : List String) (value : Option (NodeValue T)) (ttl : Option (StepTtl T))
  | deepTreeSet (path : List String) (createValue : Option (CreateValue T)) (ttl : Option (StepTtl T))
      (previousKeys : List String) (minLevelSemaphore : Nat)
  | fullTreeSet (tree : Tree T) (createValue : CreateValue T) (minLevelSemaphore : Nat)
      (ttl : Option (StepTtl T))
  | prune (keys : List String)

namespace CacheCall

def ttl : CacheCall T → Option (StepTtl T)
  | setNode _ _ ttl => ttl
  | deepTreeSet _ _ ttl _ _ => ttl
  | fullTreeSet _ _ _ ttl => ttl
  | prune _ => none

def exec [SerializedForm R] (o : Options T R) (schedule : List (RedisAction T)) (s : RedisSession R)
    (call : CacheCall T) : Option (RedisSession R) :=
  let single {Y : Type} (prog : Prog Y T R Unit) : Option (RedisSession R) :=
    (CallRun.exec o ⟨s.world, [⟨prog, [], false⟩], [], .ret (.ok none), s.sets⟩ schedule).map
      fun run => ⟨run.world, run.sets⟩
  match call with
  | setNode path value ttl => single (TreeKeyCache.setNode o path value ttl)
  | deepTreeSet path createValue ttl previousKeys minLevelSemaphore =>
      single (TreeKeyCache.deepTreeSet o path createValue ttl previousKeys minLevelSemaphore)
  | fullTreeSet tree createValue minLevelSemaphore ttl =>
      single (TreeKeyCache.fullTreeSet o tree createValue minLevelSemaphore ttl)
  | prune keys =>
      (CallRun.exec o (⟨s.world, [], keys, .ret (.ok none), s.sets⟩ : CallRun (Step T) T R) schedule).map
        fun run => ⟨run.world, run.sets⟩

end CacheCall

/-- One call after the other, each with what happens meanwhile. -/
def execCacheCalls [SerializedForm R] (o : Options T R) :
    List (CacheCall T × List (RedisAction T)) → RedisSession R → Option (RedisSession R)
  | [], s => some s
  | (call, schedule) :: rest, s => (call.exec o schedule s).bind (execCacheCalls o rest)

/-! ## What a program hands over -/

namespace Prog

/-- Whatever is answered from here on, each ttl handed over stands in this relation to the answers
that the program had about ttls. -/
def Hands (allowed : List (TtlAnswer R) → Option ℚ → Prop) : Prog Y T R A → List (TtlAnswer R) → Prop
  | ret _, _ => True
  | dateNow k, asked => ∀ t, (k t).Hands allowed asked
  | get _ k, asked => ∀ answer, (k answer).Hands allowed asked
  | set _ _ ttl k, asked => allowed asked ttl ∧ ∀ answer, (k answer).Hands allowed asked
  | getCurrentTtl key k, asked => (∀ e, (k (.error e)).Hands allowed asked) ∧
      ∀ world answer, world.RedisTtl key answer →
        (k (.ok answer)).Hands allowed (asked ++ [⟨key, world, answer⟩])
  | registerChild _ _ k, asked => ∀ answer, (k answer).Hands allowed asked
  | acquire _ k, asked => ∀ answer, (k answer).Hands allowed asked
  | release _ k, asked => k.Hands allowed asked
  | yield _ k, asked => ∀ answer, (k answer).Hands allowed asked

theorem Obeys.hands {p : Prog Y T R A} {post : Unit → Except Err A → Prop} (asked : List (TtlAnswer R))
    (obeys : p.Obeys ttlMonitor post ()) : p.Hands (fun _ ttl => ValidTtl ttl) asked := by
  induction p generalizing asked with
  | ret result => trivial
  | dateNow k ih => exact fun t => ih t asked (obeys t)
  | get key k ih => exact fun answer => ih answer asked (obeys answer)
  | set key v ttl k ih =>
      refine ⟨obeys.1, fun answer => ih answer asked ?_⟩
      cases answer with
      | error e => exact obeys.2.1 e
      | ok done => exact obeys.2.2
  | getCurrentTtl key k ih =>
      exact ⟨fun e => ih _ asked (obeys _), fun world answer _ => ih _ _ (obeys _)⟩
  | registerChild parent child k ih =>
      intro answer
      apply ih answer asked
      cases answer with
      | error e => exact obeys.2.1 e
      | ok done => exact obeys.2.2
  | acquire key k ih =>
      intro answer
      apply ih answer asked
      cases answer with
      | error e => exact obeys.2.1 e
      | ok done => exact obeys.2.2
  | release key k ih => exact ih asked obeys.2
  | yield item k ih => exact fun answer => ih answer asked (obeys answer)

end Prog

/-- The key was going to expire when the program asked for its ttl, or it had a ttl when
`persistTree` asked again. -/
def KeptTtl : List (TtlAnswer R) → Prop
  | [] => True
  | first :: rest => first.world.Expires first.key ∨
      ∃ second ∈ rest.head?, ∃ seconds ∈ second.answer, 0 < seconds

theorem validTtl_max {seconds : ℚ} (second : Option ℚ) (negative : seconds < 0) :
    ValidTtl (match second with
      | none => some seconds
      | some current => (some seconds).map (max current)) ↔ ∃ current ∈ second, 0 < current := by
  cases second with
  | none =>
      constructor
      · exact fun valid => absurd (valid seconds rfl) (not_lt_of_gt negative)
      · rintro ⟨current, member, _⟩
        cases member
  | some current =>
      constructor
      · intro valid
        exact ⟨current, rfl, (lt_max_iff.mp (valid _ rfl)).resolve_right (not_lt_of_gt negative)⟩
      · rintro ⟨_, ⟨⟩, positive⟩ handed ⟨⟩
        exact lt_max_of_lt_left positive

theorem pruneWrite_hands [SerializedForm R] (o : Options T R) (key : String) (tree : Tree R) :
    (pruneWrite o key tree : Prog Y T R Unit).Hands
      (fun asked ttl => ValidTtl ttl ↔ KeptTtl asked) [] := by
  have last : ∀ (maxTtl : Option ℚ) (asked : List (TtlAnswer R)), (ValidTtl maxTtl ↔ KeptTtl asked) →
      ((Prog.ret (o.treeSerializer.serialize tree) >>= fun serialized =>
        Prog.storageSet key serialized maxTtl) >>= fun _ => Prog.dontWait key : Prog Y T R Unit).Hands
          (fun asked ttl => ValidTtl ttl ↔ KeptTtl asked) asked := by
    intro maxTtl asked same
    cases o.treeSerializer.serialize tree with
    | error e => trivial
    | ok serialized =>
        refine ⟨same, fun answer => ?_⟩
        cases answer <;> trivial
  intro acquired
  cases acquired with
  | error e => trivial
  | ok held =>
      refine ⟨fun e => trivial, fun world answer answers => ?_⟩
      change (persistTree o key answer tree >>= fun _ => Prog.dontWait key).Hands _ _
      unfold persistTree
      by_cases timed : truthyNumber answer = true
      · simp only [if_pos timed, Prog.pure_eq, Prog.ret_ok_bind]
        refine ⟨fun e => trivial, fun world' again _ => last _ _ ?_⟩
        rcases answers.cases with ⟨expires, valid⟩ | ⟨stays, seconds, rfl, negative⟩
        · exact ⟨fun _ => .inl expires, fun _ => valid.max again⟩
        · refine (validTtl_max again negative).trans ?_
          constructor
          · exact fun positive => .inr ⟨_, rfl, positive⟩
          · rintro (expires | ⟨_, ⟨⟩, positive⟩)
            · exact absurd expires stays
            · exact positive
      · simp only [if_neg timed, Prog.pure_eq, Prog.ret_ok_bind]
        apply last
        rcases answers.cases with ⟨expires, _⟩ | ⟨_, seconds, rfl, negative⟩
        · exact ⟨fun _ => .inl expires, fun _ => validTtl_none⟩
        · exact absurd (decide_eq_true (ne_of_lt negative)) timed

/-! ## Whole runs -/

/-- A writer of `prune` hands over a valid ttl exactly where the key kept one, others always do. -/
def allowedOf (prunes : Bool) (asked : List (TtlAnswer R)) (ttl : Option ℚ) : Prop :=
  ValidTtl ttl ↔ (prunes = true → KeptTtl asked)

theorem allowedOf_true : allowedOf (R := R) true = fun asked ttl => ValidTtl ttl ↔ KeptTtl asked := by
  funext asked ttl
  simp [allowedOf]

theorem allowedOf_false : allowedOf (R := R) false = fun _ ttl => ValidTtl ttl := by
  funext asked ttl
  simp [allowedOf]

structure Telling (run : CallRun Y T R) : Prop where
  tasks : ∀ task ∈ run.tasks, task.prog.Hands (allowedOf task.prunes) task.asked
  sets : ∀ call ∈ run.sets, allowedOf call.prunes call.asked call.ttl

namespace Telling

variable {run next : CallRun Y T R}

theorem resume (telling : Telling run) {i : Nat} {task : Task Y T R} {prog : Prog Y T R Unit}
    (hands : prog.Hands (allowedOf task.prunes) task.asked) : Telling (run.resume i task prog) := by
  refine ⟨?_, telling.sets⟩
  intro other member
  rcases List.mem_or_eq_of_mem_set member with old | new
  · exact telling.tasks other old
  · rw [new]
    exact hands

theorem advance (telling : Telling run) {i : Nat} {task : Task Y T R} {reply : RedisReply T}
    (found : run.tasks[i]? = some task) (advanced : run.advance i task reply = some next) :
    Telling next := by
  have hands := telling.tasks task (List.mem_of_getElem? found)
  unfold CallRun.advance at advanced
  cases prog : task.prog with
  | ret result =>
      rw [prog] at advanced
      cases advanced
  | dateNow k =>
      rw [prog] at advanced hands
      cases advanced
      exact telling.resume (hands _)
  | get key k =>
      rw [prog] at advanced hands
      cases advanced
      exact telling.resume (hands _)
  | set key v ttl k =>
      rw [prog] at advanced hands
      cases advanced
      have told : Telling { run with
          world := if reply.fails.isSome then run.world else run.world.write key v ttl
          sets := run.sets ++ [⟨key, ttl, task.asked, task.prunes⟩] } := by
        refine ⟨telling.tasks, ?_⟩
        intro call member
        rcases List.mem_append.mp member with old | new
        · exact telling.sets call old
        · rw [List.mem_singleton.mp new]
          exact hands.1
      exact told.resume (hands.2 _)
  | getCurrentTtl key k =>
      rw [prog] at advanced hands
      dsimp only at advanced
      cases fails : reply.fails with
      | some e =>
          rw [fails] at advanced
          cases advanced
          exact telling.resume (hands.1 e)
      | none =>
          rw [fails] at advanced
          dsimp only at advanced
          split at advanced
          case isTrue answers =>
            cases advanced
            let asker : Task Y T R :=
              { task with asked := task.asked ++ [⟨key, run.world, reply.ttl⟩] }
            have later : (k (.ok reply.ttl)).Hands (allowedOf asker.prunes) asker.asked :=
              hands.2 _ _ answers
            exact telling.resume later
          case isFalse => cases advanced
  | registerChild parent child k =>
      rw [prog] at advanced hands
      cases advanced
      have told : Telling { run with
          world := if reply.fails.isSome then run.world else run.world.register parent child } :=
        ⟨telling.tasks, telling.sets⟩
      exact told.resume (hands _)
  | acquire key k =>
      rw [prog] at advanced hands
      cases advanced
      exact telling.resume (hands _)
  | release key k =>
      rw [prog] at advanced hands
      cases advanced
      exact telling.resume hands
  | yield item k =>
      rw [prog] at advanced hands
      cases advanced
      exact telling.resume (hands _)

theorem pull [SerializedForm R] (telling : Telling run) {o : Options T R} {reply : RedisReply T}
    (pulled : run.pull o reply = some next) : Telling next := by
  unfold CallRun.pull at pulled
  split at pulled
  · split at pulled
    · cases pulled
    · cases pulled
      exact ⟨telling.tasks, telling.sets⟩
  · cases pulled
    refine ⟨?_, telling.sets⟩
    intro task member
    rcases List.mem_append.mp member with old | new
    · exact telling.tasks task old
    · rw [List.mem_singleton.mp new, allowedOf_true]
      exact pruneWrite_hands o _ _
  · cases pulled
    exact ⟨telling.tasks, telling.sets⟩
  · cases pulled
    exact ⟨telling.tasks, telling.sets⟩
  · cases pulled

theorem act [SerializedForm R] (telling : Telling run) {o : Options T R} {action : RedisAction T}
    (acted : run.act o action = some next) : Telling next := by
  cases action with
  | pull reply => exact telling.pull acted
  | run i reply =>
      obtain ⟨task, found, advanced⟩ := Option.bind_eq_some_iff.mp acted
      exact telling.advance found advanced
  | tick t =>
      rw [CallRun.act] at acted
      split at acted
      · cases acted
        exact ⟨telling.tasks, telling.sets⟩
      · cases acted

theorem exec [SerializedForm R] {o : Options T R} : ∀ (schedule : List (RedisAction T))
    {run final : CallRun Y T R}, Telling run → run.exec o schedule = some final → Telling final := by
  intro schedule
  induction schedule with
  | nil =>
      intro run final telling ran
      cases ran
      exact telling
  | cons action rest ih =>
      intro run final telling ran
      obtain ⟨next, acted, later⟩ := Option.bind_eq_some_iff.mp ran
      exact ih (telling.act acted) later

end Telling

section
variable [SerializedForm R] (o : Options T R)

theorem exec_single {prog : Prog Y T R Unit} {s s' : RedisSession R} {schedule : List (RedisAction T)}
    (obeys : prog.Obeys ttlMonitor (Prog.onOk fun _ _ => True) ())
    (before : ∀ call ∈ s.sets, allowedOf call.prunes call.asked call.ttl)
    (ran : (CallRun.exec o ⟨s.world, [⟨prog, [], false⟩], [], .ret (.ok none), s.sets⟩ schedule).map
      (fun run => (⟨run.world, run.sets⟩ : RedisSession R)) = some s') :
    ∀ call ∈ s'.sets, allowedOf call.prunes call.asked call.ttl := by
  obtain ⟨final, executed, rfl⟩ := Option.map_eq_some_iff.mp ran
  refine (Telling.exec schedule ⟨?_, before⟩ executed).sets
  intro task member
  rw [List.mem_singleton.mp member, allowedOf_false]
  exact obeys.hands []

theorem CacheCall.exec_allowed {call : CacheCall T} {s s' : RedisSession R}
    {schedule : List (RedisAction T)} (positive : PositiveTtl call.ttl)
    (before : ∀ call ∈ s.sets, allowedOf call.prunes call.asked call.ttl)
    (ran : call.exec o schedule s = some s') :
    ∀ call ∈ s'.sets, allowedOf call.prunes call.asked call.ttl := by
  cases call with
  | setNode path value ttl => exact exec_single o (setNode_ttlMonitor o positive path value) before ran
  | deepTreeSet path createValue ttl previousKeys minLevelSemaphore =>
      exact exec_single o (deepTreeSet_ttlMonitor o positive path createValue previousKeys
        minLevelSemaphore) before ran
  | fullTreeSet tree createValue minLevelSemaphore ttl =>
      exact exec_single o (fullTreeSet_ttlMonitor o positive tree createValue minLevelSemaphore) before
        ran
  | prune keys =>
      obtain ⟨final, executed, rfl⟩ := Option.map_eq_some_iff.mp ran
      exact (Telling.exec schedule ⟨fun task member => absurd member List.not_mem_nil, before⟩
        executed).sets

theorem execCacheCalls_allowed : ∀ (calls : List (CacheCall T × List (RedisAction T)))
    {s final : RedisSession R}, (∀ call ∈ calls, PositiveTtl call.1.ttl) →
      (∀ call ∈ s.sets, allowedOf call.prunes call.asked call.ttl) →
        execCacheCalls o calls s = some final →
          ∀ call ∈ final.sets, allowedOf call.prunes call.asked call.ttl := by
  intro calls
  induction calls with
  | nil =>
      intro s final _ before ran
      cases ran
      exact before
  | cons first rest ih =>
      intro s final positive before ran
      obtain ⟨call, schedule⟩ := first
      obtain ⟨next, executed, later⟩ := Option.bind_eq_some_iff.mp ran
      exact ih (fun other member => positive other (List.mem_cons_of_mem _ member))
        (CacheCall.exec_allowed o (positive _ List.mem_cons_self) before executed) later

/-- Valid ttls reach the storage exactly as long as `prune` writes back keys that expire. -/
theorem setTtls_valid_iff (w : World R) (calls : List (CacheCall T × List (RedisAction T)))
    (positive : ∀ call ∈ calls, PositiveTtl call.1.ttl) (final : RedisSession R)
    (ran : execCacheCalls o calls ⟨w, []⟩ = some final) :
    (∀ call ∈ final.sets, ValidTtl call.ttl) ↔
      ∀ call ∈ final.sets, call.prunes = true → KeptTtl call.asked := by
  have allowed := execCacheCalls_allowed o calls positive
    (fun call member => absurd member List.not_mem_nil) ran
  constructor
  · exact fun valid call member => (allowed call member).mp (valid call member)
  · exact fun kept call member => (allowed call member).mpr (kept call member)

end

def answersTtl (ttl : Option ℚ) : RedisReply Nat := ⟨none, ttl, some 3⟩

/-- `prune` of one key, whose writer asks twice for its ttl. -/
def pruneAnswered (first second : ℚ) : CacheCall Nat × List (RedisAction Nat) :=
  (.prune ["a:b"], List.replicate 5 (.pull (answersTtl none)) ++
    [.run 0 (answersTtl none), .run 0 (answersTtl (some first)), .run 0 (answersTtl (some second)),
      .run 0 (answersTtl none), .run 0 (answersTtl none)])

def expiringWorld : World String :=
  ⟨fun key => if key = "a:b" then some ⟨Text.encodeTree staleTree, some 4010⟩ else none, 10, []⟩

/-- A node is stored for five seconds, and then the tree is pruned. -/
def storedThenPruned : List (CacheCall Nat × List (RedisAction Nat)) :=
  [(.setNode ["a"] (some (.value 3)) (some (.seconds 5)), List.replicate 4 (.run 0 (answersTtl none))),
    pruneAnswered 4 4]

def expiringSession : RedisSession String :=
  (execCacheCalls (Text.options 2).toOptions storedThenPruned ⟨expiringWorld, []⟩).getD
    ⟨expiringWorld, []⟩

theorem setTtls_valid_storedThenPruned :
    ((∀ call ∈ expiringSession.sets, ValidTtl call.ttl) ↔
      ∀ call ∈ expiringSession.sets, call.prunes = true → KeptTtl call.asked) ∧
    expiringSession.sets.map (fun call => (call.key, call.ttl)) = [("a", some 5), ("a:b", some 4)] := by
  have ends : (execCacheCalls (Text.options 2).toOptions storedThenPruned
      ⟨expiringWorld, []⟩).isSome = true := by decide +kernel
  obtain ⟨final, ran⟩ := Option.isSome_iff_exists.mp ends
  have same : expiringSession = final := by rw [expiringSession, ran, Option.getD_some]
  refine ⟨?_, by decide +kernel⟩
  rw [same]
  refine setTtls_valid_iff (Text.options 2).toOptions expiringWorld storedThenPruned ?_ final ran
  intro call member step
  rcases List.mem_cons.mp member with rfl | later
  · exact fun seconds handed => Option.some.inj handed ▸ (by decide)
  · rw [List.mem_singleton.mp later]
    exact validTtl_none

/-- The tree under a key that does not expire is pruned. -/
theorem prune_hands_negative_ttl :
    ¬ ∀ (calls : List (CacheCall Nat × List (RedisAction Nat))) (final : RedisSession String),
      (∀ call ∈ calls, PositiveTtl call.1.ttl) →
        execCacheCalls (Text.options 2).toOptions calls ⟨staleWorld, []⟩ = some final →
          ∀ call ∈ final.sets, ValidTtl call.ttl := by
  intro valid
  have handed : (execCacheCalls (Text.options 2).toOptions [pruneAnswered (-1) (-1)]
      ⟨staleWorld, []⟩).map (fun s => s.sets.map HandedTtl.ttl) = some [some (-1)] := by decide +kernel
  obtain ⟨final, ran, ttls⟩ := Option.map_eq_some_iff.mp handed
  have untimed : ∀ call ∈ [pruneAnswered (-1) (-1)], PositiveTtl call.1.ttl := by
    intro call member step
    rw [List.mem_singleton.mp member]
    exact validTtl_none
  obtain ⟨call, member, ttl⟩ := List.mem_map.mp (ttls ▸ List.mem_singleton_self (some (-1 : ℚ)))
  have positive := valid _ final untimed ran call member (-1) ttl
  exact absurd positive (by decide)

end TreeKeyCache
