import TreeKeyCache.Write

/-! # Programs in an environment

An environment says how each operation may be answered in a state, and in which state it
leaves the program: storages that reject, consumers that throw or break off, time that
passes.  `Runs` are the runs of a program to its end, and `Wp` is the weakest precondition
of a property of every run, with a rule for each statement programs are written with. -/
set_option autoImplicit false
namespace TreeKeyCache

variable {S Y T R A B : Type}

structure Environment (S Y T R : Type) where
  dateNow : S → ℚ → S → Prop
  get : S → String → Except Err (Option R) → S → Prop
  set : S → String → R → Option ℚ → Except Err Unit → S → Prop
  getCurrentTtl : S → String → Except Err (Option ℚ) → S → Prop
  registerChild : S → Option String → String → Except Err Unit → S → Prop
  acquire : S → String → Except Err Unit → S → Prop
  release : S → String → S → Prop
  yield : S → Y → Except Err (Option T) → S → Prop

/-- The consumer is `body`. -/
def Environment.consuming (env : Environment S Y T R) (body : Y → Except Err (Option T)) :
    Environment S Y T R :=
  { env with yield := fun s item answer s' => answer = body item ∧ s' = s }

namespace Prog

inductive Runs (env : Environment S Y T R) : Prog Y T R A → S → Except Err A → S → Prop where
  | ret (result : Except Err A) (s : S) : Runs env (.ret result) s result s
  | dateNow {k : ℚ → Prog Y T R A} {s s' s'' : S} {result : Except Err A} (t : ℚ)
      (answered : env.dateNow s t s') (rest : Runs env (k t) s' result s'') :
      Runs env (.dateNow k) s result s''
  | get {key : String} {k : Except Err (Option R) → Prog Y T R A} {s s' s'' : S}
      {result : Except Err A} (answer : Except Err (Option R)) (answered : env.get s key answer s')
      (rest : Runs env (k answer) s' result s'') : Runs env (.get key k) s result s''
  | set {key : String} {value : R} {ttl : Option ℚ} {k : Except Err Unit → Prog Y T R A}
      {s s' s'' : S} {result : Except Err A} (answer : Except Err Unit)
      (answered : env.set s key value ttl answer s') (rest : Runs env (k answer) s' result s'') :
      Runs env (.set key value ttl k) s result s''
  | getCurrentTtl {key : String} {k : Except Err (Option ℚ) → Prog Y T R A} {s s' s'' : S}
      {result : Except Err A} (answer : Except Err (Option ℚ))
      (answered : env.getCurrentTtl s key answer s') (rest : Runs env (k answer) s' result s'') :
      Runs env (.getCurrentTtl key k) s result s''
  | registerChild {parent : Option String} {child : String} {k : Except Err Unit → Prog Y T R A}
      {s s' s'' : S} {result : Except Err A} (answer : Except Err Unit)
      (answered : env.registerChild s parent child answer s')
      (rest : Runs env (k answer) s' result s'') : Runs env (.registerChild parent child k) s result s''
  | acquire {key : String} {k : Except Err Unit → Prog Y T R A} {s s' s'' : S}
      {result : Except Err A} (answer : Except Err Unit) (answered : env.acquire s key answer s')
      (rest : Runs env (k answer) s' result s'') : Runs env (.acquire key k) s result s''
  | release {key : String} {k : Prog Y T R A} {s s' s'' : S} {result : Except Err A}
      (answered : env.release s key s') (rest : Runs env k s' result s'') :
      Runs env (.release key k) s result s''
  | yield {item : Y} {k : Except Err (Option T) → Prog Y T R A} {s s' s'' : S}
      {result : Except Err A} (answer : Except Err (Option T)) (answered : env.yield s item answer s')
      (rest : Runs env (k answer) s' result s'') : Runs env (.yield item k) s result s''

def Wp (env : Environment S Y T R) : Prog Y T R A → (S → Except Err A → Prop) → S → Prop
  | .ret result, post, s => post s result
  | .dateNow k, post, s => ∀ t s', env.dateNow s t s' → (k t).Wp env post s'
  | .get key k, post, s => ∀ answer s', env.get s key answer s' → (k answer).Wp env post s'
  | .set key value ttl k, post, s =>
      ∀ answer s', env.set s key value ttl answer s' → (k answer).Wp env post s'
  | .getCurrentTtl key k, post, s =>
      ∀ answer s', env.getCurrentTtl s key answer s' → (k answer).Wp env post s'
  | .registerChild parent child k, post, s =>
      ∀ answer s', env.registerChild s parent child answer s' → (k answer).Wp env post s'
  | .acquire key k, post, s => ∀ answer s', env.acquire s key answer s' → (k answer).Wp env post s'
  | .release key k, post, s => ∀ s', env.release s key s' → k.Wp env post s'
  | .yield item k, post, s => ∀ answer s', env.yield s item answer s' → (k answer).Wp env post s'

variable {env : Environment S Y T R} {s : S}

theorem Wp.sound {p : Prog Y T R A} {post : S → Except Err A → Prop} {result : Except Err A} {s' : S}
    (holds : p.Wp env post s) (runs : p.Runs env s result s') : post s' result := by
  induction runs with
  | ret result s => exact holds
  | dateNow t answered _ ih => exact ih (holds t _ answered)
  | get answer answered _ ih => exact ih (holds answer _ answered)
  | set answer answered _ ih => exact ih (holds answer _ answered)
  | getCurrentTtl answer answered _ ih => exact ih (holds answer _ answered)
  | registerChild answer answered _ ih => exact ih (holds answer _ answered)
  | acquire answer answered _ ih => exact ih (holds answer _ answered)
  | release answered _ ih => exact ih (holds _ answered)
  | yield answer answered _ ih => exact ih (holds answer _ answered)

theorem Wp.mono {p : Prog Y T R A} {post post' : S → Except Err A → Prop}
    (weaker : ∀ s result, post s result → post' s result) (holds : p.Wp env post s) :
    p.Wp env post' s := by
  induction p generalizing s with
  | ret result => exact weaker s result holds
  | dateNow k ih => exact fun t s' answered => ih t (holds t s' answered)
  | get key k ih => exact fun answer s' answered => ih answer (holds answer s' answered)
  | set key value ttl k ih => exact fun answer s' answered => ih answer (holds answer s' answered)
  | getCurrentTtl key k ih => exact fun answer s' answered => ih answer (holds answer s' answered)
  | registerChild parent child k ih =>
      exact fun answer s' answered => ih answer (holds answer s' answered)
  | acquire key k ih => exact fun answer s' answered => ih answer (holds answer s' answered)
  | release key k ih => exact fun s' answered => ih (holds s' answered)
  | yield item k ih => exact fun answer s' answered => ih answer (holds answer s' answered)

theorem Wp.bind {p : Prog Y T R A} {f : A → Prog Y T R B} {post : S → Except Err B → Prop}
    (holds : p.Wp env (fun s result => match result with
      | .ok a => (f a).Wp env post s
      | .error e => post s (.error e)) s) : (p >>= f).Wp env post s := by
  induction p generalizing s with
  | ret result =>
      cases result with
      | ok a => exact holds
      | error e => exact holds
  | dateNow k ih => exact fun t s' answered => ih t (holds t s' answered)
  | get key k ih => exact fun answer s' answered => ih answer (holds answer s' answered)
  | set key value ttl k ih => exact fun answer s' answered => ih answer (holds answer s' answered)
  | getCurrentTtl key k ih => exact fun answer s' answered => ih answer (holds answer s' answered)
  | registerChild parent child k ih =>
      exact fun answer s' answered => ih answer (holds answer s' answered)
  | acquire key k ih => exact fun answer s' answered => ih answer (holds answer s' answered)
  | release key k ih => exact fun s' answered => ih (holds s' answered)
  | yield item k ih => exact fun answer s' answered => ih answer (holds answer s' answered)

/-- Sequencing, with what is known at the end of the first program. -/
theorem Wp.seq {p : Prog Y T R A} {f : A → Prog Y T R B} {post : S → Except Err B → Prop}
    (middle : S → Except Err A → Prop) (first : p.Wp env middle s)
    (failed : ∀ s e, middle s (.error e) → post s (.error e))
    (second : ∀ s a, middle s (.ok a) → (f a).Wp env post s) : (p >>= f).Wp env post s := by
  apply Wp.bind
  refine first.mono fun s result reached => ?_
  cases result with
  | ok a => exact second s a reached
  | error e => exact failed s e reached

theorem Wp.tryFinally {p : Prog Y T R A} {last : Prog Y T R Unit} {post : S → Except Err A → Prop}
    (holds : p.Wp env (fun s result => (last >>= fun _ => .ret result).Wp env post s) s) :
    (p.tryFinally last).Wp env post s := by
  induction p generalizing s with
  | ret result => exact holds
  | dateNow k ih => exact fun t s' answered => ih t (holds t s' answered)
  | get key k ih => exact fun answer s' answered => ih answer (holds answer s' answered)
  | set key value ttl k ih => exact fun answer s' answered => ih answer (holds answer s' answered)
  | getCurrentTtl key k ih => exact fun answer s' answered => ih answer (holds answer s' answered)
  | registerChild parent child k ih =>
      exact fun answer s' answered => ih answer (holds answer s' answered)
  | acquire key k ih => exact fun answer s' answered => ih answer (holds answer s' answered)
  | release key k ih => exact fun s' answered => ih (holds s' answered)
  | yield item k ih => exact fun answer s' answered => ih answer (holds answer s' answered)

theorem Wp.forAwait {body : Y → Except Err (Option T)} {p : Prog Y T R A}
    {post : S → Except Err A → Prop} (holds : p.Wp (env.consuming body) post s) :
    (TreeKeyCache.forAwait body p).Wp env post s := by
  induction p generalizing s with
  | ret result => exact holds
  | dateNow k ih => exact fun t s' answered => ih t (holds t s' answered)
  | get key k ih => exact fun answer s' answered => ih answer (holds answer s' answered)
  | set key value ttl k ih => exact fun answer s' answered => ih answer (holds answer s' answered)
  | getCurrentTtl key k ih => exact fun answer s' answered => ih answer (holds answer s' answered)
  | registerChild parent child k ih =>
      exact fun answer s' answered => ih answer (holds answer s' answered)
  | acquire key k ih => exact fun answer s' answered => ih answer (holds answer s' answered)
  | release key k ih => exact fun s' answered => ih (holds s' answered)
  | yield item k ih => exact ih (body item) (holds (body item) s ⟨rfl, rfl⟩)

end Prog

end TreeKeyCache
