import TreeKeyCache.Types
import Mathlib.Algebra.Order.Field.Rat

/-! # Programs of storage operations

The writers are async generators: between two awaits nothing else of theirs runs,
and at each await another operation may.  A `Prog` is such a computation as a tree
of the operations it awaits, each continued on whatever the environment answers
(a rejected operation answers an error).  `run` executes a program alone against a
storage whose operations succeed, at one instant, with a consumer that assigns
`edit item` to the value of each yielded item and asks for the next one. -/
set_option autoImplicit false
namespace TreeKeyCache

variable {Y T R A B C : Type}

inductive Prog (Y T R A : Type) where
  | ret (result : Except Err A)
  | dateNow (next : ℚ → Prog Y T R A)
  | get (key : String) (next : Except Err (Option R) → Prog Y T R A)
  | set (key : String) (value : R) (ttl : Option ℚ) (next : Except Err Unit → Prog Y T R A)
  | getCurrentTtl (key : String) (next : Except Err (Option ℚ) → Prog Y T R A)
  | registerChild (parentKey : Option String) (partialKey : String)
      (next : Except Err Unit → Prog Y T R A)
  | acquire (key : String) (next : Except Err Unit → Prog Y T R A)
  /-- `dontWait(release)`: the release function is scheduled, not awaited. -/
  | release (key : String) (next : Prog Y T R A)
  /-- `yield item`, answered with the value the consumer left in the item. -/
  | yield (item : Y) (next : Except Err (Option T) → Prog Y T R A)

namespace Prog

def bind : Prog Y T R A → (A → Prog Y T R B) → Prog Y T R B
  | ret (.ok a), f => f a
  | ret (.error e), _ => ret (.error e)
  | dateNow k, f => dateNow fun t => (k t).bind f
  | get key k, f => get key fun r => (k r).bind f
  | set key v ttl k, f => set key v ttl fun r => (k r).bind f
  | getCurrentTtl key k, f => getCurrentTtl key fun r => (k r).bind f
  | registerChild p c k, f => registerChild p c fun r => (k r).bind f
  | acquire key k, f => acquire key fun r => (k r).bind f
  | release key k, f => release key (k.bind f)
  | yield y k, f => yield y fun r => (k r).bind f

instance : Monad (Prog Y T R) where
  pure a := ret (.ok a)
  bind := bind

/-- `try { body } finally { last }`, where `last` cannot fail. -/
def tryFinally : Prog Y T R A → Prog Y T R Unit → Prog Y T R A
  | ret result, last => last >>= fun _ => ret result
  | dateNow k, last => dateNow fun t => (k t).tryFinally last
  | get key k, last => get key fun r => (k r).tryFinally last
  | set key v ttl k, last => set key v ttl fun r => (k r).tryFinally last
  | getCurrentTtl key k, last => getCurrentTtl key fun r => (k r).tryFinally last
  | registerChild p c k, last => registerChild p c fun r => (k r).tryFinally last
  | acquire key k, last => acquire key fun r => (k r).tryFinally last
  | release key k, last => release key (k.tryFinally last)
  | yield y k, last => yield y fun r => (k r).tryFinally last

/-! ## The operations as statements -/

def now : Prog Y T R ℚ := dateNow fun t => ret (.ok t)
def storageGet (key : String) : Prog Y T R (Option R) := get key ret
def storageSet (key : String) (value : R) (ttl : Option ℚ) : Prog Y T R Unit := set key value ttl ret
def storageTtl (key : String) : Prog Y T R (Option ℚ) := getCurrentTtl key ret
def storageRegister (parentKey : Option String) (partialKey : String) : Prog Y T R Unit :=
  registerChild parentKey partialKey ret
def semaphoreAcquire (key : String) : Prog Y T R Unit := acquire key ret
def dontWait (key : String) : Prog Y T R Unit := release key (ret (.ok ()))
def yieldItem (item : Y) : Prog Y T R (Option T) := yield item ret

@[simp] theorem pure_eq (a : A) : (pure a : Prog Y T R A) = ret (.ok a) := rfl
@[simp] theorem ret_ok_bind (a : A) (f : A → Prog Y T R B) : (ret (.ok a) >>= f) = f a := rfl
@[simp] theorem ret_error_bind (e : Err) (f : A → Prog Y T R B) :
    (ret (.error e) >>= f) = ret (.error e) := rfl
@[simp] theorem dateNow_bind (k : ℚ → Prog Y T R A) (f : A → Prog Y T R B) :
    (dateNow k >>= f) = dateNow fun t => k t >>= f := rfl
@[simp] theorem get_bind (key : String) (k : Except Err (Option R) → Prog Y T R A)
    (f : A → Prog Y T R B) : (get key k >>= f) = get key fun r => k r >>= f := rfl
@[simp] theorem set_bind (key : String) (v : R) (ttl : Option ℚ)
    (k : Except Err Unit → Prog Y T R A) (f : A → Prog Y T R B) :
    (set key v ttl k >>= f) = set key v ttl fun r => k r >>= f := rfl
@[simp] theorem getCurrentTtl_bind (key : String) (k : Except Err (Option ℚ) → Prog Y T R A)
    (f : A → Prog Y T R B) :
    (getCurrentTtl key k >>= f) = getCurrentTtl key fun r => k r >>= f := rfl
@[simp] theorem registerChild_bind (p : Option String) (c : String)
    (k : Except Err Unit → Prog Y T R A) (f : A → Prog Y T R B) :
    (registerChild p c k >>= f) = registerChild p c fun r => k r >>= f := rfl
@[simp] theorem acquire_bind (key : String) (k : Except Err Unit → Prog Y T R A)
    (f : A → Prog Y T R B) : (acquire key k >>= f) = acquire key fun r => k r >>= f := rfl
@[simp] theorem release_bind (key : String) (k : Prog Y T R A) (f : A → Prog Y T R B) :
    (release key k >>= f) = release key (k >>= f) := rfl
@[simp] theorem yield_bind (y : Y) (k : Except Err (Option T) → Prog Y T R A)
    (f : A → Prog Y T R B) : (yield y k >>= f) = yield y fun r => k r >>= f := rfl

theorem bind_assoc (p : Prog Y T R A) (f : A → Prog Y T R B) (g : B → Prog Y T R C) :
    (p >>= f) >>= g = p >>= fun a => f a >>= g := by
  induction p with
  | ret result =>
      cases result with
      | ok a => rfl
      | error e => rfl
  | dateNow k ih => simp only [dateNow_bind, ih]
  | get key k ih => simp only [get_bind, ih]
  | set key v ttl k ih => simp only [set_bind, ih]
  | getCurrentTtl key k ih => simp only [getCurrentTtl_bind, ih]
  | registerChild p c k ih => simp only [registerChild_bind, ih]
  | acquire key k ih => simp only [acquire_bind, ih]
  | release key k ih => simp only [release_bind, ih]
  | yield y k ih => simp only [yield_bind, ih]

theorem bind_ret (p : Prog Y T R A) : (p >>= fun a => ret (.ok a)) = p := by
  induction p with
  | ret result =>
      cases result with
      | ok a => rfl
      | error e => rfl
  | dateNow k ih => simp only [dateNow_bind, ih]
  | get key k ih => simp only [get_bind, ih]
  | set key v ttl k ih => simp only [set_bind, ih]
  | getCurrentTtl key k ih => simp only [getCurrentTtl_bind, ih]
  | registerChild p c k ih => simp only [registerChild_bind, ih]
  | acquire key k ih => simp only [acquire_bind, ih]
  | release key k ih => simp only [release_bind, ih]
  | yield y k ih => simp only [yield_bind, ih]

end Prog

/-! ## The storage -/

/-- A stored entry and the instant from which the storage no longer has it. -/
structure Entry (R : Type) where
  content : R
  expiry : Option ℚ

/-- The contents of the storage, the clock, and the pairs passed to `registerChild`. -/
structure World (R : Type) where
  store : String → Option (Entry R)
  clock : ℚ
  registry : List (Option String × String)

def Entry.liveAt (entry : Entry R) (t : ℚ) : Prop :=
  match entry.expiry with
  | none => True
  | some e => t < e

instance (entry : Entry R) (t : ℚ) : Decidable (entry.liveAt t) := by
  unfold Entry.liveAt
  cases entry.expiry <;> infer_instance

namespace World

def emptyAt (t : ℚ) : World R := ⟨fun _ => none, t, []⟩

/-- What `storage.get` answers at time `t`. -/
def readAt (w : World R) (t : ℚ) (key : String) : Option R :=
  match w.store key with
  | none => none
  | some entry => if entry.liveAt t then some entry.content else none

def read (w : World R) (key : String) : Option R := w.readAt w.clock key

/-- `storage.set`: the key keeps `value` for exactly `ttl` seconds. -/
def write (w : World R) (key : String) (value : R) (ttl : Option ℚ) : World R :=
  let entry : Entry R := ⟨value, ttl.map fun s => w.clock + s * 1000⟩
  { w with store := Function.update w.store key (some entry) }

/-- `storage.getCurrentTtl`: the remaining seconds of a key that expires. -/
def currentTtl (w : World R) (key : String) : Option ℚ :=
  match w.store key with
  | none => none
  | some entry => if entry.liveAt w.clock then entry.expiry.map fun e => (e - w.clock) / 1000
      else none

def register (w : World R) (parentKey : Option String) (partialKey : String) : World R :=
  { w with registry := w.registry ++ [(parentKey, partialKey)] }

@[simp] theorem write_clock (w : World R) (key : String) (v : R) (ttl : Option ℚ) :
    (w.write key v ttl).clock = w.clock := rfl
@[simp] theorem write_registry (w : World R) (key : String) (v : R) (ttl : Option ℚ) :
    (w.write key v ttl).registry = w.registry := rfl
@[simp] theorem register_store (w : World R) (p : Option String) (c : String) :
    (w.register p c).store = w.store := rfl
@[simp] theorem register_clock (w : World R) (p : Option String) (c : String) :
    (w.register p c).clock = w.clock := rfl

end World

/-! ## Running a program alone -/

structure Outcome (Y R A : Type) where
  result : Except Err A
  world : World R
  yielded : List Y

namespace Prog

def run (edit : Y → Option T) : Prog Y T R A → World R → Outcome Y R A
  | ret result, w => ⟨result, w, []⟩
  | dateNow k, w => (k w.clock).run edit w
  | get key k, w => (k (.ok (w.read key))).run edit w
  | set key v ttl k, w => (k (.ok ())).run edit (w.write key v ttl)
  | getCurrentTtl key k, w => (k (.ok (w.currentTtl key))).run edit w
  | registerChild p c k, w => (k (.ok ())).run edit (w.register p c)
  | acquire _ k, w => (k (.ok ())).run edit w
  | release _ k, w => k.run edit w
  | yield y k, w =>
      let rest := (k (.ok (edit y))).run edit w
      { rest with yielded := y :: rest.yielded }

end Prog

end TreeKeyCache
