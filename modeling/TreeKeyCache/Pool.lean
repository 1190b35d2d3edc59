import TreeKeyCache.Sections
import TreeKeyCache.Lib.SharedCells

/-! # Concurrent runs

A pool of programs over one storage.  An action lets one program perform its next
operation, lets a scheduled release take effect, or lets time pass; a schedule is any
list of actions.  The semaphore excludes per key: an acquire has to wait until the key
is free, and a released key becomes free only when the scheduled release runs. -/
set_option autoImplicit false
namespace TreeKeyCache

open SharedCells (Lock)

variable {Y T R : Type}

/-- A program and the consumer of what it yields. -/
structure Thread (Y T R : Type) where
  consumer : Y → Option T
  prog : Prog Y T R Unit

structure Pool (Y T R : Type) where
  world : World R
  locks : String → Lock Nat
  threads : List (Thread Y T R)
  /-- The acquisitions so far, oldest first: the thread and the key. -/
  acquired : List (Nat × String)

inductive Action where
  | run (thread : Nat)
  | fire (key : String)
  | tick (time : ℚ)

namespace Pool

def start (w : World R) (threads : List (Thread Y T R)) : Pool Y T R :=
  ⟨w, fun _ => .free, threads, []⟩

def resume (p : Pool Y T R) (i : Nat) (thread : Thread Y T R) (prog : Prog Y T R Unit) :
    Pool Y T R :=
  { p with threads := p.threads.set i { thread with prog := prog } }

/-- The next operation of thread `i`; none when it has ended or has to wait. -/
def advance (p : Pool Y T R) (i : Nat) (thread : Thread Y T R) : Option (Pool Y T R) :=
  match thread.prog with
  | .ret _ => none
  | .dateNow k => some (p.resume i thread (k p.world.clock))
  | .get key k => some (p.resume i thread (k (.ok (p.world.read key))))
  | .set key v ttl k =>
      some ({ p with world := p.world.write key v ttl }.resume i thread (k (.ok ())))
  | .getCurrentTtl key k => some (p.resume i thread (k (.ok (p.world.currentTtl key))))
  | .registerChild parent child k =>
      some ({ p with world := p.world.register parent child }.resume i thread (k (.ok ())))
  | .acquire key k =>
      if p.locks key = .free then
        some ({ p with
          locks := Function.update p.locks key (.held i)
          acquired := p.acquired ++ [(i, key)] }.resume i thread (k (.ok ())))
      else none
  | .release key k =>
      some ({ p with locks := Function.update p.locks key .releasing }.resume i thread k)
  | .yield item k => some (p.resume i thread (k (.ok (thread.consumer item))))

def act (p : Pool Y T R) : Action → Option (Pool Y T R)
  | .run i => p.threads[i]?.bind (p.advance i)
  | .fire key =>
      if p.locks key = .releasing then some { p with locks := Function.update p.locks key .free }
      else none
  | .tick t =>
      if p.world.clock ≤ t then some { p with world := { p.world with clock := t } } else none

def exec (p : Pool Y T R) : List Action → Option (Pool Y T R)
  | [] => some p
  | action :: rest => (p.act action).bind fun next => next.exec rest

def finished (p : Pool Y T R) : Bool :=
  p.threads.all fun thread => match thread.prog with
    | .ret _ => true
    | _ => false

end Pool

end TreeKeyCache
