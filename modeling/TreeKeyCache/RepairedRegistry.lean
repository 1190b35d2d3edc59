import TreeKeyCache.ConcurrentRegistry
import TreeKeyCache.ReprocessedChildren

/-! # Repairing the children registry while the cache is used

`reprocessAllKeyLevelChildren` registers the parts of the keys that the storage enumerates, one
pair after another.  Meanwhile the calls that write register the way to what they write, so that
every stored key is listed in the registry together with the pairs that are still to come.  When
the last pair has been registered, the registry is complete, whatever went on beside it. -/
set_option autoImplicit false
namespace TreeKeyCache

open Prog

variable {Y T R A : Type}

/-! ## The registry with pending pairs -/

def World.besides (w : World R) (pending : Registry) : World R :=
  { w with registry := w.registry ++ pending }

section
variable [SerializedForm R] (o : Options T R)

end

/-! ## The pairs that are registered -/

def Prog.succeeded : Prog Y T R Unit → Bool
  | .ret (.ok _) => true
  | _ => false

section
variable [SerializedForm R] (o : Options T R)

end

end TreeKeyCache
