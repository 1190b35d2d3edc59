import TreeKeyCache.Contracts

/-! # The children registry under concurrency

A writer registers the way to a key before it writes the key, and the registry only grows, so
it is complete at every moment of every interleaving: other writers, a run of `prune`, rejected
operations and throwing consumers do not matter. -/
set_option autoImplicit false
namespace TreeKeyCache

open Prog

variable {Y T R A : Type}

/-- Pairs that have been registered, and keys that have been stored. -/
structure Listed where
  registry : Registry
  stored : List String

/-- Writes go to keys that can be found, or that were there already. -/
def registryContract : Contract Listed R where
  hears _ _ _ := True
  learns s key content := match content with
    | none => s
    | some _ => { s with stored := key :: s.stored }
  stores s key _ _ := Registered s.registry key ∨ key ∈ s.stored
  registers _ _ _ := True
  registered s parent child := { s with registry := s.registry ++ [(parent, child)] }

section
variable [SerializedForm R] (o : Options T R)

omit [SerializedForm R] in
theorem Prog.Obeys.registryContract {p : Prog Y T R A} {post : Registry → A → Prop} {s : Listed}
    (obeys : p.Obeys registryMonitor (onOk post) s.registry) :
    p.Ensures TreeKeyCache.registryContract (fun _ _ => True) s := by
  refine (obeys.ensures Listed.registry ?_ ?_ ?_ ?_ registryMonitor_lockBlind ?_).mono
    fun _ _ _ => trivial
  · exact fun _ _ _ _ listed => .inl listed
  · exact fun _ _ _ _ => rfl
  · exact fun _ _ _ => trivial
  · exact fun _ _ _ => rfl
  · intro s key content
    cases content with
    | none => rfl
    | some _ => rfl

/-- The call as a thread; its consumer is part of it. -/
def WriterCall.thread : WriterCall T R → Thread (AnyItem T R) T R
  | .setNode path value ttl =>
      ⟨fun _ => none, (TreeKeyCache.setNode o path value ttl).mapItem .inl⟩
  | .deepTreeSet path createValue ttl minLevelSemaphore consumer =>
      ⟨fun _ => none, (forAwait consumer
        (TreeKeyCache.deepTreeSet o path createValue ttl [] minLevelSemaphore)).mapItem .inl⟩
  | .fullTreeSet tree createValue minLevelSemaphore ttl consumer =>
      ⟨fun _ => none, (forAwait consumer
        (TreeKeyCache.fullTreeSet o tree createValue minLevelSemaphore ttl)).mapItem .inr⟩

theorem WriterCall.registers (twoLevels : 2 ≤ o.keyLevelNodes) (call : WriterCall T R)
    (proper : call.ProperKeys) {registry : Registry} (meets : call.Meets o.keyLevelNodes registry) :
    (call.thread o).prog.Ensures registryContract (fun _ _ => True) ⟨registry, []⟩ := by
  cases call with
  | setNode path value ttl =>
      exact (Obeys.registryContract (s := ⟨registry, []⟩)
        (setNode_obeys o ttl twoLevels proper meets value)).mapItem _
  | deepTreeSet path createValue ttl minLevelSemaphore consumer =>
      exact (Obeys.registryContract (s := ⟨registry, []⟩)
        (deepTreeSet_obeys o createValue ttl minLevelSemaphore twoLevels proper meets)).forAwait.mapItem _
  | fullTreeSet tree createValue minLevelSemaphore ttl consumer =>
      exact (Obeys.registryContract (s := ⟨registry, []⟩)
        (fullTreeSet_obeys o createValue ttl minLevelSemaphore tree proper meets)).forAwait.mapItem _

end

end TreeKeyCache
