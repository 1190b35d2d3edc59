import TreeKeyCache.BasePaths
import TreeKeyCache.Versions

/-! # Iterating over the storage

`internalRandomIterate` and `randomIterate` (`internal/tree-internal-control.ts`,
`tree-key-cache.ts`) go through the keys that the storage enumerates, look each of them up as a
path, and walk the tree they find on the tree level. -/
set_option autoImplicit false
namespace TreeKeyCache

variable {T R : Type}

/-- A key that `storage.randomIterate` yields.  Its lookup and the walk over its tree read the
clock one after the other. -/
structure KeyVisit where
  key : String
  lookupTime : ℚ
  now : ℚ

def visitItems (keyLevelNodes : Nat) (iterateTreeLevel : Bool) (now : ℚ) (nodeRef : TraversalItem R) :
    List (TraversalItem R) :=
  if nodeRef.ref.level < keyLevelNodes ∨ iterateTreeLevel = false then [nodeRef]
  else treePreOrderBreadthFirstSearch now nodeRef.treeRef (some nodeRef.ref)

/-- The keys one after another; `lookup` is `getNodeRef`. -/
def internalRandomIterate (keyLevelNodes : Nat)
    (lookup : ℚ → List String → Except Err (Option (TraversalItem R))) (iterateTreeLevel : Bool) :
    List KeyVisit → Yielded (TraversalItem R)
  | [] => .done
  | visit :: rest =>
      match lookup visit.lookupTime (splitKey visit.key) with
      | .error e => ⟨[], some e⟩
      | .ok none => internalRandomIterate keyLevelNodes lookup iterateTreeLevel rest
      | .ok (some nodeRef) =>
          Yielded.append ⟨visitItems keyLevelNodes iterateTreeLevel visit.now nodeRef, none⟩
            (internalRandomIterate keyLevelNodes lookup iterateTreeLevel rest)

def randomIterate [SerializedForm R] (o : Options T R) (get : String → Option R)
    (visits : List KeyVisit) : Yielded (Step T) :=
  (internalRandomIterate o.keyLevelNodes (fun now path => getNodeRef o get now path false) true
    visits).map fun item => item.any.step o

def historyRandomIterate [SerializedForm R] (o : HistoryOptions T R) (storage : HistoryStorage R)
    (visits : List KeyVisit) : Yielded (Step T) :=
  (internalRandomIterate o.keyLevelNodes (historyNodeRef o storage) true visits).map
    fun item => mountStep item.ref (item.value.bind o.deserializeValue)

/-! ## One key after another -/

def foundItems (keyLevelNodes : Nat)
    (lookup : ℚ → List String → Option (TraversalItem R)) (visit : KeyVisit) :
    List (TraversalItem R) :=
  ((lookup visit.lookupTime (splitKey visit.key)).map
    (visitItems keyLevelNodes true visit.now)).getD []

theorem internalRandomIterate_ok (keyLevelNodes : Nat)
    (lookup : ℚ → List String → Except Err (Option (TraversalItem R)))
    (found : ℚ → List String → Option (TraversalItem R)) : ∀ visits : List KeyVisit,
      (∀ visit ∈ visits, lookup visit.lookupTime (splitKey visit.key) =
        .ok (found visit.lookupTime (splitKey visit.key))) →
      internalRandomIterate keyLevelNodes lookup true visits =
        ⟨visits.flatMap (foundItems keyLevelNodes found), none⟩ := by
  intro visits
  induction visits with
  | nil => exact fun _ => rfl
  | cons visit rest ih =>
      intro quiet
      have later := ih fun other member => quiet other (List.mem_cons_of_mem _ member)
      rw [internalRandomIterate, quiet visit List.mem_cons_self, List.flatMap_cons, foundItems]
      cases found visit.lookupTime (splitKey visit.key) with
      | none => exact later
      | some nodeRef =>
          simp only [later]
          rfl

end TreeKeyCache
