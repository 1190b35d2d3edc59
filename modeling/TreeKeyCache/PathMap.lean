import TreeKeyCache.PathSections
import Mathlib.Data.Set.Finite.Lattice
import Mathlib.Data.List.Infix

/-! # Finite maps from paths to values

What a cache is for: a finite map from paths to values.  Setting a node updates one
path.  Walking a path offers every prefix to a consumer, with a created value where
the map has none, and stores whatever the consumer leaves that is not undefined. -/
set_option autoImplicit false
namespace TreeKeyCache

variable {T : Type}

/-- The step offered for the node at `path` that holds `old`. -/
def offered (create : Option (ChainedObject → Option T)) (path : List String) (old : Option T) :
    Step T :=
  mountStep (nodeRefOf path) (old <|> create.bind fun f => f (nodeRefOf path))

/-- The value of a node after it was offered. -/
def applyEdit (create : Option (ChainedObject → Option T)) (edit : Step T → Option T)
    (path : List String) (old : Option T) : Option T :=
  edit (offered create path old) <|> old

structure PathMap (T : Type) where
  find : List String → Option T
  finite : {path | find path ≠ none}.Finite

namespace PathMap

def empty : PathMap T := ⟨fun _ => none, by simp⟩

def assign (m : PathMap T) (path : List String) (v : T) : PathMap T where
  find q := if q = path then some v else m.find q
  finite := by
    refine (m.finite.insert path).subset fun q held => ?_
    by_cases same : q = path
    · exact Or.inl same
    · rw [Set.mem_ofPred_eq, if_neg same] at held
      exact Or.inr held

def visit (m : PathMap T) (create : Option (ChainedObject → Option T)) (edit : Step T → Option T)
    (path : List String) : PathMap T where
  find q := if q ≠ [] ∧ q <+: path then applyEdit create edit q (m.find q) else m.find q
  finite := by
    refine (m.finite.union path.inits.toFinset.finite_toSet).subset fun q held => ?_
    by_cases onPath : q ≠ [] ∧ q <+: path
    · exact Or.inr (by simpa using onPath.2)
    · rw [Set.mem_ofPred_eq, if_neg onPath] at held
      exact Or.inl held

/-- The steps a walk along `path` offers. -/
def steps (m : PathMap T) (create : Option (ChainedObject → Option T)) (path : List String) :
    List (Step T) :=
  (nonemptyPrefixes path).map fun q => offered create q (m.find q)

@[ext] theorem ext (left right : PathMap T) (same : ∀ q, left.find q = right.find q) :
    left = right := by
  obtain ⟨f, _⟩ := left
  obtain ⟨g, _⟩ := right
  have : f = g := funext same
  subst this
  rfl

end PathMap

theorem applyEdit_setEdit (path q : List String) (v : T) (old : Option T) (nonempty : q ≠ [])
    (onPath : q <+: path) :
    applyEdit (some fun _ => none) (setEdit path.length v) q old =
      if q = path then some v else old := by
  have level : (offered (some fun _ => none) q old).level = q.length := by
    simp [offered, mountStep, nodeRefOf_level q nonempty]
  by_cases last : q = path
  · rw [if_pos last, applyEdit, setEdit, if_pos (by rw [level, last])]
    rfl
  · have shorter : q.length ≠ path.length := fun h => last (onPath.eq_of_length h)
    rw [if_neg last, applyEdit, setEdit, if_neg (by rw [level]; exact shorter)]
    cases old <;> rfl

theorem PathMap.visit_setEdit (m : PathMap T) (path : List String) (v : T) (nonempty : path ≠ []) :
    m.visit (some fun _ => none) (setEdit path.length v) path = m.assign path v := by
  ext1 q
  simp only [visit, assign]
  by_cases onPath : q ≠ [] ∧ q <+: path
  · rw [if_pos onPath, applyEdit_setEdit path q v _ onPath.1 onPath.2]
  · have other : q ≠ path := by
      rintro rfl
      exact onPath ⟨nonempty, List.prefix_refl q⟩
    rw [if_neg onPath, if_neg other]

end TreeKeyCache
