import TreeKeyCache.Calls
import TreeKeyCache.InheritedKeys
import Mathlib.Tactic.Linarith
import Mathlib.Tactic.NormNum

/-! # How long a written node lives

A node of the tree carries its own deadline, and the key it is stored under expires no
earlier: `setNode` with a ttl gives the key the larger of the ttl and the one it has.  A
node whose serialized value does not change is not written, and keeps the life it has. -/
set_option autoImplicit false
namespace TreeKeyCache

variable {T R : Type} [SerializedForm R]

section
variable (o : LawfulOptions T R)

/-! ## Walks with a ttl -/

section
variable (create : Option (ChainedObject → Option T)) (edit : Step T → Option T)

end

/-! ## The keys of a call

A path whose first key is not empty has an entry of its own on every level, under the joined
keys.  The other keys may be empty, and any key may contain the separator. -/

theorem setEdit_last (path : List String) (v : T) (nonempty : path ≠ []) (old : Option R) :
    setEdit path.length v (present o.toOptions (some fun _ => none) (nodeRefOf path) old) =
      some v := by
  rw [setEdit, if_pos]
  exact nodeRefOf_level path nonempty

section
variable (path : List String) (v : T) (seconds : ℚ)

end

/-! ## Lives -/

theorem truthy?_encode (v : T) : truthy? (some (o.encode v)) = some (o.encode v) :=
  Option.filter_some_pos (o.truthy_value v)

section
variable {w : World R} {path : List String} (v : T) {seconds : ℚ}

end

end

end TreeKeyCache
