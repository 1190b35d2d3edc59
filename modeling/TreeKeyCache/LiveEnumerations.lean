import TreeKeyCache.ConcurrentEnumerations

/-! # Enumerations beside the writers

An enumeration takes its time.  Each key is read at a moment of its own, and so is each list of
children, while calls and `prune` go on.  A node that is there all the time is shown once, and nothing
is shown that was not there at any time. -/
set_option autoImplicit false
namespace TreeKeyCache

variable {T R : Type} [SerializedForm R]

/-! ## What an enumeration shows of a time -/

section
variable {o : Options T R} {get : String → Option R} {moment : World R → Prop}

end

/-! ## The iteration over the keys -/

/-- A key that `storage.randomIterate` yields, with the storage as it is when the key is read. -/
structure LiveVisit (R : Type) where
  visit : KeyVisit
  held : World R

section
variable {o : Options T R}

structure LiveVisit.Plain (o : Options T R) (live : LiveVisit R) : Prop where
  store : PlainStore o live.held.read
  short : (splitKey live.visit.key).length ≤ o.keyLevelNodes

end

/-! ## The traversals -/

section
variable {o : Options T R} {get get' : String → Option R} {getChildren : Option String → List String}

end

/-! ## The moments of a run -/

section
variable (o : LawfulOptions T R) (w : World R) (calls : List (WriterCall T R)) (keys : List String)
  (before during : List (FaultyPruneAction T))

end

/-! The iteration reads `a:b` before the calls begin and `a`, which they write, after them. -/

section
variable (o : LawfulOptions T R) (w : World R) (calls : List (WriterCall T R)) (keys : List String)
  (before during : List (FaultyPruneAction T))

end

end TreeKeyCache
