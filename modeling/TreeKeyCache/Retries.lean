import TreeKeyCache.InterruptedRuns

/-! # Retried runs

A run of `deepTreeSet` that failed may have edited a beginning of its path.  When it is made again,
once or often, afterwards or at the same time, an edit that may be repeated is there as if it had been
made once. -/
set_option autoImplicit false
namespace TreeKeyCache

variable {T R : Type} [SerializedForm R]

section
variable {o : LawfulOptions T R} {runs : List (DeepRun T)} {q : List String}

variable {g : Option T → Option T} (repeatable : ∀ v, g (g v) = g v)
  (alike : ∀ run ∈ runs, q <+: run.path → ∀ v, applyEdit run.createValue run.edit q v = g v)
include repeatable alike

end

def Prog.returned {Y A : Type} : Prog Y T R A → Bool
  | .ret (.ok _) => true
  | _ => false

end TreeKeyCache
