import TreeKeyCache.TypedStorage

/-! # Enumerations of a busy storage

Whatever writers and `prune` have done and wherever they stand, the storage is well typed and
its registry is complete.  So the iteration over the keys and the traversals over the registry
that the writers themselves have kept show the stored nodes at every moment, without
`reprocessAllKeyLevelChildren`. -/
set_option autoImplicit false
namespace TreeKeyCache

open Prog

variable {T R : Type} [SerializedForm R]

section
variable {o : LawfulOptions T R} {w : World R}

theorem TypedStore.plainStore (typed : TypedStore o w)
    (truthyTrees : ∀ tree, SerializedForm.truthy (o.encodeTree tree) = true) :
    PlainStore o.toOptions w.read where
  short key stored := by
    obtain ⟨r, read⟩ := Option.ne_none_iff_exists'.mp stored
    exact (typed.content read).short
  parts key stored := by
    obtain ⟨r, read⟩ := Option.ne_none_iff_exists'.mp stored
    exact (typed.content read).parts
  decodes key r read level := by
    obtain ⟨tree, typedTree, rfl⟩ := (typed.content read).tree level
    exact (o.deserialize_tree tree typedTree.wellFormed).imp fun _ => And.left
  truthy key r read := by
    have content := typed.content read
    rcases content.short.lt_or_eq with above | level
    · obtain ⟨v, rfl⟩ := content.value above
      exact o.truthy_value v
    · obtain ⟨tree, _, rfl⟩ := content.tree level
      exact truthyTrees tree
  truthyValues key r tree read level decoded q node v found held := by
    have typedTree := (typed.content read).decoded level decoded
    have label : (tree.labelAt q).value = some v := by
      rw [Tree.labelAt, found]
      exact held
    obtain ⟨v', rfl⟩ := typedTree.encoded q v label
    exact o.truthy_value v'

omit [SerializedForm R] in
theorem RegistryComplete.listsKeys (complete : RegistryComplete w)
    {getChildren : Option String → List String} (kept : EnumeratesChildren getChildren w.registry) :
    ListsKeys w.read getChildren := by
  intro key stored front next rest split
  obtain ⟨r, read⟩ := Option.ne_none_iff_exists'.mp stored
  have present : w.store key ≠ none :=
    ne_of_eq_of_ne (World.store_of_read w key r read) (Option.some_ne_none _)
  exact ((kept (parentKey front)).2 next).mpr (complete key present front next rest split)

end

/-- The storage of the busy run. -/
def busyWorld : World String := (typedWorld.write "a" (Text.encodeNat 1) none).register (some "a") "b"

theorem enumeratesKeys_busyWorld : EnumeratesKeys busyWorld.read ["a", "a:b"] := by
  refine ⟨by decide, fun key => ?_⟩
  constructor
  · intro listed
    rcases List.mem_pair.mp listed with rfl | rfl <;> decide +kernel
  · intro present
    by_contra absent
    have apart := not_or.mp (List.mem_pair.not.mp absent)
    refine present ?_
    show entryRead (Function.update typedWorld.store "a" _ key) _ = none
    rw [Function.update_of_ne apart.1, typedWorld]
    dsimp only
    rw [if_neg apart.2]
    rfl

end TreeKeyCache
