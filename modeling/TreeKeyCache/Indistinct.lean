import TreeKeyCache.BasePaths

/-! # Storages that a search cannot tell apart

A search over the storage depends on the children of the storage nodes it comes to.  Two
storages that agree on these are searched alike, up to where the search throws. -/
set_option autoImplicit false
namespace TreeKeyCache

variable {T R A B : Type}

/-! ## Loops that may throw -/

theorem collect_congr (f g : B → Except Err (Option A)) : ∀ list : List B,
    (∀ b ∈ list, f b = g b) → Yielded.collect f list = Yielded.collect g list := by
  intro list
  induction list with
  | nil => exact fun _ => rfl
  | cons b rest ih =>
      intro agree
      rw [Yielded.collect, Yielded.collect, agree b List.mem_cons_self,
        ih fun other member => agree other (List.mem_cons_of_mem _ member)]

theorem mem_collect {f : B → Except Err (Option A)} {a : A} : ∀ {list : List B},
    a ∈ (Yielded.collect f list).items → ∃ b ∈ list, f b = .ok (some a) := by
  intro list
  induction list with
  | nil =>
      intro listed
      cases listed
  | cons b rest ih =>
      intro listed
      rw [Yielded.collect] at listed
      have later : a ∈ (Yielded.collect f rest).items → ∃ b' ∈ b :: rest, f b' = .ok (some a) := by
        intro member
        obtain ⟨b', inside, found⟩ := ih member
        exact ⟨b', List.mem_cons_of_mem _ inside, found⟩
      cases found : f b with
      | error e =>
          rw [found] at listed
          cases listed
      | ok outcome =>
          rw [found] at listed
          cases outcome with
          | none => exact later listed
          | some first =>
              rcases List.mem_cons.mp listed with rfl | member
              · exact ⟨b, List.mem_cons_self, found⟩
              · exact later member

theorem collect_error {f : B → Except Err (Option A)} {b : B} {e : Err} (throws : f b = .error e) :
    ∀ {list : List B}, b ∈ list → (Yielded.collect f list).error ≠ none := by
  intro list
  induction list with
  | nil =>
      intro listed
      cases listed
  | cons first rest ih =>
      intro listed
      rw [Yielded.collect]
      cases found : f first with
      | error e' => exact Option.some_ne_none e'
      | ok outcome =>
          have later : b ∈ rest := by
            rcases List.mem_cons.mp listed with rfl | member
            · rw [throws] at found
              cases found
            · exact member
          cases outcome with
          | none => exact ih later
          | some a => exact ih later

theorem append_error {first later : Yielded A} (throws : later.error ≠ none) :
    (first.append later).error ≠ none := by
  rw [Yielded.append]
  cases first.error with
  | some e => exact Option.some_ne_none e
  | none => exact throws

theorem append_error_left {first later : Yielded A} (throws : first.error ≠ none) :
    (first.append later).error ≠ none := by
  obtain ⟨e, found⟩ := Option.ne_none_iff_exists'.mp throws
  rw [Yielded.append, found]
  exact Option.some_ne_none e

/-! ## Two storages that a search cannot tell apart -/

/-- What is asked of the storage nodes among the trees. -/
def AnyTree.Meets (Q : AsyncTreeRef R → Prop) : AnyTree R → Prop
  | sync _ => True
  | async ref => Q ref

/-- The nodes a search comes to have the same children in both. -/
structure Indistinct (o : Options T R) (storage storage' : ReadStorage R)
    (Q : AsyncTreeRef R → Prop) : Prop where
  same : ∀ ref, Q ref → ref.children o storage = ref.children o storage'
  handed : ∀ ref, Q ref → ∀ found ∈ (ref.children o storage).items, found.2.Meets Q

namespace Indistinct
variable {o : Options T R} {storage storage' : ReadStorage R} {Q : AsyncTreeRef R → Prop}
  (indistinct : Indistinct o storage storage' Q)
include indistinct

theorem kids {tree : AnyTree R} (meets : tree.Meets Q) :
    ∀ found ∈ tree.kids o storage, found.2.Meets Q := by
  cases tree with
  | sync tree =>
      intro found listed
      obtain ⟨child, _, rfl⟩ := List.mem_map.mp listed
      trivial
  | async ref => exact indistinct.handed ref meets

theorem asyncVisit_eq : ∀ (rounds : Nat) (list : AsyncSimpleList (AnyPending R)),
    (∀ entry ∈ list.contents, entry.treeRef.Meets Q) →
      asyncVisit o storage rounds list = asyncVisit o storage' rounds list := by
  intro rounds
  induction rounds with
  | zero => exact fun list _ => rfl
  | succ rounds ih =>
      intro list all
      rw [asyncVisit, asyncVisit]
      by_cases empty : list.length = 0
      · rw [if_pos empty, if_pos empty]
      · rw [if_neg empty, if_neg empty]
        cases popped : list.pop with
        | error e => rfl
        | ok outcome =>
            obtain ⟨first, list'⟩ := outcome
            cases first with
            | none => rfl
            | some first =>
                obtain ⟨listed, kept⟩ := list.pop_mem list' first popped
                have meets := all first listed
                have pushes : first.pushChildren o storage list' =
                    first.pushChildren o storage' list' := by
                  obtain ⟨treeRef, level, key, parentRef⟩ := first
                  cases treeRef with
                  | sync tree => rfl
                  | async ref =>
                      rw [AnyPending.pushChildren, AnyPending.pushChildren]
                      simp only [indistinct.same ref meets]
                simp only [← pushes]
                cases pushed : first.pushChildren o storage list' with
                | error e => rfl
                | ok list'' =>
                    have rest := ih list'' (fun next member => by
                      rcases first.pushChildren_mem o storage list' list'' pushed next member with
                        old | ⟨found, kid, rfl⟩
                      · exact all next (kept next old)
                      · exact indistinct.kids meets found kid)
                    simp only [rest]

theorem postOrder_eq (now : ℚ) : ∀ (rounds : Nat) (tree : AnyTree R) (parentRef : Option ChainedObject)
    (key : Option String), tree.Meets Q →
      asyncTreePostOrderTraversalRecursive o storage now rounds tree parentRef key =
        asyncTreePostOrderTraversalRecursive o storage' now rounds tree parentRef key := by
  have below : ∀ (f g : String × AnyTree R → Yielded (AnyTraversalItem R))
      (list : List (String × AnyTree R)), (∀ found ∈ list, f found = g found) →
        yieldAll f list = yieldAll g list := by
    intro f g list
    induction list with
    | nil => exact fun _ => rfl
    | cons found list ih =>
        intro agree
        rw [yieldAll, yieldAll, agree found List.mem_cons_self,
          ih fun other member => agree other (List.mem_cons_of_mem _ member)]
  intro rounds
  induction rounds with
  | zero => exact fun tree parentRef key _ => rfl
  | succ rounds ih =>
      intro tree parentRef key meets
      cases tree with
      | sync tree =>
          rw [asyncTreePostOrderTraversalRecursive, asyncTreePostOrderTraversalRecursive]
          dsimp only
          congr 1
          apply below
          intro found listed
          apply ih
          obtain ⟨entry, _, made⟩ := List.mem_filterMap.mp listed
          obtain ⟨child, _, rfl⟩ := Option.map_eq_some_iff.mp made
          trivial
      | async ref =>
          rw [asyncTreePostOrderTraversalRecursive, asyncTreePostOrderTraversalRecursive]
          rw [← indistinct.same ref meets]
          congr 1
          apply below
          intro found listed
          exact ih _ _ _ (indistinct.handed ref meets found listed)

theorem search_eq (rounds : Nat) (now : ℚ) (tree : AnyTree R) (meets : tree.Meets Q)
    (parentRef : Option ChainedObject) (search : Search) :
    search.async o storage rounds now tree parentRef =
      search.async o storage' rounds now tree parentRef := by
  have preOrder : ∀ list : AsyncSimpleList (AnyPending R), list.contents = [] →
      asyncTreePreOrderTraversal o storage rounds now tree list parentRef =
        asyncTreePreOrderTraversal o storage' rounds now tree list parentRef := by
    intro list empty
    rw [asyncTreePreOrderTraversal, asyncTreePreOrderTraversal]
    rw [indistinct.asyncVisit_eq rounds _ fun entry member => by
      rw [AsyncSimpleList.mem_push, empty] at member
      rcases member with none | rfl
      · cases none
      · exact meets]
  have postOrder : asyncTreePostOrderTraversal o storage rounds now tree parentRef =
      asyncTreePostOrderTraversal o storage' rounds now tree parentRef := by
    rw [asyncTreePostOrderTraversal, asyncTreePostOrderTraversal,
      indistinct.postOrder_eq now rounds tree parentRef none meets]
  cases search with
  | preOrderBreadthFirst => exact preOrder _ rfl
  | preOrderDepthFirst => exact preOrder _ rfl
  | postOrderBreadthFirst => exact postOrder
  | postOrderDepthFirst => exact postOrder

end Indistinct

/-! ## Nodes above the tree level -/

section
variable (o : Options T R) {getChildren : Option String → List String}

/-- A storage node at a path of colon-free keys above the tree level. -/
def OnKeyLevel (ref : AsyncTreeRef R) : Prop :=
  ∃ p : List String, ref.nodeRef = chainOf p ∧ p.length < o.keyLevelNodes ∧ ∀ key ∈ p, ColonFree key

theorem childAt_at {ref : AsyncTreeRef R} {p : List String} (here : ref.nodeRef = chainOf p)
    (storage : ReadStorage R) (item : String) :
    ref.childAt o storage item =
      if p.length + 1 < o.keyLevelNodes then
        .ok (some (item, .async ⟨chainOf (p ++ [item]), storage.get (joinKeys (p ++ [item]))⟩))
      else
        match storage.get (joinKeys (p ++ [item])) with
        | none => .ok none
        | some serialized =>
            if o.keyLevelNodes < p.length + 1 then .error (.error "Something went wrong")
            else (do
              let tree ← o.treeSerializer.deserialize serialized
              pure (some (item, .sync tree))) := by
  have level : ref.level = p.length := by
    rw [AsyncTreeRef.level, here]
    exact chainOf_level p
  have key : buildKey (ChainedObject.ofParent item (p.length + 1) (chainOf p)) =
      joinKeys (p ++ [item]) := by
    rw [← nodeRefOf_append_singleton, buildKey_nodeRefOf _ (by simp)]
  rewrite [AsyncTreeRef.childAt, level, here, chainOf_append_singleton, key]
  rfl

theorem colonFree_child (names : ∀ parent, ∀ item ∈ getChildren parent, ColonFree item)
    {p : List String} (colonFree : ∀ key ∈ p, ColonFree key) {parent : Option String} {item : String}
    (listed : item ∈ getChildren parent) : ∀ key ∈ p ++ [item], ColonFree key := by
  intro key member
  rcases List.mem_append.mp member with old | new
  · exact colonFree key old
  · rw [List.mem_singleton.mp new]
    exact names parent item listed

/-- Only the entries of registered children matter. -/
theorem indistinct_of_agree (names : ∀ parent, ∀ item ∈ getChildren parent, ColonFree item)
    (get get' : String → Option R)
    (agree : ∀ (ref : AsyncTreeRef R) p, ref.nodeRef = chainOf p → p.length < o.keyLevelNodes →
      (∀ key ∈ p, ColonFree key) → ∀ item ∈ getChildren ((chainOf p).map buildKey),
        ref.childAt o ⟨get, some getChildren⟩ item = ref.childAt o ⟨get', some getChildren⟩ item) :
    Indistinct o ⟨get, some getChildren⟩ ⟨get', some getChildren⟩ (OnKeyLevel o) := by
  constructor
  · intro ref onLevel
    obtain ⟨p, here, above, colonFree⟩ := onLevel
    rw [AsyncTreeRef.children, AsyncTreeRef.children]
    apply collect_congr
    intro item listed
    rw [here] at listed
    exact agree ref p here above colonFree item listed
  · intro ref onLevel found listed
    obtain ⟨p, here, above, colonFree⟩ := onLevel
    obtain ⟨item, member, made⟩ := mem_collect listed
    rw [childAt_at o here] at made
    split at made
    · rename_i keyLevel
      obtain rfl := Option.some.inj (Except.ok.inj made)
      refine ⟨p ++ [item], rfl, ?_, colonFree_child names colonFree member⟩
      rw [List.length_append, List.length_singleton]
      exact keyLevel
    · split at made
      · cases made
      · split at made
        · cases made
        · simp only [bind, Except.bind] at made
          split at made
          · cases made
          · obtain rfl := Option.some.inj (Except.ok.inj made)
            trivial

end

end TreeKeyCache
