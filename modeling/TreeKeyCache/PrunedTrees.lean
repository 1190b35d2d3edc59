import TreeKeyCache.PrunePipeline

/-! # What is left of a pruned tree

`pruneTree` is compared with a description of its result that knows nothing of the stack of
maps: a node keeps its label if it is live, and its place if its branch holds a live node. -/
set_option autoImplicit false
namespace TreeKeyCache

variable {R : Type}

/-- The label that is left of a node. -/
def Label.cleared (now : ℚ) (label : Label R) : Label R :=
  if (label.live now).isSome then label else Label.none

namespace Tree

mutual
/-- A node of the branch has such a label. -/
def anyNode (p : Label R → Bool) : Tree R → Bool
  | mk v d none => p ⟨v, d⟩
  | mk v d (some entries) => p ⟨v, d⟩ || anyEntry p entries

def anyEntry (p : Label R → Bool) : TreeChildren R → Bool
  | [] => false
  | (_, none) :: rest => anyEntry p rest
  | (_, some tree) :: rest => anyNode p tree || anyEntry p rest
end

/-- A node of the branch is live. -/
def alive (now : ℚ) (tree : Tree R) : Bool := tree.anyNode fun label => (label.live now).isSome

def aliveEntries (now : ℚ) (entries : TreeChildren R) : Bool :=
  anyEntry (fun label => (label.live now).isSome) entries

/-- A node of the branch is not live. -/
def lacks (now : ℚ) (tree : Tree R) : Bool := tree.anyNode fun label => (label.live now).isNone

def lacksEntries (now : ℚ) (entries : TreeChildren R) : Bool :=
  anyEntry (fun label => (label.live now).isNone) entries

theorem lacks_leaf (now : ℚ) (v : Option R) (d : Option ℚ) :
    (mk v d none).lacks now = ((⟨v, d⟩ : Label R).live now).isNone := by
  rw [lacks, anyNode]

theorem alive_leaf (now : ℚ) (v : Option R) (d : Option ℚ) :
    (mk v d none).alive now = ((⟨v, d⟩ : Label R).live now).isSome := by
  rw [alive, anyNode]

theorem lacks_mk (now : ℚ) (v : Option R) (d : Option ℚ) (entries : TreeChildren R) :
    (mk v d (some entries)).lacks now =
      (((⟨v, d⟩ : Label R).live now).isNone || lacksEntries now entries) := by
  rw [lacks, anyNode, lacksEntries]

theorem alive_mk (now : ℚ) (v : Option R) (d : Option ℚ) (entries : TreeChildren R) :
    (mk v d (some entries)).alive now =
      (((⟨v, d⟩ : Label R).live now).isSome || aliveEntries now entries) := by
  rw [alive, anyNode, aliveEntries]

theorem lacksEntries_cons (now : ℚ) (key : String) (tree : Tree R) (rest : TreeChildren R) :
    lacksEntries now ((key, some tree) :: rest) = (tree.lacks now || lacksEntries now rest) := by
  rw [lacksEntries, anyEntry, lacks, lacksEntries]

theorem anyEntry_eq_true (p : Label R → Bool) : ∀ entries : TreeChildren R,
    anyEntry p entries = true ↔ ∃ key tree, (key, some tree) ∈ entries ∧ tree.anyNode p = true := by
  intro entries
  induction entries with
  | nil => exact ⟨fun same => (nomatch same), fun ⟨_, _, member, _⟩ => (nomatch member)⟩
  | cons entry rest ih =>
      obtain ⟨other, child⟩ := entry
      cases child with
      | none =>
          rw [anyEntry, ih]
          constructor
          · rintro ⟨key, tree, member, holds⟩
            exact ⟨key, tree, List.mem_cons_of_mem _ member, holds⟩
          · rintro ⟨key, tree, member, holds⟩
            rcases List.mem_cons.mp member with here | later
            · cases here
            · exact ⟨key, tree, later, holds⟩
      | some here =>
          rw [anyEntry, Bool.or_eq_true, ih]
          constructor
          · rintro (holds | ⟨key, tree, member, holds⟩)
            · exact ⟨other, here, List.mem_cons_self, holds⟩
            · exact ⟨key, tree, List.mem_cons_of_mem _ member, holds⟩
          · rintro ⟨key, tree, member, holds⟩
            rcases List.mem_cons.mp member with first | later
            · cases first
              exact Or.inl holds
            · exact Or.inr ⟨key, tree, later, holds⟩

theorem anyNode_of_label {p : Label R → Bool} {tree : Tree R} (holds : p tree.label = true) :
    tree.anyNode p = true := by
  obtain ⟨v, d, c⟩ := tree
  have here : p ⟨v, d⟩ = true := holds
  cases c with
  | none => exact here
  | some entries => rw [anyNode, here, Bool.true_or]

theorem anyNode_of_child {p : Label R → Bool} {tree child : Tree R} {key : String}
    (found : tree.child key = some child) (holds : child.anyNode p = true) :
    tree.anyNode p = true := by
  obtain ⟨v, d, c⟩ := tree
  cases c with
  | none => cases found
  | some entries =>
      have listed := Entries.mem_of_lookup key (some child) entries (Option.join_eq_some_iff.mp found)
      rw [anyNode, (anyEntry_eq_true p entries).mpr ⟨key, child, listed, holds⟩, Bool.or_true]

theorem anyNode_of_sub {p : Label R → Bool} {node : Tree R} : ∀ {keys : List String} {tree : Tree R},
    tree.sub keys = some node → node.anyNode p = true → tree.anyNode p = true := by
  intro keys
  induction keys with
  | nil =>
      intro tree found holds
      obtain rfl := Option.some.inj found
      exact holds
  | cons key rest ih =>
      intro tree found holds
      rw [sub_cons, Option.bind_eq_some_iff] at found
      obtain ⟨child, here, below⟩ := found
      exact anyNode_of_child here (ih below holds)

theorem anyNode_iff (p : Label R → Bool) (tree : Tree R) (wellFormed : tree.wellFormed = true) :
    tree.anyNode p = true ↔ ∃ keys node, tree.sub keys = some node ∧ p node.label = true := by
  constructor
  · induction tree using Tree.induct with
    | node v d c ih =>
        intro holds
        by_cases here : p ⟨v, d⟩ = true
        · exact ⟨[], mk v d c, rfl, here⟩
        · cases c with
          | none => exact absurd holds here
          | some entries =>
              obtain ⟨unique, childWellFormed⟩ := (wellFormed_iff _).mp wellFormed entries rfl
              rw [anyNode, Bool.or_eq_true] at holds
              obtain ⟨key, child, member, childHolds⟩ :=
                (anyEntry_eq_true p entries).mp (holds.resolve_left here)
              obtain ⟨keys, node, found, labelled⟩ := ih entries rfl key child member
                (childWellFormed key child member) childHolds
              refine ⟨key :: keys, node, ?_, labelled⟩
              change ((entries.lookup key).join).bind _ = _
              rw [Entries.lookup_of_mem key (some child) entries unique member]
              exact found
  · rintro ⟨keys, node, found, labelled⟩
    exact anyNode_of_sub found (anyNode_of_label labelled)

theorem alive_iff (now : ℚ) (tree : Tree R) (wellFormed : tree.wellFormed = true) :
    tree.alive now = true ↔ ∃ keys, (tree.labelAt keys).live now ≠ none := by
  rw [alive, anyNode_iff _ tree wellFormed]
  constructor
  · rintro ⟨keys, node, found, live⟩
    refine ⟨keys, ?_⟩
    rw [labelAt, found]
    exact Option.isSome_iff_ne_none.mp live
  · rintro ⟨keys, live⟩
    cases found : tree.sub keys with
    | none =>
        rw [labelAt, found] at live
        exact absurd rfl live
    | some node =>
        rw [labelAt, found] at live
        exact ⟨keys, node, found, Option.isSome_iff_ne_none.mpr live⟩

/-- A tree lacks a live node where one of its nodes is not live. -/
theorem lacks_iff (now : ℚ) (tree : Tree R) (wellFormed : tree.wellFormed = true) :
    tree.lacks now = true ↔
      ∃ keys node, tree.sub keys = some node ∧ node.label.live now = none := by
  simp only [lacks, anyNode_iff _ tree wellFormed, Option.isNone_iff_eq_none]

/-- The children that are there, each with whether its branch is empty. -/
def childFlags (now : ℚ) : TreeChildren R → Flags
  | [] => []
  | (_, none) :: rest => childFlags now rest
  | (key, some tree) :: rest => (key, !alive now tree) :: childFlags now rest

mutual
def pruned (now : ℚ) : Tree R → Tree R
  | mk v d none =>
      let label := (⟨v, d⟩ : Label R).cleared now
      mk label.value label.deadline none
  | mk v d (some entries) =>
      let label := (⟨v, d⟩ : Label R).cleared now
      mk label.value label.deadline (keptChildren (childFlags now entries) (prunedEntries now entries))

/-- The children as they are when the loop comes to their parent. -/
def prunedEntries (now : ℚ) : TreeChildren R → TreeChildren R
  | [] => []
  | (key, none) :: rest => (key, none) :: prunedEntries now rest
  | (key, some tree) :: rest => (key, some (pruned now tree)) :: prunedEntries now rest
end

theorem childFlags_all (now : ℚ) : ∀ entries : TreeChildren R,
    (childFlags now entries).all Prod.snd = !aliveEntries now entries := by
  intro entries
  induction entries with
  | nil => rfl
  | cons entry rest ih =>
      obtain ⟨key, child⟩ := entry
      cases child with
      | none => exact ih
      | some tree =>
          rw [childFlags, List.all_cons, ih, aliveEntries, aliveEntries, anyEntry, Bool.not_or]
          rfl

theorem lacks_of_not_alive (now : ℚ) (tree : Tree R) (dead : tree.alive now = false) :
    tree.lacks now = true := by
  apply anyNode_of_label
  rw [← Option.not_isSome]
  cases live : (tree.label.live now).isSome with
  | false => rfl
  | true =>
      have lives : tree.alive now = true := anyNode_of_label live
      rw [dead] at lives
      cases lives

theorem lacksEntries_of_flag (now : ℚ) : ∀ entries : TreeChildren R,
    (lacksEntries now entries || (childFlags now entries).any Prod.snd) = lacksEntries now entries := by
  intro entries
  induction entries with
  | nil => rfl
  | cons entry rest ih =>
      obtain ⟨key, child⟩ := entry
      cases child with
      | none => exact ih
      | some tree =>
          rw [lacksEntries_cons, childFlags, List.any_cons]
          cases there : tree.alive now with
          | true =>
              rw [Bool.not_true, Bool.false_or, Bool.or_assoc, ih]
          | false =>
              rw [lacks_of_not_alive now tree there]
              rfl

end Tree

/-! ## The loop -/

theorem removeEmpty_changed (level : Nat) (key : String) : ∀ (flags : Flags)
    (children : TreeChildren R) (removeAllChildren : Bool) (st : Pruning),
    (removeEmpty level key flags children removeAllChildren st).2.2.changed =
      (st.changed || flags.any Prod.snd) := by
  intro flags
  induction flags with
  | nil => exact fun _ _ st => (Bool.or_false _).symm
  | cons flag rest ih =>
      intro children removeAllChildren st
      obtain ⟨child, empty⟩ := flag
      cases empty with
      | true =>
          rw [removeEmpty, ih, List.any_cons, Bool.true_or, Bool.or_true]
      | false => rw [removeEmpty, ih, List.any_cons, Bool.false_or]

/-- The node, then the flags its parent will find: the walk over a branch is the description. -/
def PrunesTo (now : ℚ) (tree : Tree R) : Prop :=
  ∀ (level : Nat) (key : String) (st : Pruning), st.stack.Below level →
    key ∉ (st.stack.flags level).map Prod.fst →
    pruneNode now level key tree st = (tree.pruned now,
      ⟨st.stack.assign level (st.stack.flags level ++ [(key, !tree.alive now)]),
        st.changed || tree.lacks now⟩)

theorem pruneItem_eq (now : ℚ) (level : Nat) (key : String) (v : Option R) (d : Option ℚ)
    (children after : Option (TreeChildren R)) (st st' : Pruning) (stack : FlagStack)
    (childrenAlive : Bool) (fresh : key ∉ (stack.flags level).map Prod.fst)
    (first : pruneChildren level key (.mk v d children) st = (.mk v d after, st'))
    (flagged : st'.stack.flags level =
      if childrenAlive then Entries.put key false (stack.flags level) else stack.flags level)
    (assigned : ∀ pos, st'.stack.assign level pos = stack.assign level pos) :
    let label : Label R := ⟨v, d⟩
    pruneItem level key (label.live now) (.mk v d children) st =
      (.mk (label.cleared now).value (label.cleared now).deadline after,
        ⟨stack.assign level (stack.flags level ++ [(key, !((label.live now).isSome || childrenAlive))]),
          st'.changed || (label.live now).isNone⟩) := by
  intro label
  have absent := Entries.lookup_of_not_mem key _ fresh
  have appended : ∀ flag, Entries.put key flag (stack.flags level) =
      stack.flags level ++ [(key, flag)] := fun flag => Entries.put_of_not_mem key flag _ fresh
  have recorded : (if (st'.stack.flags level).lookup key = some false then st'.stack.flags level
      else Entries.put key (label.live now).isNone (st'.stack.flags level)) =
        stack.flags level ++ [(key, !((label.live now).isSome || childrenAlive))] := by
    rw [flagged, ← Option.not_isSome]
    cases childrenAlive with
    | false =>
        rw [if_neg Bool.false_ne_true, absent, if_neg (fun same => nomatch same), appended,
          Bool.or_false]
    | true =>
        rw [if_pos (c := true = true) rfl, Entries.lookup_put_self,
          if_pos (c := some false = some false) rfl, appended, Bool.or_true]
        rfl
  unfold pruneItem
  rw [first, Label.cleared]
  simp only
  cases live : label.live now with
  | none =>
      rw [live] at recorded
      simp only [Option.isNone_none, Option.isSome_none, if_true, Bool.false_eq_true, if_false,
        Bool.or_true] at recorded ⊢
      rw [recorded, assigned]
      rfl
  | some r =>
      rw [live] at recorded
      simp only [Option.isNone_some, Option.isSome_some, if_true, Bool.false_eq_true, if_false,
        Bool.or_false] at recorded ⊢
      rw [recorded, assigned]

theorem pruneChildren_changed (level : Nat) (key : String) (v : Option R) (d : Option ℚ)
    (entries : TreeChildren R) (flags : Flags) (st : Pruning) (stack : FlagStack)
    (below : stack.Below level)
    (recorded : st.stack = if flags = [] then stack else stack.assign (level + 1) flags) :
    (pruneChildren level key (.mk v d (some entries)) st).2.changed =
      (st.changed || flags.any Prod.snd) := by
  have short := below.length
  by_cases childless : flags = []
  · rw [if_pos childless] at recorded
    rw [pruneChildren, if_neg (by rw [recorded]; omega), childless]
    exact (Bool.or_false _).symm
  · rw [if_neg childless] at recorded
    have popped := FlagStack.pop_assign below flags
    have length : level + 1 < (stack.assign (level + 1) flags).length := by
      simp only [FlagStack.assign]
      omega
    simp only [pruneChildren, recorded, if_pos length, popped, Tree.children_mk]
    exact removeEmpty_changed level key flags entries true ⟨⟨level + 1, stack.slots⟩, st.changed⟩

theorem pruneEntries_eq (now : ℚ) : ∀ (entries : TreeChildren R),
    (∀ key tree, (key, some tree) ∈ entries → PrunesTo now tree) → Entries.Unique entries →
    ∀ (level : Nat) (st : Pruning), st.stack.Below level →
      (∀ key ∈ entries.map Prod.fst, key ∉ (st.stack.flags level).map Prod.fst) →
      pruneEntries now level entries st = (Tree.prunedEntries now entries,
        ⟨if Tree.childFlags now entries = [] then st.stack
          else st.stack.assign level (st.stack.flags level ++ Tree.childFlags now entries),
          st.changed || Tree.lacksEntries now entries⟩) := by
  intro entries
  induction entries with
  | nil =>
      intro _ _ level st _ _
      rw [pruneEntries, Tree.prunedEntries, Tree.childFlags, if_pos rfl, Tree.lacksEntries,
        Tree.anyEntry, Bool.or_false]
  | cons entry rest ih =>
      intro nodes unique level st below fresh
      obtain ⟨key, child⟩ := entry
      have uniqueRest : Entries.Unique rest := (List.nodup_cons.mp unique).2
      have notLater : key ∉ rest.map Prod.fst := (List.nodup_cons.mp unique).1
      have nodesRest : ∀ key tree, (key, some tree) ∈ rest → PrunesTo now tree :=
        fun key tree member => nodes key tree (List.mem_cons_of_mem _ member)
      cases child with
      | none =>
          have later := ih nodesRest uniqueRest level st below
            fun other member => fresh other (List.mem_cons_of_mem _ member)
          rw [pruneEntries, later]
          rfl
      | some tree =>
          have here := nodes key tree List.mem_cons_self level key st below
            (fresh key List.mem_cons_self)
          have fresh' : ∀ other ∈ rest.map Prod.fst,
              other ∉ ((st.stack.assign level (st.stack.flags level ++
                [(key, !tree.alive now)])).flags level).map Prod.fst := by
            intro other member
            rw [FlagStack.flags_assign, List.map_append, List.mem_append, not_or]
            refine ⟨fresh other (List.mem_cons_of_mem _ member), ?_⟩
            intro same
            obtain rfl := List.mem_singleton.mp same
            exact notLater member
          have later := ih nodesRest uniqueRest level
            ⟨st.stack.assign level (st.stack.flags level ++ [(key, !tree.alive now)]),
              st.changed || tree.lacks now⟩ (below.assign _) fresh'
          rw [pruneEntries, here]
          simp only
          rw [later, Tree.prunedEntries, Tree.childFlags, Tree.lacksEntries_cons,
            if_neg (List.cons_ne_nil _ _), Bool.or_assoc, FlagStack.flags_assign,
            FlagStack.assign_assign, List.append_assoc]
          simp only [List.singleton_append]
          split
          · rename_i none
            rw [none]
          · rfl

theorem pruneNode_eq (now : ℚ) (tree : Tree R) : tree.wellFormed = true → PrunesTo now tree := by
  induction tree using Tree.induct with
  | node v d c ih =>
      intro wellFormed level key st below fresh
      cases c with
      | none =>
          have first := pruneChildren_none level key v d st below
          have body := pruneItem_eq now level key v d none none st st st.stack false fresh first rfl
            fun _ => rfl
          rw [pruneNode]
          refine body.trans ?_
          rw [Tree.pruned, Tree.alive_leaf, Tree.lacks_leaf, Bool.or_false]
      | some entries =>
          obtain ⟨unique, childWellFormed⟩ := (Tree.wellFormed_iff _).mp wellFormed entries rfl
          have nodes : ∀ k child, (k, some child) ∈ entries → PrunesTo now child :=
            fun k child member => ih entries rfl k child member (childWellFormed k child member)
          have noFlags : st.stack.flags (level + 1) = [] := by
            rw [FlagStack.flags, below.slots (level + 1) (by omega)]
            rfl
          have walked := pruneEntries_eq now entries nodes unique (level + 1) st below.deeper
            (fun k _ => by rw [noFlags]; exact List.not_mem_nil)
          rw [noFlags, List.nil_append] at walked
          obtain ⟨first, flagged, assigned⟩ := pruneChildren_some level key v d
            (Tree.prunedEntries now entries) (Tree.childFlags now entries)
            (pruneEntries now (level + 1) entries st).2 st.stack below (by rw [walked])
          have changed := pruneChildren_changed level key v d (Tree.prunedEntries now entries)
            (Tree.childFlags now entries) (pruneEntries now (level + 1) entries st).2 st.stack below
            (by rw [walked])
          rw [Tree.childFlags_all] at flagged
          have body := pruneItem_eq now level key v d (some (Tree.prunedEntries now entries))
            (keptChildren (Tree.childFlags now entries) (Tree.prunedEntries now entries))
            (pruneEntries now (level + 1) entries st).2
            (pruneChildren level key (.mk v d (some (Tree.prunedEntries now entries)))
              (pruneEntries now (level + 1) entries st).2).2 st.stack (Tree.aliveEntries now entries)
            fresh (Prod.ext first rfl) (by rw [flagged]; cases Tree.aliveEntries now entries <;> rfl)
            assigned
          rw [pruneNode]
          have entriesAfter : (pruneEntries now (level + 1) entries st).1 =
              Tree.prunedEntries now entries := by rw [walked]
          have changedBefore : (pruneEntries now (level + 1) entries st).2.changed =
              (st.changed || Tree.lacksEntries now entries) := by rw [walked]
          change pruneItem level key ((⟨v, d⟩ : Label R).live now)
            (.mk v d (some (pruneEntries now (level + 1) entries st).1))
              (pruneEntries now (level + 1) entries st).2 = _
          rw [entriesAfter]
          refine body.trans ?_
          rw [Tree.pruned, Tree.alive_mk, Tree.lacks_mk, changed, changedBefore, Bool.or_assoc st.changed,
            Tree.lacksEntries_of_flag, Bool.or_assoc st.changed,
            Bool.or_comm (Tree.lacksEntries now entries)]

theorem pruneTree_eq (now : ℚ) (tree : Tree R) (parentRef : ChainedObject)
    (wellFormed : tree.wellFormed = true) :
    pruneTree now tree (some parentRef) = (tree.pruned now, tree.lacks now) := by
  have start : FlagStack.empty.Below 1 := ⟨by decide, fun _ _ => rfl⟩
  have walked := pruneNode_eq now tree wellFormed 1 parentRef.key ⟨FlagStack.empty, false⟩ start
    List.not_mem_nil
  rw [pruneTree]
  simp only [walked, Bool.false_or]

/-! ## The description, node by node -/

namespace Tree

theorem lookup_prunedEntries (now : ℚ) (key : String) : ∀ entries : TreeChildren R,
    (prunedEntries now entries).lookup key = (entries.lookup key).map (Option.map (pruned now)) := by
  intro entries
  induction entries with
  | nil => rfl
  | cons entry rest ih =>
      obtain ⟨other, child⟩ := entry
      cases child with
      | none =>
          rw [prunedEntries, List.lookup_cons, List.lookup_cons, ih]
          split <;> rfl
      | some tree =>
          rw [prunedEntries, List.lookup_cons, List.lookup_cons, ih]
          split <;> rfl

theorem mem_childFlags (now : ℚ) (key : String) (empty : Bool) : ∀ entries : TreeChildren R,
    (key, empty) ∈ childFlags now entries ↔
      ∃ tree, (key, some tree) ∈ entries ∧ empty = !tree.alive now := by
  intro entries
  induction entries with
  | nil => exact ⟨fun member => (nomatch member), fun ⟨_, member, _⟩ => (nomatch member)⟩
  | cons entry rest ih =>
      obtain ⟨other, child⟩ := entry
      cases child with
      | none =>
          rw [childFlags, ih]
          constructor
          · rintro ⟨tree, member, same⟩
            exact ⟨tree, List.mem_cons_of_mem _ member, same⟩
          · rintro ⟨tree, member, same⟩
            rcases List.mem_cons.mp member with here | later
            · cases here
            · exact ⟨tree, later, same⟩
      | some here =>
          rw [childFlags, List.mem_cons, ih]
          constructor
          · rintro (same | ⟨tree, member, same⟩)
            · cases same
              exact ⟨here, List.mem_cons_self, rfl⟩
            · exact ⟨tree, List.mem_cons_of_mem _ member, same⟩
          · rintro ⟨tree, member, same⟩
            rcases List.mem_cons.mp member with first | later
            · cases first
              rw [same]
              exact Or.inl rfl
            · exact Or.inr ⟨tree, later, same⟩

theorem label_pruned (now : ℚ) (tree : Tree R) : (tree.pruned now).label = tree.label.cleared now := by
  obtain ⟨v, d, c⟩ := tree
  cases c with
  | none => rfl
  | some entries => rfl

/-- The children that are left are the pruned forms of those with a live node. -/
theorem child_pruned (now : ℚ) (tree : Tree R) (key : String) (wellFormed : tree.wellFormed = true) :
    (tree.pruned now).child key =
      ((tree.child key).filter fun child => child.alive now).map (pruned now) := by
  obtain ⟨v, d, c⟩ := tree
  cases c with
  | none => rfl
  | some entries =>
      have unique := ((wellFormed_iff _).mp wellFormed entries rfl).1
      have old : (mk v d (some entries)).child key = (entries.lookup key).join := rfl
      have listed : ∀ child, (entries.lookup key).join = some child → (key, some child) ∈ entries :=
        fun child found => Entries.mem_of_lookup key (some child) entries (Option.join_eq_some_iff.mp found)
      have inPlace : ((prunedEntries now entries).lookup key).join =
          ((entries.lookup key).join).map (pruned now) := by
        rw [lookup_prunedEntries]
        cases entries.lookup key with
        | none => rfl
        | some child => cases child <;> rfl
      rw [child_eq_lookup, old, pruned]
      simp only [children_mk]
      unfold keptChildren
      split
      · rename_i childless
        rw [Option.getD_some, inPlace]
        cases found : (entries.lookup key).join with
        | none => rfl
        | some child =>
            have flagged := (mem_childFlags now key _ entries).mpr ⟨child, listed child found, rfl⟩
            rw [childless] at flagged
            cases flagged
      · split
        · rename_i allEmpty
          rw [childFlags_all, Bool.not_eq_true'] at allEmpty
          cases found : (entries.lookup key).join with
          | none => rfl
          | some child =>
              have dead : child.alive now = false := by
                by_contra lives
                rw [Bool.not_eq_false] at lives
                have entriesAlive : aliveEntries now entries = true := (anyEntry_eq_true _ entries).mpr
                  ⟨key, child, listed child found, lives⟩
                rw [allEmpty] at entriesAlive
                cases entriesAlive
              rw [Option.filter_some_neg dead]
              rfl
        · rw [Option.getD_some, lookup_clearEmpty]
          split
          · rename_i flagged
            obtain ⟨child, member, empty⟩ := (mem_childFlags now key true entries).mp flagged
            have dead : child.alive now = false := by
              rw [← Bool.not_eq_true']
              exact empty.symm
            rw [Entries.lookup_of_mem key (some child) entries unique member, Option.join_some,
              Option.join_some, Option.filter_some_neg dead]
            rfl
          · rename_i unflagged
            rw [inPlace]
            cases found : (entries.lookup key).join with
            | none => rfl
            | some child =>
                have lives : child.alive now = true := by
                  by_contra dead
                  refine unflagged ((mem_childFlags now key true entries).mpr
                    ⟨child, listed child found, ?_⟩)
                  rw [Bool.eq_false_of_not_eq_true dead]
                  rfl
                rw [Option.filter_some_pos lives]

/-- A node below the root is left when its branch holds a live node. -/
theorem sub_pruned (now : ℚ) : ∀ (keys : List String) (tree : Tree R), tree.wellFormed = true →
    keys ≠ [] → (tree.pruned now).sub keys =
      ((tree.sub keys).filter fun node => node.alive now).map (pruned now) := by
  intro keys
  induction keys with
  | nil => exact fun _ _ nonempty => absurd rfl nonempty
  | cons key rest ih =>
      intro tree wellFormed _
      rw [sub_cons, sub_cons, child_pruned now tree key wellFormed]
      cases found : tree.child key with
      | none => rfl
      | some child =>
          have childWellFormed := tree.wellFormed_child child key wellFormed found
          cases lives : child.alive now with
          | true =>
              rw [Option.filter_some_pos lives, Option.map_some, Option.bind_some, Option.bind_some]
              by_cases last : rest = []
              · rw [last, sub_nil, sub_nil, Option.filter_some_pos lives, Option.map_some]
              · exact ih child childWellFormed last
          | false =>
              rw [Option.filter_some_neg lives, Option.bind_some]
              cases below : child.sub rest with
              | none => rfl
              | some node =>
                  have dead : node.alive now = false := by
                    by_contra nodeLives
                    rw [Bool.not_eq_false] at nodeLives
                    have childLives : child.alive now = true := anyNode_of_sub below nodeLives
                    rw [lives] at childLives
                    cases childLives
                  rw [Option.filter_some_neg dead]
                  rfl

end Tree

/-! ## The maps of the loop -/

/-- The map that the loop body takes off the stack. -/
def poppedMap (level : Nat) (st : Pruning) : Option Flags :=
  if level + 1 < st.stack.length then st.stack.pop.1 else none

mutual
/-- The nodes in the order of the traversal, each with the map that the loop body takes off the
stack for it. -/
def nodePops (now : ℚ) : Nat → String → Tree R → Pruning → List (Tree R × Option Flags)
  | level, _, .mk v d none, st => [(.mk v d none, poppedMap level st)]
  | level, _, .mk v d (some entries), st =>
      entriesPops now (level + 1) entries st ++
        [(.mk v d (some entries), poppedMap level (pruneEntries now (level + 1) entries st).2)]

def entriesPops (now : ℚ) : Nat → TreeChildren R → Pruning → List (Tree R × Option Flags)
  | _, [], _ => []
  | level, (_, none) :: rest, st => entriesPops now level rest st
  | level, (key, some tree) :: rest, st =>
      nodePops now level key tree st ++
        entriesPops now level rest (pruneNode now level key tree st).2
end

def pruneTreePops (now : ℚ) (rootTree : Tree R) (parentRef : ChainedObject) :
    List (Tree R × Option Flags) :=
  nodePops now 1 parentRef.key rootTree ⟨FlagStack.empty, false⟩

/-- The map of a node: its own children, each with whether its branch is empty. -/
def ownMap (now : ℚ) (tree : Tree R) : Option Flags :=
  let flags := Tree.childFlags now (tree.children.getD [])
  if flags = [] then none else some flags

/-- The loop takes its own map off the stack for every node of the branch. -/
def PopsOwnMaps (now : ℚ) (tree : Tree R) : Prop :=
  ∀ (level : Nat) (key : String) (st : Pruning), st.stack.Below level →
    key ∉ (st.stack.flags level).map Prod.fst →
    ∀ node map, (node, map) ∈ nodePops now level key tree st → map = ownMap now node

theorem entriesPops_own (now : ℚ) : ∀ (entries : TreeChildren R),
    (∀ key tree, (key, some tree) ∈ entries → PrunesTo now tree ∧ PopsOwnMaps now tree) →
    Entries.Unique entries →
    ∀ (level : Nat) (st : Pruning), st.stack.Below level →
      (∀ key ∈ entries.map Prod.fst, key ∉ (st.stack.flags level).map Prod.fst) →
      ∀ node map, (node, map) ∈ entriesPops now level entries st → map = ownMap now node := by
  intro entries
  induction entries with
  | nil => exact fun _ _ level st _ _ node map member => nomatch member
  | cons entry rest ih =>
      intro nodes unique level st below fresh node map member
      obtain ⟨key, child⟩ := entry
      have uniqueRest : Entries.Unique rest := (List.nodup_cons.mp unique).2
      have notLater : key ∉ rest.map Prod.fst := (List.nodup_cons.mp unique).1
      have nodesRest : ∀ key tree, (key, some tree) ∈ rest → PrunesTo now tree ∧ PopsOwnMaps now tree :=
        fun key tree member => nodes key tree (List.mem_cons_of_mem _ member)
      cases child with
      | none =>
          exact ih nodesRest uniqueRest level st below
            (fun other member => fresh other (List.mem_cons_of_mem _ member)) node map member
      | some tree =>
          obtain ⟨prunes, pops⟩ := nodes key tree List.mem_cons_self
          have freshHere := fresh key List.mem_cons_self
          rw [entriesPops, prunes level key st below freshHere] at member
          rcases List.mem_append.mp member with here | later
          · exact pops level key st below freshHere node map here
          · refine ih nodesRest uniqueRest level _ (below.assign _) ?_ node map later
            intro other listed
            rw [FlagStack.flags_assign, List.map_append, List.mem_append, not_or]
            refine ⟨fresh other (List.mem_cons_of_mem _ listed), ?_⟩
            intro same
            obtain rfl := List.mem_singleton.mp same
            exact notLater listed

theorem poppedMap_below {level : Nat} {stack : FlagStack} (below : stack.Below level) (changed : Bool) :
    poppedMap level ⟨stack, changed⟩ = none := by
  have short := below.length
  exact if_neg (by simp only; omega)

theorem poppedMap_assign {level : Nat} {stack : FlagStack} (below : stack.Below level) (flags : Flags)
    (changed : Bool) : poppedMap level ⟨stack.assign (level + 1) flags, changed⟩ = some flags := by
  have length : level + 1 < (stack.assign (level + 1) flags).length := by
    simp only [FlagStack.assign]
    omega
  rw [poppedMap, if_pos length, FlagStack.pop_assign below flags]

theorem nodePops_own (now : ℚ) (tree : Tree R) : tree.wellFormed = true → PopsOwnMaps now tree := by
  induction tree using Tree.induct with
  | node v d c ih =>
      intro wellFormed level key st below fresh node map member
      cases c with
      | none =>
          rw [nodePops, List.mem_singleton] at member
          cases member
          exact poppedMap_below below st.changed
      | some entries =>
          obtain ⟨unique, childWellFormed⟩ := (Tree.wellFormed_iff _).mp wellFormed entries rfl
          have nodes : ∀ k child, (k, some child) ∈ entries → PrunesTo now child ∧ PopsOwnMaps now child :=
            fun k child member => ⟨pruneNode_eq now child (childWellFormed k child member),
              ih entries rfl k child member (childWellFormed k child member)⟩
          have noFlags : st.stack.flags (level + 1) = [] := by
            rw [FlagStack.flags, below.slots (level + 1) (by omega)]
            rfl
          have fresh' : ∀ k ∈ entries.map Prod.fst, k ∉ (st.stack.flags (level + 1)).map Prod.fst :=
            fun k _ => by rw [noFlags]; exact List.not_mem_nil
          have walked := pruneEntries_eq now entries (fun k child member => (nodes k child member).1)
            unique (level + 1) st below.deeper fresh'
          rw [nodePops, List.mem_append] at member
          rcases member with inner | last
          · exact entriesPops_own now entries nodes unique (level + 1) st below.deeper fresh' node map inner
          · rw [List.mem_singleton, walked, noFlags, List.nil_append] at last
            cases last
            have own : ownMap now (.mk v d (some entries)) = if Tree.childFlags now entries = [] then none
                else some (Tree.childFlags now entries) := rfl
            rw [own]
            by_cases childless : Tree.childFlags now entries = []
            · rw [if_pos childless, if_pos childless]
              exact poppedMap_below below _
            · rw [if_neg childless, if_neg childless]
              exact poppedMap_assign below _ _

/-! ## Exactly the dead part -/

/-- Every children map has entries, and each of them is a tree. -/
def Tree.Full (tree : Tree R) : Prop :=
  ∀ keys node entries, tree.sub keys = some node → node.children = some entries →
    entries ≠ [] ∧ ∀ key child, (key, child) ∈ entries → child ≠ none

theorem Tree.full_leaf (v : Option R) (d : Option ℚ) : (Tree.mk v d none).Full := by
  intro keys node entries found held
  cases keys with
  | nil =>
      obtain rfl := Option.some.inj found
      cases held
  | cons key rest => cases found

theorem Tree.full_mk (v : Option R) (d : Option ℚ) {entries : TreeChildren R} (nonempty : entries ≠ [])
    (trees : ∀ key child, (key, child) ∈ entries → ∃ tree, child = some tree ∧ tree.Full) :
    (Tree.mk v d (some entries)).Full := by
  intro keys node held found children
  cases keys with
  | nil =>
      obtain rfl := Option.some.inj found
      obtain rfl := Option.some.inj children
      refine ⟨nonempty, fun key child member gone => ?_⟩
      obtain ⟨tree, there, _⟩ := trees key child member
      rw [gone] at there
      cases there
  | cons key rest =>
      rw [Tree.sub_cons, Option.bind_eq_some_iff] at found
      obtain ⟨child, here, below⟩ := found
      obtain ⟨tree, there, full⟩ := trees key (some child)
        (Entries.mem_of_lookup key (some child) entries (Option.join_eq_some_iff.mp here))
      obtain rfl := Option.some.inj there
      exact full rest node held below children

/-- `tree'` is `tree` without its dead part. -/
structure RemovesDeadPart (now : ℚ) (tree tree' : Tree R) : Prop where
  keepsLive : ∀ keys node, tree.sub keys = some node → node.label.live now ≠ none →
    ∃ node', tree'.sub keys = some node' ∧ node'.label = node.label
  addsNothing : ∀ keys node', tree'.sub keys = some node' →
    ∃ node, tree.sub keys = some node ∧ (node'.label = node.label ∨ node'.label = Label.none)
  noneExpired : ∀ keys node', tree'.sub keys = some node' → node'.label.live now = node'.value
  noneEmpty : ∀ keys node', keys ≠ [] → tree'.sub keys = some node' →
    ∃ below, (node'.labelAt below).live now ≠ none
  emptyUndefined : ∀ keys key child, tree.sub (keys ++ [key]) = some child →
    (∀ below, (child.labelAt below).live now = none) →
    ∀ node' entries', tree'.sub keys = some node' → node'.children = some entries' →
      entries'.lookup key = some none
  childlessUndefined : ∀ keys node' entries', tree'.sub keys = some node' →
    node'.children = some entries' → ∃ key child, node'.child key = some child

theorem Label.live_cleared (now : ℚ) (label : Label R) :
    (label.cleared now).live now = label.live now ∧
      (label.cleared now).live now = (label.cleared now).value := by
  unfold Label.cleared
  cases live : label.live now with
  | none => exact ⟨rfl, rfl⟩
  | some r =>
      simp only [Option.isSome_some, if_true]
      refine ⟨live, ?_⟩
      unfold Label.live at live ⊢
      split at live
      · exact rfl
      · split at live
        · rename_i alive
          exact if_pos alive
        · cases live

namespace Tree

theorem wellFormed_pruned (now : ℚ) (tree : Tree R) (wellFormed : tree.wellFormed = true) :
    (tree.pruned now).wellFormed = true := by
  have pruned := pruneTree_wellFormed now tree (some (.top "" 0)) wellFormed
  rw [pruneTree_eq now tree _ wellFormed] at pruned
  exact pruned

theorem sub_pruned_iff (now : ℚ) (tree node' : Tree R) (keys : List String)
    (wellFormed : tree.wellFormed = true) :
    (tree.pruned now).sub keys = some node' ↔
      ∃ node, tree.sub keys = some node ∧ node' = node.pruned now ∧
        (keys ≠ [] → node.alive now = true) := by
  by_cases root : keys = []
  · subst root
    constructor
    · intro found
      exact ⟨tree, rfl, (Option.some.inj found).symm, fun nonempty => absurd rfl nonempty⟩
    · rintro ⟨node, found, rfl, _⟩
      obtain rfl := Option.some.inj found
      rfl
  · rw [sub_pruned now keys tree wellFormed root]
    constructor
    · intro found
      obtain ⟨node, kept, rfl⟩ := Option.map_eq_some_iff.mp found
      obtain ⟨there, lives⟩ := Option.filter_eq_some_iff.mp kept
      exact ⟨node, there, rfl, fun _ => lives⟩
    · rintro ⟨node, found, rfl, lives⟩
      rw [found, Option.filter_some_pos (lives root), Option.map_some]

theorem not_alive_iff (now : ℚ) (tree : Tree R) (wellFormed : tree.wellFormed = true) :
    tree.alive now = false ↔ ∀ keys, (tree.labelAt keys).live now = none := by
  rw [← Bool.not_eq_true, alive_iff now tree wellFormed]
  push Not
  exact Iff.rfl

/-- The label of a live node is kept, wherever it is in the branch. -/
theorem live_labelAt_pruned (now : ℚ) (tree : Tree R) (keys : List String)
    (wellFormed : tree.wellFormed = true) :
    ((tree.pruned now).labelAt keys).live now = (tree.labelAt keys).live now := by
  cases found : (tree.pruned now).sub keys with
  | some node' =>
      obtain ⟨node, there, rfl, _⟩ := (sub_pruned_iff now tree node' keys wellFormed).mp found
      rw [labelAt, labelAt, found, there]
      change (node.pruned now).label.live now = node.label.live now
      rw [label_pruned]
      exact (Label.live_cleared now node.label).1
  | none =>
      rw [labelAt, labelAt, found]
      cases there : tree.sub keys with
      | none => rfl
      | some node =>
          by_contra other
          have live : node.label.live now ≠ none := fun gone => other gone.symm
          have lives : node.alive now = true := by
            rw [alive]
            exact anyNode_of_label (Option.isSome_iff_ne_none.mpr live)
          have kept := (sub_pruned_iff now tree _ keys wellFormed).mpr ⟨node, there, rfl, fun _ => lives⟩
          rw [found] at kept
          cases kept

end Tree

theorem Tree.children_pruned (now : ℚ) (node : Tree R) (entries' : TreeChildren R)
    (filled : ∀ entries, node.children = some entries →
      entries ≠ [] ∧ ∀ key child, (key, child) ∈ entries → child ≠ none)
    (children : (node.pruned now).children = some entries') :
    ∃ entries, node.children = some entries ∧ Tree.aliveEntries now entries = true ∧
      entries' = clearEmpty (Tree.childFlags now entries) (Tree.prunedEntries now entries) := by
  obtain ⟨v, d, c⟩ := node
  cases c with
  | none => cases children
  | some entries =>
      obtain ⟨nonempty, trees⟩ := filled entries rfl
      refine ⟨entries, rfl, ?_⟩
      change keptChildren _ _ = some entries' at children
      unfold keptChildren at children
      split at children
      · rename_i childless
        obtain ⟨⟨key, child⟩, rest, rfl⟩ := List.exists_cons_of_ne_nil nonempty
        cases child with
        | none => exact absurd rfl (trees key none List.mem_cons_self)
        | some child => cases childless
      · split at children
        · cases children
        · rename_i notAll
          rw [Tree.childFlags_all, Bool.not_eq_true', Bool.not_eq_false] at notAll
          exact ⟨notAll, (Option.some.inj children).symm⟩

theorem removesDeadPart (now : ℚ) (tree : Tree R) (wellFormed : tree.wellFormed = true)
    (full : tree.Full) : RemovesDeadPart now tree (tree.pruned now) := by
  constructor
  · intro keys node found live
    have lives : node.alive now = true := by
      rw [Tree.alive]
      exact Tree.anyNode_of_label (Option.isSome_iff_ne_none.mpr live)
    refine ⟨node.pruned now, (Tree.sub_pruned_iff now tree _ keys wellFormed).mpr
      ⟨node, found, rfl, fun _ => lives⟩, ?_⟩
    rw [Tree.label_pruned, Label.cleared, if_pos (Option.isSome_iff_ne_none.mpr live)]
  · intro keys node' found
    obtain ⟨node, there, rfl, _⟩ := (Tree.sub_pruned_iff now tree node' keys wellFormed).mp found
    refine ⟨node, there, ?_⟩
    rw [Tree.label_pruned, Label.cleared]
    split
    · exact Or.inl rfl
    · exact Or.inr rfl
  · intro keys node' found
    obtain ⟨node, there, rfl, _⟩ := (Tree.sub_pruned_iff now tree node' keys wellFormed).mp found
    have label := Tree.label_pruned now node
    change _ = (node.pruned now).label.value
    rw [label]
    exact (Label.live_cleared now node.label).2
  · intro keys node' below found
    obtain ⟨node, there, rfl, lives⟩ := (Tree.sub_pruned_iff now tree node' keys wellFormed).mp found
    have nodeWellFormed := Tree.wellFormed_sub keys tree node wellFormed there
    obtain ⟨rest, live⟩ := (Tree.alive_iff now node nodeWellFormed).mp (lives below)
    refine ⟨rest, ?_⟩
    rw [Tree.live_labelAt_pruned now node rest nodeWellFormed]
    exact live
  · intro keys key child childFound dead node' entries' found children
    obtain ⟨node, there, rfl, _⟩ := (Tree.sub_pruned_iff now tree node' keys wellFormed).mp found
    have nodeWellFormed := Tree.wellFormed_sub keys tree node wellFormed there
    rw [Tree.sub_append, there, Option.bind_some, Tree.sub_cons, Option.bind_eq_some_iff] at childFound
    obtain ⟨_, listed, same⟩ := childFound
    obtain rfl := Option.some.inj same
    have childDead := (Tree.not_alive_iff now _ (node.wellFormed_child _ key nodeWellFormed listed)).mpr dead
    obtain ⟨entries, held, _, rfl⟩ :=
      node.children_pruned now entries' (fun entries held => full keys node entries there held) children
    rw [Tree.child, held, Option.bind_some, Option.join_eq_some_iff] at listed
    rw [lookup_clearEmpty, if_pos]
    refine (Tree.mem_childFlags now key true entries).mpr
      ⟨_, Entries.mem_of_lookup key _ entries listed, ?_⟩
    rw [childDead]
    rfl
  · intro keys node' entries' found children
    obtain ⟨node, there, rfl, _⟩ := (Tree.sub_pruned_iff now tree node' keys wellFormed).mp found
    have nodeWellFormed := Tree.wellFormed_sub keys tree node wellFormed there
    obtain ⟨entries, held, entriesAlive, _⟩ :=
      node.children_pruned now entries' (fun entries held => full keys node entries there held) children
    obtain ⟨key, child, member, lives⟩ := (Tree.anyEntry_eq_true _ entries).mp entriesAlive
    have unique := ((Tree.wellFormed_iff _).mp nodeWellFormed entries held).1
    have listed : node.child key = some child := by
      rw [Tree.child, held, Option.bind_some, Entries.lookup_of_mem key (some child) entries unique member,
        Option.join_some]
    refine ⟨key, child.pruned now, ?_⟩
    have childAlive : child.alive now = true := lives
    rw [Tree.child_pruned now node key nodeWellFormed, listed, Option.filter_some_pos childAlive,
      Option.map_some]

/-- The map taken off the stack for a node: none when it has no children, and else that of its
own children. -/
def HoldsOwnChildren (now : ℚ) (node : Tree R) (map : Option Flags) : Prop :=
  match node.children with
  | none => map = none
  | some entries => ∃ flags, map = some flags ∧ flags.map Prod.fst = entries.map Prod.fst ∧
      ∀ key child empty, (key, some child) ∈ entries → (key, empty) ∈ flags →
        (empty = true ↔ ∀ below, (child.labelAt below).live now = Option.none)

mutual
theorem sub_of_nodePops (now : ℚ) : ∀ (level : Nat) (key : String) (tree : Tree R) (st : Pruning)
    (node : Tree R) (map : Option Flags), tree.wellFormed = true →
    (node, map) ∈ nodePops now level key tree st → ∃ keys, tree.sub keys = some node
  | level, key, .mk v d none, st, node, map, _, member => by
      rw [nodePops, List.mem_singleton] at member
      cases member
      exact ⟨[], rfl⟩
  | level, key, .mk v d (some entries), st, node, map, wellFormed, member => by
      rw [nodePops, List.mem_append] at member
      obtain ⟨unique, childWellFormed⟩ := (Tree.wellFormed_iff _).mp wellFormed entries rfl
      rcases member with inner | last
      · obtain ⟨name, child, keys, listed, below⟩ :=
          sub_of_entriesPops now (level + 1) entries st node map childWellFormed inner
        refine ⟨name :: keys, ?_⟩
        change ((entries.lookup name).join).bind _ = _
        rw [Entries.lookup_of_mem name (some child) entries unique listed]
        exact below
      · rw [List.mem_singleton] at last
        cases last
        exact ⟨[], rfl⟩

theorem sub_of_entriesPops (now : ℚ) : ∀ (level : Nat) (entries : TreeChildren R) (st : Pruning)
    (node : Tree R) (map : Option Flags),
    (∀ key child, (key, some child) ∈ entries → child.wellFormed = true) →
    (node, map) ∈ entriesPops now level entries st →
      ∃ key child keys, (key, some child) ∈ entries ∧ child.sub keys = some node
  | _, [], _, _, _, _, member => by cases member
  | level, (_, none) :: rest, st, node, map, wellFormed, member => by
      obtain ⟨key, child, keys, listed, below⟩ := sub_of_entriesPops now level rest st node map
        (fun key child member => wellFormed key child (List.mem_cons_of_mem _ member)) member
      exact ⟨key, child, keys, List.mem_cons_of_mem _ listed, below⟩
  | level, (name, some tree) :: rest, st, node, map, wellFormed, member => by
      rw [entriesPops, List.mem_append] at member
      rcases member with here | later
      · obtain ⟨keys, below⟩ := sub_of_nodePops now level name tree st node map
          (wellFormed name tree List.mem_cons_self) here
        exact ⟨name, tree, keys, List.mem_cons_self, below⟩
      · obtain ⟨key, child, keys, listed, below⟩ := sub_of_entriesPops now level rest _ node map
          (fun key child member => wellFormed key child (List.mem_cons_of_mem _ member)) later
        exact ⟨key, child, keys, List.mem_cons_of_mem _ listed, below⟩
end

theorem childFlags_keys_eq (now : ℚ) : ∀ entries : TreeChildren R,
    (∀ key child, (key, child) ∈ entries → child ≠ none) →
      (Tree.childFlags now entries).map Prod.fst = entries.map Prod.fst := by
  intro entries
  induction entries with
  | nil => exact fun _ => rfl
  | cons entry rest ih =>
      intro trees
      obtain ⟨key, child⟩ := entry
      have later := ih fun key child member => trees key child (List.mem_cons_of_mem _ member)
      cases child with
      | none => exact absurd rfl (trees key none List.mem_cons_self)
      | some tree => rw [Tree.childFlags, List.map_cons, List.map_cons, later]

theorem holdsOwnChildren (now : ℚ) (node : Tree R) (wellFormed : node.wellFormed = true)
    (filled : ∀ entries, node.children = some entries →
      entries ≠ [] ∧ ∀ key child, (key, child) ∈ entries → child ≠ none) :
    HoldsOwnChildren now node (ownMap now node) := by
  unfold HoldsOwnChildren ownMap
  cases held : node.children with
  | none => rfl
  | some entries =>
      obtain ⟨nonempty, trees⟩ := filled entries held
      obtain ⟨unique, childWellFormed⟩ := (Tree.wellFormed_iff _).mp wellFormed entries held
      have keys := childFlags_keys_eq now entries trees
      have some : Tree.childFlags now entries ≠ [] := by
        intro none
        rw [none] at keys
        exact nonempty (List.map_eq_nil_iff.mp keys.symm)
      refine ⟨Tree.childFlags now entries, if_neg some, keys, ?_⟩
      intro key child empty listed flagged
      obtain ⟨other, member, same⟩ := (Tree.mem_childFlags now key empty entries).mp flagged
      have single := (Entries.lookup_of_mem key _ entries unique member).symm.trans
        (Entries.lookup_of_mem key _ entries unique listed)
      obtain rfl := Option.some.inj (Option.some.inj single)
      rw [same, ← Tree.not_alive_iff now other (childWellFormed key other member), Bool.not_eq_true']

/-- `pruneTree` removes the dead part of a tree and nothing else, and never takes the map of
another node for that of the children at hand. -/
theorem pruneTree_removesDeadPart (now : ℚ) (tree : Tree R) (parentRef : ChainedObject)
    (wellFormed : tree.wellFormed = true) (full : tree.Full) :
    RemovesDeadPart now tree (pruneTree now tree (some parentRef)).1 ∧
      ∀ node map, (node, map) ∈ pruneTreePops now tree parentRef →
        HoldsOwnChildren now node map := by
  refine ⟨?_, ?_⟩
  · rw [pruneTree_eq now tree parentRef wellFormed]
    exact removesDeadPart now tree wellFormed full
  · intro node map member
    have start : FlagStack.empty.Below 1 := ⟨by decide, fun _ _ => rfl⟩
    obtain ⟨keys, there⟩ := sub_of_nodePops now 1 parentRef.key tree _ node map wellFormed member
    rw [nodePops_own now tree wellFormed 1 parentRef.key _ start List.not_mem_nil node map member]
    exact holdsOwnChildren now node (Tree.wellFormed_sub keys tree node wellFormed there)
      fun entries held => full keys node entries there held

/-- Below the root a live leaf on the third level, and an expired one on the second. -/
def halfExpired : Tree String :=
  .mk none none (some [("x", some (.mk none none (some [("y", some (.mk (some "1") none none))]))),
    ("z", some (.mk (some "2") (some 1) none))])

theorem halfExpired_full : halfExpired.Full := by
  refine Tree.full_mk _ _ (List.cons_ne_nil _ _) ?_
  intro key child member
  rcases List.mem_cons.mp member with first | second
  · cases first
    refine ⟨_, rfl, Tree.full_mk _ _ (List.cons_ne_nil _ _) fun key child member => ?_⟩
    cases List.mem_singleton.mp member
    exact ⟨_, rfl, Tree.full_leaf _ _⟩
  · cases List.mem_singleton.mp second
    exact ⟨_, rfl, Tree.full_leaf _ _⟩

theorem pruneTree_removesDeadPart_halfExpired :
    RemovesDeadPart 5 halfExpired (pruneTree 5 halfExpired (some (.top "a" 1))).1 :=
  (pruneTree_removesDeadPart 5 halfExpired (.top "a" 1) rfl halfExpired_full).1

end TreeKeyCache
