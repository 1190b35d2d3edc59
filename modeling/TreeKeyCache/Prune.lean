import TreeKeyCache.Labels

/-! # Pruning a tree

`pruneTree` (`internal/prune-tree.ts`) walks a tree in post order, forgets the values
that are not alive, and removes the children under which nothing is left.  While it
walks it keeps a sparse array of maps: at the index of a level, for each node of that
level below the current parent, whether the node is empty.  Here the loop body
(`pruneItem`) stands where the traversal yields the node. -/
set_option autoImplicit false
namespace TreeKeyCache

variable {R : Type}

/-- A `Map<string, boolean>`. -/
abbrev Flags := List (String × Bool)

/-- A sparse array of maps. -/
structure FlagStack where
  length : Nat
  slots : Nat → Option Flags

namespace FlagStack

def empty : FlagStack := ⟨0, fun _ => none⟩

/-- `stack[level] ??= new Map()`, read. -/
def flags (stack : FlagStack) (level : Nat) : Flags := (stack.slots level).getD []

def assign (stack : FlagStack) (level : Nat) (flags : Flags) : FlagStack :=
  ⟨max stack.length (level + 1), Function.update stack.slots level (some flags)⟩

def pop (stack : FlagStack) : Option Flags × FlagStack :=
  match stack.length with
  | 0 => (none, stack)
  | n + 1 => (stack.slots n, ⟨n, Function.update stack.slots n none⟩)

end FlagStack

/-- The variables `pruneTree` keeps over its loop. -/
structure Pruning where
  stack : FlagStack
  changed : Bool

/-- The loop over the popped map: the children map, whether all children go, the state. -/
def removeEmpty (level : Nat) (key : String) :
    Flags → TreeChildren R → Bool → Pruning → TreeChildren R × Bool × Pruning
  | [], children, removeAllChildren, st => (children, removeAllChildren, st)
  | (child, true) :: rest, children, removeAllChildren, st =>
      removeEmpty level key rest (Entries.put child none children) removeAllChildren
        { st with changed := true }
  | (_, false) :: rest, children, _, st =>
      removeEmpty level key rest children false
        { st with stack := st.stack.assign level (Entries.put key false (st.stack.flags level)) }

/-- The part of the loop body that looks at the children of the node. -/
def pruneChildren (level : Nat) (key : String) (tree : Tree R) (st : Pruning) :
    Tree R × Pruning :=
  if level + 1 < st.stack.length then
    let (map, stack) := st.stack.pop
    match map, tree.children with
    | some map, some children =>
        let (children, removeAllChildren, st) :=
          removeEmpty level key map children true { st with stack := stack }
        (tree.withChildren (if removeAllChildren then none else some children), st)
    | _, _ => (tree, { st with stack := stack })
  else (tree, st)

/-- The loop body for the node with the live value `value`. -/
def pruneItem (level : Nat) (key : String) (value : Option R) (tree : Tree R) (st : Pruning) :
    Tree R × Pruning :=
  let (tree, st) := pruneChildren level key tree st
  let undefinedValue := value.isNone
  let (tree, st) :=
    if undefinedValue then ((tree.withValue none).withDeadline none, { st with changed := true })
    else (tree, st)
  let pos := st.stack.flags level
  let pos := if pos.lookup key = some false then pos else Entries.put key undefinedValue pos
  (tree, { st with stack := st.stack.assign level pos })

mutual
def pruneNode (now : ℚ) : Nat → String → Tree R → Pruning → Tree R × Pruning
  | level, key, .mk v d none, st =>
      pruneItem level key (getTreeCurrentSerializedValue (.mk v d none) now) (.mk v d none) st
  | level, key, .mk v d (some entries), st =>
      let value := getTreeCurrentSerializedValue (.mk v d (some entries)) now
      let (entries, st) := pruneEntries now (level + 1) entries st
      pruneItem level key value (.mk v d (some entries)) st

def pruneEntries (now : ℚ) : Nat → TreeChildren R → Pruning → TreeChildren R × Pruning
  | _, [], st => ([], st)
  | level, (key, none) :: rest, st =>
      let (rest, st) := pruneEntries now level rest st
      ((key, none) :: rest, st)
  | level, (key, some tree) :: rest, st =>
      let (tree, st) := pruneNode now level key tree st
      let (rest, st) := pruneEntries now level rest st
      ((key, some tree) :: rest, st)
end

/-- The pruned tree, and whether anything changed.  The root itself is only visited when
it has a parent. -/
def pruneTree (now : ℚ) (rootTree : Tree R) (parentRef : Option ChainedObject) : Tree R × Bool :=
  let start : Pruning := ⟨FlagStack.empty, false⟩
  match parentRef with
  | some parent =>
      let (tree, st) := pruneNode now 1 parent.key rootTree start
      (tree, st.changed)
  | none =>
      match rootTree.children with
      | none => (rootTree, false)
      | some entries =>
          let (entries, st) := pruneEntries now 2 entries start
          (rootTree.withChildren (some entries), st.changed)

/-! ## What pruning leaves -/

/-- Nothing is to be read here from `now` on. -/
def Label.Dead (now : ℚ) (label : Label R) : Prop := ∀ t, now ≤ t → label.live t = Option.none

def Label.Fades (now : ℚ) (before after : Label R) : Prop :=
  after = before ∨ (after = Label.none ∧ before.Dead now)

theorem Label.dead_of_live_eq_none (now : ℚ) (label : Label R) (gone : label.live now = Option.none) :
    label.Dead now := by
  intro t later
  unfold live at gone ⊢
  cases deadline : label.deadline with
  | none =>
      rw [deadline] at gone
      exact gone
  | some d =>
      rw [deadline] at gone
      simp only at gone ⊢
      split at gone
      · rw [gone, ite_self]
      · rename_i expired
        rw [not_or, not_lt] at expired
        rw [if_neg]
        rw [not_or, not_lt]
        exact ⟨expired.1, le_trans expired.2 later⟩

theorem Label.dead_none (now : ℚ) : (Label.none : Label R).Dead now := fun _ _ => rfl

theorem Label.Fades.live_eq {now : ℚ} {before after : Label R} (fades : before.Fades now after)
    (t : ℚ) (later : now ≤ t) : after.live t = before.live t := by
  rcases fades with same | ⟨cleared, dead⟩
  · rw [same]
  · rw [cleared, dead t later]
    rfl

/-- What pruning makes of a tree; `empty` says that nothing is left of it. -/
structure Pruned (now : ℚ) (tree tree' : Tree R) (empty : Bool) : Prop where
  fades : ∀ keys, (tree.labelAt keys).Fades now (tree'.labelAt keys)
  wellFormed : tree'.wellFormed = true
  dead : empty = true → ∀ keys, (tree.labelAt keys).Dead now

/-- The same for the children of a node, with the flags of those that are there. -/
inductive PrunedEntries (now : ℚ) : TreeChildren R → TreeChildren R → Flags → Prop where
  | nil : PrunedEntries now [] [] []
  | missing (key : String) {rest rest' : TreeChildren R} {flags : Flags}
      (below : PrunedEntries now rest rest' flags) :
      PrunedEntries now ((key, none) :: rest) ((key, none) :: rest') flags
  | child (key : String) (tree tree' : Tree R) (empty : Bool) {rest rest' : TreeChildren R}
      {flags : Flags} (here : Pruned now tree tree' empty)
      (below : PrunedEntries now rest rest' flags) :
      PrunedEntries now ((key, some tree) :: rest) ((key, some tree') :: rest')
        ((key, empty) :: flags)

namespace PrunedEntries

variable {now : ℚ} {entries entries' : TreeChildren R} {flags : Flags}

theorem keys_eq (pruned : PrunedEntries now entries entries' flags) :
    entries'.map Prod.fst = entries.map Prod.fst := by
  induction pruned with
  | nil => rfl
  | missing key _ ih => rw [List.map_cons, List.map_cons, ih]
  | child key tree tree' empty _ _ ih => rw [List.map_cons, List.map_cons, ih]

theorem mem (pruned : PrunedEntries now entries entries' flags) (key : String) (tree' : Tree R)
    (member : (key, some tree') ∈ entries') :
    ∃ tree empty, (key, some tree) ∈ entries ∧ (key, empty) ∈ flags ∧ Pruned now tree tree' empty := by
  induction pruned with
  | nil => cases member
  | missing other _ ih =>
      rcases List.mem_cons.mp member with same | later
      · cases same
      · obtain ⟨tree, empty, listed, flagged, here⟩ := ih later
        exact ⟨tree, empty, List.mem_cons_of_mem _ listed, flagged, here⟩
  | child other tree tree'' empty here _ ih =>
      rcases List.mem_cons.mp member with same | later
      · cases same
        exact ⟨tree, empty, List.mem_cons_self, List.mem_cons_self, here⟩
      · obtain ⟨tree, empty, listed, flagged, here⟩ := ih later
        exact ⟨tree, empty, List.mem_cons_of_mem _ listed, List.mem_cons_of_mem _ flagged, here⟩

theorem mem_old (pruned : PrunedEntries now entries entries' flags) (key : String) (tree : Tree R)
    (member : (key, some tree) ∈ entries) :
    ∃ tree' empty, (key, some tree') ∈ entries' ∧ (key, empty) ∈ flags ∧
      Pruned now tree tree' empty := by
  induction pruned with
  | nil => cases member
  | missing other _ ih =>
      rcases List.mem_cons.mp member with same | later
      · cases same
      · obtain ⟨tree', empty, listed, flagged, here⟩ := ih later
        exact ⟨tree', empty, List.mem_cons_of_mem _ listed, flagged, here⟩
  | child other tree'' tree' empty here _ ih =>
      rcases List.mem_cons.mp member with same | later
      · cases same
        exact ⟨tree', empty, List.mem_cons_self, List.mem_cons_self, here⟩
      · obtain ⟨tree', empty, listed, flagged, here⟩ := ih later
        exact ⟨tree', empty, List.mem_cons_of_mem _ listed, List.mem_cons_of_mem _ flagged, here⟩

theorem of_flag (pruned : PrunedEntries now entries entries' flags) (key : String) (empty : Bool)
    (flagged : (key, empty) ∈ flags) :
    ∃ tree tree', (key, some tree) ∈ entries ∧ Pruned now tree tree' empty := by
  induction pruned with
  | nil => cases flagged
  | missing other _ ih =>
      obtain ⟨tree, tree', listed, here⟩ := ih flagged
      exact ⟨tree, tree', List.mem_cons_of_mem _ listed, here⟩
  | child other tree tree' empty' here _ ih =>
      rcases List.mem_cons.mp flagged with same | later
      · cases same
        exact ⟨tree, tree', List.mem_cons_self, here⟩
      · obtain ⟨tree, tree', listed, here⟩ := ih later
        exact ⟨tree, tree', List.mem_cons_of_mem _ listed, here⟩

end PrunedEntries

/-! ## Removing the empty children -/

/-- `children[key] = undefined` for every key flagged as empty. -/
def clearEmpty : Flags → TreeChildren R → TreeChildren R
  | [], children => children
  | (key, true) :: rest, children => clearEmpty rest (Entries.put key none children)
  | (_, false) :: rest, children => clearEmpty rest children

theorem lookup_clearEmpty (key : String) : ∀ (flags : Flags) (children : TreeChildren R),
    (clearEmpty flags children).lookup key =
      if (key, true) ∈ flags then some none else children.lookup key := by
  intro flags
  induction flags with
  | nil => intro children; rfl
  | cons flag rest ih =>
      intro children
      obtain ⟨other, empty⟩ := flag
      cases empty with
      | false => rw [clearEmpty, ih]; simp
      | true =>
          rw [clearEmpty, ih]
          by_cases later : (key, true) ∈ rest
          · simp [later]
          · by_cases same : key = other
            · subst same
              simp [later]
            · rw [Entries.lookup_put_ne other key none same]
              simp [later, same]

theorem unique_clearEmpty : ∀ (flags : Flags) (children : TreeChildren R), Entries.Unique children →
    Entries.Unique (clearEmpty flags children) := by
  intro flags
  induction flags with
  | nil => intro children unique; exact unique
  | cons flag rest ih =>
      intro children unique
      obtain ⟨key, empty⟩ := flag
      cases empty with
      | false => exact ih children unique
      | true => exact ih _ (Entries.unique_put key none children unique)

theorem mem_clearEmpty (key : String) (tree : Tree R) : ∀ (flags : Flags) (children : TreeChildren R),
    (key, some tree) ∈ clearEmpty flags children → (key, some tree) ∈ children := by
  intro flags
  induction flags with
  | nil => intro children member; exact member
  | cons flag rest ih =>
      intro children member
      obtain ⟨other, empty⟩ := flag
      cases empty with
      | false => exact ih children member
      | true =>
          rcases Entries.mem_put other none (key, some tree) children (ih _ member) with added | kept
          · cases added
          · exact kept

namespace FlagStack

@[simp] theorem flags_assign (stack : FlagStack) (level : Nat) (flags : Flags) :
    (stack.assign level flags).flags level = flags := by
  simp [assign, FlagStack.flags]

@[simp] theorem assign_assign (stack : FlagStack) (level : Nat) (flags flags' : Flags) :
    (stack.assign level flags).assign level flags' = stack.assign level flags' := by
  simp [assign]

end FlagStack

theorem removeEmpty_eq (level : Nat) (key : String) : ∀ (flags : Flags) (children : TreeChildren R)
    (removeAllChildren : Bool) (st : Pruning),
    let result := removeEmpty level key flags children removeAllChildren st
    result.1 = clearEmpty flags children ∧
      result.2.1 = (removeAllChildren && flags.all Prod.snd) ∧
      result.2.2.stack = if flags.all Prod.snd then st.stack
        else st.stack.assign level (Entries.put key false (st.stack.flags level)) := by
  intro flags
  induction flags with
  | nil => intro children removeAllChildren st; simp [removeEmpty, clearEmpty]
  | cons flag rest ih =>
      intro children removeAllChildren st
      obtain ⟨child, empty⟩ := flag
      cases empty with
      | true =>
          obtain ⟨cleared, all, stack⟩ := ih (Entries.put child none children) removeAllChildren
            { st with changed := true }
          simp only [removeEmpty, clearEmpty, List.all_cons, Bool.true_and]
          exact ⟨cleared, all, stack⟩
      | false =>
          obtain ⟨cleared, all, stack⟩ := ih children false
            { st with stack := st.stack.assign level (Entries.put key false (st.stack.flags level)) }
          simp only [removeEmpty, clearEmpty, List.all_cons, Bool.false_and, Bool.and_false]
          refine ⟨cleared, all, ?_⟩
          have again : Entries.put key false (Entries.put key false (st.stack.flags level)) =
              Entries.put key false (st.stack.flags level) :=
            Entries.put_of_lookup key false _ (Entries.lookup_put_self key false _)
          rw [stack]
          simp [again]

/-! ## One node -/

def keptChildren (flags : Flags) (entries : TreeChildren R) : Option (TreeChildren R) :=
  if flags = [] then some entries
  else if flags.all Prod.snd then none else some (clearEmpty flags entries)

section
variable {now : ℚ} {entries entries' : TreeChildren R} {flags : Flags}

omit now entries' flags in
theorem Entries.join_lookup_of_absent (key : String) (absent : ∀ tree, (key, some tree) ∉ entries) :
    (entries.lookup key).join = none := by
  cases found : entries.lookup key with
  | none => rfl
  | some child =>
      cases child with
      | none => rfl
      | some tree => exact absurd (Entries.mem_of_lookup key (some tree) entries found) (absent tree)

theorem PrunedEntries.entry_fades (pruned : PrunedEntries now entries entries' flags)
    (unique : Entries.Unique entries) (key : String) (keys : List String) :
    (((entries.lookup key).join.getD Tree.empty).labelAt keys).Fades now
      (((entries'.lookup key).join.getD Tree.empty).labelAt keys) := by
  have unique' : Entries.Unique entries' := by
    rw [Entries.Unique, pruned.keys_eq]
    exact unique
  cases found : (entries'.lookup key).join with
  | none =>
      have absent : ∀ tree, (key, some tree) ∉ entries := by
        intro tree listed
        obtain ⟨tree', _, listed', _⟩ := pruned.mem_old key tree listed
        rw [Entries.lookup_of_mem key (some tree') entries' unique' listed'] at found
        cases found
      rw [Entries.join_lookup_of_absent key absent]
      exact Or.inl rfl
  | some tree' =>
      have listed' := Entries.mem_of_lookup key (some tree') entries' (Option.join_eq_some_iff.mp found)
      obtain ⟨tree, empty, listed, _, here⟩ := pruned.mem key tree' listed'
      rw [Entries.lookup_of_mem key (some tree) entries unique listed]
      exact here.fades keys

theorem PrunedEntries.child_fades (pruned : PrunedEntries now entries entries' flags)
    (unique : Entries.Unique entries) (v v' : Option R) (d d' : Option ℚ) (key : String)
    (keys : List String) :
    ((Tree.mk v d (some entries)).labelAt (key :: keys)).Fades now
      ((Tree.mk v' d' (keptChildren flags entries')).labelAt (key :: keys)) := by
  rw [Tree.labelAt_cons, Tree.labelAt_cons]
  have oldChild : (Tree.mk v d (some entries)).child key = (entries.lookup key).join := rfl
  rw [oldChild]
  -- what is flagged as empty is dead
  have flaggedDead : (key, true) ∈ flags →
      (((entries.lookup key).join.getD Tree.empty).labelAt keys).Dead now := by
    intro flagged
    obtain ⟨tree, tree', listed, here⟩ := pruned.of_flag key true flagged
    rw [Entries.lookup_of_mem key (some tree) entries unique listed]
    exact here.dead rfl keys
  unfold keptChildren
  split
  · exact pruned.entry_fades unique key keys
  · split
    · rename_i allEmpty
      have nothing : ((Tree.mk v' d' none).child key).getD Tree.empty = (Tree.empty : Tree R) := rfl
      rw [nothing, Tree.labelAt_empty]
      by_cases there : ∃ tree, (key, some tree) ∈ entries
      · obtain ⟨tree, listed⟩ := there
        obtain ⟨_, empty, _, flagged, _⟩ := pruned.mem_old key tree listed
        have isEmpty : empty = true := List.all_eq_true.mp allEmpty (key, empty) flagged
        subst isEmpty
        exact Or.inr ⟨rfl, flaggedDead flagged⟩
      · rw [Entries.join_lookup_of_absent key (not_exists.mp there)]
        exact Or.inl (Tree.labelAt_empty keys).symm
    · have newChild : (Tree.mk v' d' (some (clearEmpty flags entries'))).child key =
          ((clearEmpty flags entries').lookup key).join := rfl
      rw [newChild, lookup_clearEmpty]
      split
      · rename_i flagged
        exact Or.inr ⟨Tree.labelAt_empty keys, flaggedDead flagged⟩
      · exact pruned.entry_fades unique key keys

theorem PrunedEntries.keptChildren_wellFormed (pruned : PrunedEntries now entries entries' flags)
    (unique : Entries.Unique entries) (v : Option R) (d : Option ℚ) :
    (Tree.mk v d (keptChildren flags entries')).wellFormed = true := by
  have unique' : Entries.Unique entries' := by
    rw [Entries.Unique, pruned.keys_eq]
    exact unique
  have childWellFormed : ∀ key tree', (key, some tree') ∈ entries' → tree'.wellFormed = true := by
    intro key tree' listed
    obtain ⟨_, _, _, _, here⟩ := pruned.mem key tree' listed
    exact here.wellFormed
  rw [Tree.wellFormed_iff]
  intro children stored
  rw [Tree.children_mk, keptChildren] at stored
  split at stored
  · obtain rfl := Option.some.inj stored
    exact ⟨unique', childWellFormed⟩
  · split at stored
    · cases stored
    · obtain rfl := Option.some.inj stored
      exact ⟨unique_clearEmpty flags entries' unique', fun key tree' member =>
        childWellFormed key tree' (mem_clearEmpty key tree' flags entries' member)⟩

end

/-- What pruning makes of the children of a node, whatever becomes of the node itself. -/
structure ChildrenPruned (now : ℚ) (children children' : Option (TreeChildren R)) (allEmpty : Bool) :
    Prop where
  fades : ∀ v v' d d' key keys, ((Tree.mk v d children).labelAt (key :: keys)).Fades now
    ((Tree.mk v' d' children').labelAt (key :: keys))
  wellFormed : ∀ v d, (Tree.mk v d children').wellFormed = true
  dead : allEmpty = true → ∀ v d key keys, ((Tree.mk v d children).labelAt (key :: keys)).Dead now

theorem childrenPruned_none (now : ℚ) : ChildrenPruned (R := R) now none none true := by
  have nothing : ∀ (v : Option R) (d : Option ℚ) (key : String) (keys : List String),
      (Tree.mk v d none).labelAt (key :: keys) = Label.none := by
    intro v d key keys
    rw [Tree.labelAt_cons]
    exact Tree.labelAt_empty keys
  refine ⟨fun v v' d d' key keys => ?_, fun _ _ => rfl, fun _ v d key keys => ?_⟩
  · rw [nothing, nothing]
    exact Or.inl rfl
  · rw [nothing]
    exact Label.dead_none now

theorem PrunedEntries.childrenPruned {now : ℚ} {entries entries' : TreeChildren R} {flags : Flags}
    (pruned : PrunedEntries now entries entries' flags) (unique : Entries.Unique entries) :
    ChildrenPruned now (some entries) (keptChildren flags entries') (flags.all Prod.snd) := by
  refine ⟨fun v v' d d' key keys => pruned.child_fades unique v v' d d' key keys,
    fun v d => pruned.keptChildren_wellFormed unique v d, fun allEmpty v d key keys => ?_⟩
  rw [Tree.labelAt_cons]
  have child : (Tree.mk v d (some entries)).child key = (entries.lookup key).join := rfl
  rw [child]
  cases found : (entries.lookup key).join with
  | none =>
      rw [Option.getD_none, Tree.labelAt_empty]
      exact Label.dead_none now
  | some tree =>
      have listed := Entries.mem_of_lookup key (some tree) entries (Option.join_eq_some_iff.mp found)
      obtain ⟨_, empty, _, flagged, here⟩ := pruned.mem_old key tree listed
      exact here.dead (List.all_eq_true.mp allEmpty (key, empty) flagged) keys

structure FlagStack.Below (level : Nat) (stack : FlagStack) : Prop where
  length : stack.length ≤ level + 1
  slots : ∀ i, level < i → stack.slots i = none

theorem FlagStack.Below.deeper {level : Nat} {stack : FlagStack} (below : stack.Below level) :
    stack.Below (level + 1) :=
  ⟨Nat.le_succ_of_le below.length, fun i deep => below.slots i (by omega)⟩

theorem FlagStack.Below.assign {level : Nat} {stack : FlagStack} (below : stack.Below level)
    (flags : Flags) : (stack.assign level flags).Below level := by
  refine ⟨?_, fun i deep => ?_⟩
  · have := below.length
    simp only [FlagStack.assign]
    omega
  · have other : i ≠ level := by omega
    exact (Function.update_of_ne other _ _).trans (below.slots i deep)

theorem FlagStack.pop_assign {level : Nat} {stack : FlagStack} (below : stack.Below level)
    (flags : Flags) :
    (stack.assign (level + 1) flags).pop = (some flags, ⟨level + 1, stack.slots⟩) := by
  have length : (stack.assign (level + 1) flags).length = level + 1 + 1 := by
    have := below.length
    simp only [FlagStack.assign]
    omega
  unfold FlagStack.pop
  rw [length]
  simp only [FlagStack.assign, Function.update_self, Function.update_idem]
  rw [← below.slots (level + 1) (by omega), Function.update_eq_self]

/-- The first part of the loop body: the children that are left, and a state in which the node
is flagged as full if one of its children is. -/
theorem pruneChildren_some (level : Nat) (key : String) (v : Option R) (d : Option ℚ)
    (entries : TreeChildren R) (flags : Flags) (st : Pruning) (stack : FlagStack)
    (below : stack.Below level)
    (recorded : st.stack = if flags = [] then stack else stack.assign (level + 1) flags) :
    let result := pruneChildren level key (.mk v d (some entries)) st
    result.1 = .mk v d (keptChildren flags entries) ∧
      result.2.stack.flags level = (if flags.all Prod.snd then stack.flags level
        else Entries.put key false (stack.flags level)) ∧
      ∀ pos, result.2.stack.assign level pos = stack.assign level pos := by
  have short := below.length
  by_cases childless : flags = []
  · rw [if_pos childless] at recorded
    have skip : pruneChildren level key (.mk v d (some entries)) st = (.mk v d (some entries), st) := by
      rw [pruneChildren, if_neg]
      rw [recorded]
      omega
    rw [skip, keptChildren, if_pos childless, childless, ← recorded]
    exact ⟨rfl, rfl, fun _ => rfl⟩
  · rw [if_neg childless] at recorded
    have popped := FlagStack.pop_assign below flags
    have length : level + 1 < (stack.assign (level + 1) flags).length := by
      simp only [FlagStack.assign]
      omega
    obtain ⟨cleared, all, after⟩ := removeEmpty_eq level key flags entries true
      ⟨⟨level + 1, stack.slots⟩, st.changed⟩
    rw [Bool.true_and] at all
    simp only [pruneChildren, recorded, if_pos length, popped, Tree.children_mk, cleared, all,
      keptChildren, if_neg childless, Tree.withChildren]
    refine ⟨trivial, ?_, fun pos => ?_⟩
    · rw [after]
      split
      · rfl
      · rw [FlagStack.flags_assign]
        rfl
    · have same : ∀ pos, (⟨level + 1, stack.slots⟩ : FlagStack).assign level pos =
          stack.assign level pos := by
        intro pos
        simp only [FlagStack.assign, FlagStack.mk.injEq, and_true]
        omega
      rw [after]
      split
      · exact same pos
      · rw [FlagStack.assign_assign]
        exact same pos

theorem pruneChildren_none (level : Nat) (key : String) (v : Option R) (d : Option ℚ) (st : Pruning)
    (below : st.stack.Below level) :
    pruneChildren level key (.mk v d none) st = (.mk v d none, st) := by
  have := below.length
  rw [pruneChildren, if_neg (by omega)]

theorem pruneItem_spec (now : ℚ) (level : Nat) (key : String) (v : Option R) (d : Option ℚ)
    (children before after : Option (TreeChildren R)) (allEmpty : Bool) (st : Pruning)
    (stack : FlagStack) (fresh : key ∉ (stack.flags level).map Prod.fst)
    (pruned : ChildrenPruned now before after allEmpty)
    (first : (pruneChildren level key (.mk v d children) st).1 = .mk v d after)
    (flagged : (pruneChildren level key (.mk v d children) st).2.stack.flags level =
      if allEmpty then stack.flags level else Entries.put key false (stack.flags level))
    (assigned : ∀ pos, (pruneChildren level key (.mk v d children) st).2.stack.assign level pos =
      stack.assign level pos) :
    let value := getTreeCurrentSerializedValue (.mk v d before) now
    let result := pruneItem level key value (.mk v d children) st
    ∃ empty, Pruned now (.mk v d before) result.1 empty ∧
      result.2.stack = stack.assign level (stack.flags level ++ [(key, empty)]) := by
  intro value result
  have live : value = (⟨v, d⟩ : Label R).live now := rfl
  have root : ∀ c : Option (TreeChildren R), (Tree.mk v d c).labelAt [] = ⟨v, d⟩ := fun _ => rfl
  have absent := Entries.lookup_of_not_mem key _ fresh
  have appended : ∀ flag, Entries.put key flag (stack.flags level) =
      stack.flags level ++ [(key, flag)] := fun flag => Entries.put_of_not_mem key flag _ fresh
  refine ⟨value.isNone && allEmpty, ⟨fun keys => ?_, ?_, fun empty keys => ?_⟩, ?_⟩
  · cases keys with
    | nil =>
        rw [root]
        simp only [result, pruneItem, first]
        cases gone : value with
        | none =>
            refine Or.inr ⟨rfl, Label.dead_of_live_eq_none now _ ?_⟩
            rw [← live, gone]
        | some r => exact Or.inl rfl
    | cons child keys =>
        simp only [result, pruneItem, first]
        cases value with
        | none => exact pruned.fades v none d none child keys
        | some r => exact pruned.fades v v d d child keys
  · simp only [result, pruneItem, first]
    cases value with
    | none => exact pruned.wellFormed none none
    | some r => exact pruned.wellFormed v d
  · rw [Bool.and_eq_true, Option.isNone_iff_eq_none] at empty
    cases keys with
    | nil =>
        rw [root]
        refine Label.dead_of_live_eq_none now _ ?_
        rw [← live, empty.1]
    | cons child keys => exact pruned.dead empty.2 v d child keys
  · have recordedAs : result.2.stack =
        (pruneChildren level key (.mk v d children) st).2.stack.assign level
          (if List.lookup key ((pruneChildren level key (.mk v d children) st).2.stack.flags level) =
              some false then (pruneChildren level key (.mk v d children) st).2.stack.flags level
            else Entries.put key value.isNone
              ((pruneChildren level key (.mk v d children) st).2.stack.flags level)) := by
      simp only [result, pruneItem]
      cases value <;> rfl
    rw [recordedAs, assigned, flagged]
    cases allEmpty with
    | true =>
        rw [if_pos (c := true = true) rfl, absent, if_neg (by simp), appended, Bool.and_true]
    | false =>
        rw [if_neg Bool.false_ne_true, Entries.lookup_put_self, if_pos (c := some false = some false) rfl,
          appended, Bool.and_false]

/-- What the walk over one node does to the tree and to the state. -/
def NodePruned (now : ℚ) (tree : Tree R) : Prop :=
  ∀ (level : Nat) (key : String) (st : Pruning), st.stack.Below level →
    key ∉ (st.stack.flags level).map Prod.fst →
    ∃ empty, Pruned now tree (pruneNode now level key tree st).1 empty ∧
      (pruneNode now level key tree st).2.stack =
        st.stack.assign level (st.stack.flags level ++ [(key, empty)])

theorem pruneEntries_spec (now : ℚ) : ∀ (entries : TreeChildren R),
    (∀ key tree, (key, some tree) ∈ entries → NodePruned now tree) → Entries.Unique entries →
    ∀ (level : Nat) (st : Pruning), st.stack.Below level →
      (∀ key ∈ entries.map Prod.fst, key ∉ (st.stack.flags level).map Prod.fst) →
      ∃ flags, PrunedEntries now entries (pruneEntries now level entries st).1 flags ∧
        (pruneEntries now level entries st).2.stack =
          if flags = [] then st.stack else st.stack.assign level (st.stack.flags level ++ flags) := by
  intro entries
  induction entries with
  | nil => intro _ _ level st _ _; exact ⟨[], PrunedEntries.nil, rfl⟩
  | cons entry rest ih =>
      intro nodes unique level st below fresh
      obtain ⟨key, child⟩ := entry
      have uniqueRest : Entries.Unique rest := (List.nodup_cons.mp unique).2
      have notLater : key ∉ rest.map Prod.fst := (List.nodup_cons.mp unique).1
      have nodesRest : ∀ key tree, (key, some tree) ∈ rest → NodePruned now tree :=
        fun key tree member => nodes key tree (List.mem_cons_of_mem _ member)
      cases child with
      | none =>
          obtain ⟨flags, pruned, stack⟩ := ih nodesRest uniqueRest level st below
            fun other member => fresh other (List.mem_cons_of_mem _ member)
          exact ⟨flags, PrunedEntries.missing key pruned, stack⟩
      | some tree =>
          obtain ⟨empty, here, after⟩ := nodes key tree List.mem_cons_self level key st below
            (fresh key List.mem_cons_self)
          have below' : (pruneNode now level key tree st).2.stack.Below level := by
            rw [after]
            exact below.assign _
          have recorded : (pruneNode now level key tree st).2.stack.flags level =
              st.stack.flags level ++ [(key, empty)] := by rw [after, FlagStack.flags_assign]
          have fresh' : ∀ other ∈ rest.map Prod.fst,
              other ∉ ((pruneNode now level key tree st).2.stack.flags level).map Prod.fst := by
            intro other member
            rw [recorded, List.map_append, List.mem_append, not_or]
            refine ⟨fresh other (List.mem_cons_of_mem _ member), ?_⟩
            intro same
            obtain rfl := List.mem_singleton.mp same
            exact notLater member
          obtain ⟨flags, pruned, stack⟩ := ih nodesRest uniqueRest level _ below' fresh'
          refine ⟨(key, empty) :: flags, PrunedEntries.child key tree _ empty here pruned, ?_⟩
          have result : (pruneEntries now level ((key, some tree) :: rest) st).2 =
              (pruneEntries now level rest (pruneNode now level key tree st).2).2 := rfl
          rw [result, stack, recorded, after, if_neg (List.cons_ne_nil _ _)]
          split
          · rename_i none
            rw [none]
          · rw [FlagStack.assign_assign, List.append_assoc]
            rfl

theorem pruneNode_spec (now : ℚ) (tree : Tree R) : tree.wellFormed = true → NodePruned now tree := by
  induction tree using Tree.induct with
  | node v d c ih =>
      intro wellFormed level key st below fresh
      cases c with
      | none =>
          have first := pruneChildren_none level key v d st below
          rw [pruneNode]
          exact pruneItem_spec now level key v d none none none true st st.stack fresh
            (childrenPruned_none now) (by rw [first]) (by rw [first, if_pos rfl])
            fun pos => by rw [first]
      | some entries =>
          obtain ⟨unique, childWellFormed⟩ := (Tree.wellFormed_iff _).mp wellFormed entries rfl
          have nodes : ∀ k child, (k, some child) ∈ entries → NodePruned now child :=
            fun k child member => ih entries rfl k child member (childWellFormed k child member)
          have noFlags : st.stack.flags (level + 1) = [] := by
            rw [FlagStack.flags, below.slots (level + 1) (by omega)]
            rfl
          obtain ⟨flags, pruned, recorded⟩ := pruneEntries_spec now entries nodes unique (level + 1) st
            below.deeper (fun k _ => by rw [noFlags]; exact List.not_mem_nil)
          rw [noFlags, List.nil_append] at recorded
          obtain ⟨first, flagged, assigned⟩ := pruneChildren_some level key v d
            (pruneEntries now (level + 1) entries st).1 flags _ st.stack below recorded
          rw [pruneNode]
          exact pruneItem_spec now level key v d _ (some entries) _ (flags.all Prod.snd) _ st.stack fresh
            (pruned.childrenPruned unique) first flagged assigned

theorem pruneTree_spec (now : ℚ) (tree : Tree R) (parentRef : ChainedObject)
    (wellFormed : tree.wellFormed = true) :
    ∃ empty, Pruned now tree (pruneTree now tree (some parentRef)).1 empty := by
  have start : FlagStack.empty.Below 1 := ⟨by decide, fun _ _ => rfl⟩
  obtain ⟨empty, pruned, _⟩ := pruneNode_spec now tree wellFormed 1 parentRef.key
    ⟨FlagStack.empty, false⟩ start List.not_mem_nil
  exact ⟨empty, pruned⟩

theorem pruneTree_none (now : ℚ) (tree : Tree R) (wellFormed : tree.wellFormed = true) :
    (pruneTree now tree none).1.wellFormed = true ∧
      ∀ keys, (tree.labelAt keys).Fades now ((pruneTree now tree none).1.labelAt keys) := by
  rw [pruneTree]
  obtain ⟨v, d, children⟩ := tree
  cases children with
  | none => exact ⟨wellFormed, fun keys => Or.inl rfl⟩
  | some entries =>
      obtain ⟨unique, childWellFormed⟩ := (Tree.wellFormed_iff _).mp wellFormed entries rfl
      have start : FlagStack.empty.Below 2 := ⟨by decide, fun _ _ => rfl⟩
      obtain ⟨flags, pruned, _⟩ := pruneEntries_spec now entries
        (fun key child member => pruneNode_spec now child (childWellFormed key child member)) unique 2
        ⟨FlagStack.empty, false⟩ start (fun _ _ => List.not_mem_nil)
      constructor
      · rw [Tree.wellFormed_iff]
        intro entries' same
        obtain rfl := Option.some.inj same
        refine ⟨?_, fun key child member => ?_⟩
        · rw [Entries.Unique, pruned.keys_eq]
          exact unique
        · obtain ⟨_, _, _, _, here⟩ := pruned.mem key child member
          exact here.wellFormed
      · intro keys
        cases keys with
        | nil => exact Or.inl rfl
        | cons key keys =>
            rw [Tree.labelAt_cons, Tree.labelAt_cons]
            exact pruned.entry_fades unique key keys

theorem pruneTree_wellFormed (now : ℚ) (tree : Tree R) (parentRef : Option ChainedObject)
    (wellFormed : tree.wellFormed = true) : (pruneTree now tree parentRef).1.wellFormed = true := by
  cases parentRef with
  | some parent =>
      obtain ⟨_, pruned⟩ := pruneTree_spec now tree parent wellFormed
      exact pruned.wellFormed
  | none => exact (pruneTree_none now tree wellFormed).1

theorem pruneTree_fades (now : ℚ) (tree : Tree R) (parentRef : Option ChainedObject)
    (wellFormed : tree.wellFormed = true) (keys : List String) :
    (tree.labelAt keys).Fades now ((pruneTree now tree parentRef).1.labelAt keys) := by
  cases parentRef with
  | some parent =>
      obtain ⟨_, pruned⟩ := pruneTree_spec now tree parent wellFormed
      exact pruned.fades keys
  | none => exact (pruneTree_none now tree wellFormed).2 keys

end TreeKeyCache
