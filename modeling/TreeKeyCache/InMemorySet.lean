import TreeKeyCache.Refinement
import TreeKeyCache.SavedTrees

/-! # The in-memory `deepTreeSet`

`utils/deep-tree-set.ts` walks a tree in memory and yields a view onto each node of the path.
The consumer assigns through any view it has got so far, also while the walk goes on.  What
is yielded and what is assigned is kept in a log. -/
set_option autoImplicit false
namespace TreeKeyCache

variable {T : Type}

/-! ## The walk -/

/-- A view onto a node, not a copy of its value. -/
structure StepRef where
  treeRef : Place
  key : String
  level : Nat
  nodeRef : ChainedObject

namespace StepRef

def value (memory : Memory T) (step : StepRef) : Option T := (memory.nodeAt step.treeRef).value

def setValue (memory : Memory T) (step : StepRef) (newValue : Option T) : Memory T :=
  memory.modify step.treeRef fun tree => tree.withValue newValue

def toStep (memory : Memory T) (step : StepRef) : Step T :=
  ⟨step.key, step.value memory, step.level, step.nodeRef⟩

end StepRef

/-- What is assigned, and through which of the steps, when the latest of these is yielded. -/
abbrev StepEditor (T : Type) := List (Step T) → List (Nat × Option T)

inductive StepEvent (T : Type) where
  | yielded (step : Step T)
  | assigned (nodeRef : ChainedObject) (newValue : Option T)

structure Stepped (T : Type) where
  memory : Memory T
  steps : List StepRef
  log : List (StepEvent T)

namespace Stepped

def start (tree : Tree T) : Stepped T := ⟨Memory.start tree, [], []⟩

def assign (st : Stepped T) (edit : Nat × Option T) : Stepped T :=
  match st.steps[edit.1]? with
  | none => st
  | some step =>
      { st with
        memory := step.setValue st.memory edit.2
        log := st.log ++ [.assigned step.nodeRef edit.2] }

def yielded (st : Stepped T) (step : StepRef) : Stepped T :=
  { st with steps := st.steps ++ [step], log := st.log ++ [.yielded (step.toStep st.memory)] }

def edited (editor : StepEditor T) (st : Stepped T) : Stepped T :=
  (editor (st.steps.map (StepRef.toStep st.memory))).foldl assign st

end Stepped

namespace InMemory

variable (createValue : Option (Nat → Option T)) (editor : StepEditor T)

/-- The literal `{ [TreeKeys.value]: createValue?.(level) }`. -/
def newTree (level : Nat) : Tree T := Tree.empty.withValue (createValue.bind fun create => create level)

/-- The loop of `deepTreeSet`. -/
def deepTreeSetFrom : Place → Nat → Option ChainedObject → List String → Stepped T → Stepped T
  | _, _, _, [], st => st
  | tree, level, parentRef, key :: path, st =>
      let entered := st.memory.openChild tree key (newTree createValue (level + 1))
      let nodeRef := ChainedObject.ofParent key (level + 1) parentRef
      let st := { st with memory := entered.1 }.yielded ⟨entered.2, key, level + 1, nodeRef⟩
      deepTreeSetFrom entered.2 (level + 1) (some nodeRef) path (st.edited editor)

def deepTreeSet (path : List String) (st : Stepped T) : Stepped T :=
  deepTreeSetFrom createValue editor .root 0 none path st

/-- One path after the other, each to its end. -/
def deepTreeSets (paths : List (List String)) (st : Stepped T) : Stepped T :=
  paths.foldl (fun st path => deepTreeSet createValue editor path st) st

end InMemory

/-! ## What a change leaves alone -/

namespace Tree

/-- What lies off the path to a changed node is as it was, and so is what lies below it when the
change leaves it there. -/
theorem sub_modifyAt_of_ne (f : Tree T → Tree T) : ∀ (p : List String) (tree node : Tree T),
    tree.sub p = some node → ∀ q, ¬ q <+: p →
      (∀ key r, q = p ++ key :: r → (f node).sub (key :: r) = node.sub (key :: r)) →
        (tree.modifyAt f p).sub q = tree.sub q := by
  intro p
  induction p with
  | nil =>
      intro tree node found q apart keeps
      obtain rfl := Option.some.inj found
      cases q with
      | nil => exact absurd List.nil_prefix apart
      | cons key r => exact keeps key r rfl
  | cons first p ih =>
      intro tree node found q apart keeps
      rw [sub_cons, Option.bind_eq_some_iff] at found
      obtain ⟨child, listed, found⟩ := found
      cases q with
      | nil => exact absurd List.nil_prefix apart
      | cons key q =>
          rw [modifyAt, listed, sub_cons, sub_cons, child_withChildren_put, ← child_eq_lookup]
          by_cases same : key = first
          · subst same
            rw [if_pos rfl, listed, Option.bind_some, Option.bind_some]
            apply ih child node found q
            · exact fun onPath => apart (List.cons_prefix_cons.mpr ⟨rfl, onPath⟩)
            · exact fun next r split => keeps next r (congrArg (key :: ·) split)
          · rw [if_neg same]

theorem sub_cons_congr {tree other : Tree T} (same : tree.children.getD [] = other.children.getD [])
    (key : String) (r : List String) : tree.sub (key :: r) = other.sub (key :: r) := by
  rw [sub_cons, sub_cons, child_eq_lookup, child_eq_lookup, same]

theorem sub_withValue (p : List String) (tree node : Tree T) (found : tree.sub p = some node)
    (value : Option T) (q : List String) (apart : ¬ q <+: p) :
    (tree.modifyAt (fun node => node.withValue value) p).sub q = tree.sub q := by
  apply sub_modifyAt_of_ne _ p tree node found q apart
  intro key r _
  apply sub_cons_congr
  rw [withValue_children]

theorem sub_opened (p : List String) (tree node : Tree T) (found : tree.sub p = some node)
    (q : List String) (apart : ¬ q <+: p) :
    (tree.modifyAt (fun top => top.withChildren (some (node.children.getD []))) p).sub q =
      tree.sub q := by
  apply sub_modifyAt_of_ne _ p tree node found q apart
  intro key r _
  apply sub_cons_congr
  rw [withChildren_children, Option.getD_some]

theorem sub_created (p : List String) (key : String) (tree node leaf : Tree T)
    (found : tree.sub p = some node) (missing : node.child key = none) (bare : leaf.children = none)
    (q : List String) (apart : ¬ q <+: p ++ [key]) :
    (tree.modifyAt (fun top => top.withChildren
        (some (Entries.put key (some leaf) (node.children.getD [])))) p).sub q = tree.sub q := by
  have above : ¬ q <+: p := fun onPath => apart (onPath.trans (List.prefix_append p [key]))
  apply sub_modifyAt_of_ne _ p tree node found q above
  intro first r split
  rw [sub_cons, sub_cons, child_withChildren_put, ← child_eq_lookup]
  by_cases same : first = key
  · subst same
    rw [if_pos rfl, missing, Option.bind_some, Option.bind_none]
    cases r with
    | nil => exact absurd (split ▸ List.prefix_refl _) apart
    | cons second r =>
        rw [sub_cons, child_eq_lookup, bare]
        rfl
  · rw [if_neg same]

end Tree

/-! ## What the log tells -/

def StepEvent.step? : StepEvent T → Option (Step T)
  | yielded step => some step
  | assigned _ _ => none

def StepEvent.assigns (q : List String) : StepEvent T → Option (Option T)
  | yielded _ => none
  | assigned nodeRef newValue => if nodeRef.keys = q then some newValue else none

def lastAssigned (log : List (StepEvent T)) (q : List String) : Option (Option T) :=
  (log.filterMap (StepEvent.assigns q)).getLast?

/-- The value that the node has after these events: the last one assigned, or else its old one,
or else the created one. -/
def valueAfter (tree : Tree T) (createValue : Option (Nat → Option T)) (log : List (StepEvent T))
    (q : List String) : Option T :=
  (lastAssigned log q).getD
    (match tree.sub q with
    | some node => node.value
    | none => createValue.bind fun create => create q.length)

theorem lastAssigned_yielded (log : List (StepEvent T)) (step : Step T) (q : List String) :
    lastAssigned (log ++ [.yielded step]) q = lastAssigned log q := by
  rw [lastAssigned, List.filterMap_append]
  change (log.filterMap _ ++ []).getLast? = _
  rw [List.append_nil]
  rfl

theorem lastAssigned_assigned (log : List (StepEvent T)) (nodeRef : ChainedObject)
    (newValue : Option T) (q : List String) :
    lastAssigned (log ++ [.assigned nodeRef newValue]) q =
      if nodeRef.keys = q then some newValue else lastAssigned log q := by
  rw [lastAssigned, List.filterMap_append, List.filterMap_cons, StepEvent.assigns]
  by_cases same : nodeRef.keys = q
  · rw [if_pos same, if_pos same]
    exact List.getLast?_concat
  · rw [if_neg same, if_neg same]
    change (log.filterMap _ ++ []).getLast? = _
    rw [List.append_nil]
    rfl

theorem concat_eq_split {A : Type} {log before after : List A} {last event : A}
    (split : log ++ [last] = before ++ event :: after) :
    (log = before ∧ last = event) ∨ ∃ after', log = before ++ event :: after' := by
  induction after using List.reverseRecOn with
  | nil =>
      obtain ⟨same, ends⟩ := List.append_inj' split rfl
      exact .inl ⟨same, (List.cons.inj ends).1⟩
  | append_singleton after final _ =>
      rw [← List.cons_append, ← List.append_assoc] at split
      exact .inr ⟨after, (List.append_inj' split rfl).1⟩

/-! ## The run -/

def stepRefAt (p : List String) : StepRef := ⟨⟨none, p⟩, (nodeRefOf p).key, p.length, nodeRefOf p⟩

/-- A run that has yielded the nodes at these paths, each with all those above it. -/
structure StepsThrough (tree : Tree T) (createValue : Option (Nat → Option T))
    (visited : List (List String)) (st : Stepped T) : Prop where
  steps : st.steps = visited.map stepRefAt
  nonempty : [] ∉ visited
  closed : ∀ p ∈ visited, ∀ q, q ≠ [] → q <+: p → q ∈ visited
  root : (st.memory none).slot [] = tree.slot []
  held : ∀ q ∈ visited, (st.memory none).slot q =
    some ⟨valueAfter tree createValue st.log q, (tree.sub q).bind Tree.deadline⟩
  frame : ∀ q, q ≠ [] → q ∉ visited → (st.memory none).sub q = tree.sub q
  fresh : ∀ q, q ∉ visited → lastAssigned st.log q = none
  listed : (st.log.filterMap StepEvent.step?).map (fun step => (step.key, step.level, step.nodeRef)) =
    visited.map fun p => ((nodeRefOf p).key, p.length, nodeRefOf p)
  seen : ∀ before step after, st.log = before ++ .yielded step :: after →
    step.value = valueAfter tree createValue before step.nodeRef.keys

namespace StepsThrough

variable {tree : Tree T} {createValue : Option (Nat → Option T)} {visited : List (List String)}
  {st : Stepped T}

theorem start (tree : Tree T) (createValue : Option (Nat → Option T)) :
    StepsThrough tree createValue [] (.start tree) := by
  refine ⟨rfl, List.not_mem_nil, fun _ member => (nomatch member), rfl,
    fun _ member => (nomatch member), fun _ _ _ => rfl, fun _ _ => rfl, rfl, ?_⟩
  intro before step after split
  cases before <;> cases split

theorem exists_node (follows : StepsThrough tree createValue visited st) {p : List String}
    (known : p = [] ∨ p ∈ visited) : ∃ node, (st.memory none).sub p = some node := by
  rcases known with rfl | listed
  · exact ⟨_, rfl⟩
  · obtain ⟨node, found, _⟩ := Tree.exists_of_slot_eq (follows.held p listed)
    exact ⟨node, found⟩

theorem assign (follows : StepsThrough tree createValue visited st) (edit : Nat × Option T) :
    StepsThrough tree createValue visited (st.assign edit) := by
  rw [Stepped.assign]
  split
  case h_1 => exact follows
  case h_2 step found =>
      have member := List.mem_of_getElem? found
      rw [follows.steps, List.mem_map] at member
      obtain ⟨p, listed, rfl⟩ := member
      obtain ⟨node, there⟩ := follows.exists_node (.inr listed)
      have filled : p ≠ [] := fun empty => follows.nonempty (empty ▸ listed)
      have keys : (stepRefAt p).nodeRef.keys = p := nodeRefOf_keys p filled
      have changed : ((stepRefAt p).setValue st.memory edit.2) none =
          (st.memory none).modifyAt (fun node => node.withValue edit.2) p :=
        modify_root _ _ _
      have slots := Tree.slot_withValue p _ node there edit.2
      have deadline : node.deadline = (tree.sub p).bind Tree.deadline := by
        have held := follows.held p listed
        rw [Tree.slot, there, Option.map_some, Option.some.injEq] at held
        exact congrArg Label.deadline held
      refine ⟨follows.steps, follows.nonempty, follows.closed, ?_, ?_, ?_, ?_, ?_, ?_⟩
      · dsimp only
        rw [changed, slots, Function.update_of_ne filled.symm]
        exact follows.root
      · intro q member
        dsimp only
        rw [changed, slots, valueAfter, lastAssigned_assigned, keys]
        by_cases same : p = q
        · rw [← same, Function.update_self, if_pos rfl, Option.getD_some, deadline]
        · rw [Function.update_of_ne (Ne.symm same), if_neg same]
          exact follows.held q member
      · intro q some out
        dsimp only
        rw [changed, Tree.sub_withValue p _ node there _ q
          fun onPath => out (follows.closed p listed q some onPath)]
        exact follows.frame q some out
      · intro q out
        rw [lastAssigned_assigned, keys, if_neg fun same : p = q => out (same ▸ listed)]
        exact follows.fresh q out
      · rw [List.filterMap_append]
        change List.map _ (_ ++ []) = _
        rw [List.append_nil]
        exact follows.listed
      · intro before other after split
        rcases concat_eq_split split with ⟨_, differs⟩ | ⟨after', earlier⟩
        · cases differs
        · exact follows.seen before other after' earlier

theorem edited (follows : StepsThrough tree createValue visited st) (editor : StepEditor T) :
    StepsThrough tree createValue visited (st.edited editor) := by
  rw [Stepped.edited]
  generalize editor _ = edits
  induction edits generalizing st with
  | nil => exact follows
  | cons edit edits ih => exact ih (follows.assign edit)

/-- The child of a visited node is there when it is yielded, and the rest of the tree is as before. -/
theorem openChild (follows : StepsThrough tree createValue visited st) {base : List String}
    (known : base = [] ∨ base ∈ visited) (key : String) (ordinary : key ∉ inheritedNames) :
    let p := base ++ [key]
    let entered := st.memory.openChild ⟨none, base⟩ key (InMemory.newTree createValue (base.length + 1))
    entered.2 = ⟨none, p⟩ ∧
      (entered.1 none).slot p =
        some ⟨valueAfter tree createValue st.log p, (tree.sub p).bind Tree.deadline⟩ ∧
      (∀ q, q ≠ p → (entered.1 none).slot q = (st.memory none).slot q) ∧
      ∀ q, ¬ q <+: p → (entered.1 none).sub q = (st.memory none).sub q := by
  intro p entered
  obtain ⟨node, there⟩ := follows.exists_node known
  have atNode := nodeAt_root there
  have below : (st.memory none).sub p = node.child key := by
    rw [Tree.sub_append, there, Option.bind_some, Tree.sub_cons]
    cases node.child key <;> rfl
  have filled : p ≠ [] := List.append_ne_nil_of_right_ne_nil base (List.cons_ne_nil key [])
  have read := readChild_of_not_inherited (node.children.getD []) key ordinary
  rw [← Tree.child_eq_lookup] at read
  cases listed : node.child key with
  | some child =>
      rw [listed] at read below
      have opened : entered = (st.memory.modify ⟨none, base⟩ fun top =>
          top.withChildren (some (node.children.getD [])), ⟨none, p⟩) := by
        change Memory.openChild _ _ _ _ = _
        rw [Memory.openChild, atNode, read]
        rfl
      have slots := Tree.slot_opened base _ node there
      rw [opened]
      refine ⟨rfl, ?_, ?_, ?_⟩
      · dsimp only
        rw [modify_root, slots]
        by_cases before : p ∈ visited
        · exact follows.held p before
        · have same := follows.frame p filled before
          rw [below] at same
          rw [Tree.slot, below, valueAfter, follows.fresh p before, ← same]
          rfl
      · intro q _
        dsimp only
        rw [modify_root, slots]
      · intro q apart
        dsimp only
        rw [modify_root]
        exact Tree.sub_opened base _ node there q
          fun onPath => apart (onPath.trans (List.prefix_append base [key]))
  | none =>
      rw [listed] at read below
      let leaf : Tree T := InMemory.newTree createValue (base.length + 1)
      have created : entered = (st.memory.modify ⟨none, base⟩ fun top => top.withChildren
          (some (Entries.put key (some leaf) (node.children.getD []))), ⟨none, p⟩) := by
        change Memory.openChild _ _ _ _ = _
        rw [Memory.openChild, atNode, read]
        rfl
      have slots := Tree.slot_created base key _ node leaf there listed rfl
      have before : p ∉ visited := by
        intro member
        have held := follows.held p member
        rw [Tree.slot, below] at held
        cases held
      have absent : tree.sub p = none := by rw [← follows.frame p filled before, below]
      rw [created]
      refine ⟨rfl, ?_, ?_, ?_⟩
      · dsimp only
        rw [modify_root, slots, Function.update_self, valueAfter, follows.fresh p before, absent,
          List.length_append]
        rfl
      · intro q apart
        dsimp only
        rw [modify_root, slots, Function.update_of_ne apart]
      · intro q apart
        dsimp only
        rw [modify_root]
        exact Tree.sub_created base key _ node leaf there listed rfl q apart

/-- The loop body: one more node is yielded, with the value it has after everything before. -/
theorem visit (follows : StepsThrough tree createValue visited st) {base : List String}
    (known : base = [] ∨ base ∈ visited) (key : String) (ordinary : key ∉ inheritedNames) :
    let p := base ++ [key]
    let entered := st.memory.openChild ⟨none, base⟩ key (InMemory.newTree createValue (base.length + 1))
    StepsThrough tree createValue (visited ++ [p])
      ({ st with memory := entered.1 }.yielded (stepRefAt p)) := by
  intro p entered
  obtain ⟨place, here, elsewhere, apart⟩ := follows.openChild known key ordinary
  have filled : p ≠ [] := List.append_ne_nil_of_right_ne_nil base (List.cons_ne_nil key [])
  have value : (stepRefAt p).value entered.1 = valueAfter tree createValue st.log p := by
    obtain ⟨node, found, label⟩ := Tree.exists_of_slot_eq here
    rw [StepRef.value, stepRefAt, nodeAt_root found]
    exact (congrArg Label.value label).symm
  refine ⟨?_, ?_, ?_, ?_, ?_, ?_, ?_, ?_, ?_⟩
  · rw [List.map_append]
    exact congrArg (· ++ [stepRefAt p]) follows.steps
  · rw [List.mem_append, List.mem_singleton]
    rintro (old | new)
    · exact follows.nonempty old
    · exact filled new.symm
  · intro p' member q some onPath
    rw [List.mem_append, List.mem_singleton] at member ⊢
    rcases member with old | new
    · exact .inl (follows.closed p' old q some onPath)
    · rw [new, List.prefix_concat_iff] at onPath
      rcases onPath with whole | above
      · exact .inr whole
      · rcases known with rfl | listed
        · exact absurd (List.prefix_nil.mp above) some
        · exact .inl (follows.closed base listed q some above)
  · exact (elsewhere [] filled.symm).trans follows.root
  · intro q member
    dsimp only [Stepped.yielded]
    rw [valueAfter, lastAssigned_yielded]
    by_cases same : q = p
    · rw [same]
      exact here
    · rw [List.mem_append, List.mem_singleton] at member
      exact (elsewhere q same).trans (follows.held q (member.resolve_right same))
  · intro q some out
    rw [List.mem_append, List.mem_singleton, not_or] at out
    rw [← follows.frame q some out.1]
    apply apart q
    intro onPath
    rcases List.prefix_concat_iff.mp onPath with whole | above
    · exact out.2 whole
    · rcases known with rfl | listed
      · exact some (List.prefix_nil.mp above)
      · exact out.1 (follows.closed base listed q some above)
  · intro q out
    rw [List.mem_append, not_or] at out
    exact (lastAssigned_yielded _ _ q).trans (follows.fresh q out.1)
  · rw [List.map_append, ← follows.listed]
    change List.map _ (List.filterMap _ (st.log ++ [_])) = _
    rw [List.filterMap_append, List.map_append]
    rfl
  · intro before step after split
    rcases concat_eq_split split with ⟨same, last⟩ | ⟨after', earlier⟩
    · rw [← StepEvent.yielded.inj last, ← same]
      change (stepRefAt p).value entered.1 = valueAfter tree createValue st.log (nodeRefOf p).keys
      rw [value, nodeRefOf_keys p filled]
    · exact follows.seen before step after' earlier

end StepsThrough

/-! ## Whole runs -/

section
variable (tree : Tree T) (createValue : Option (Nat → Option T)) (editor : StepEditor T)

/-- What holds before a walk, and after each yield with what the consumer does then, holds after
the walk. -/
theorem InMemory.deepTreeSetFrom_rule {holds : List (List String) → Stepped T → Prop}
    (visit : ∀ visited st base key, holds visited st → (base = [] ∨ base ∈ visited) →
      key ∉ inheritedNames → holds (visited ++ [base ++ [key]])
        (({ st with memory := (st.memory.openChild ⟨none, base⟩ key
          (InMemory.newTree createValue (base.length + 1))).1 }.yielded
            (stepRefAt (base ++ [key]))).edited editor)) :
    ∀ (path base : List String) (visited : List (List String)) (st : Stepped T),
      (∀ key ∈ path, key ∉ inheritedNames) → holds visited st → (base = [] ∨ base ∈ visited) →
        holds (visited ++ prefixesFrom (base ++ path) base.length path.length)
          (InMemory.deepTreeSetFrom createValue editor ⟨none, base⟩ base.length (chainOf base) path
            st) := by
  intro path
  induction path with
  | nil =>
      intro base visited st _ before _
      rw [List.length_nil]
      change holds (visited ++ []) st
      rw [List.append_nil]
      exact before
  | cons key path ih =>
      intro base visited st ordinary before known
      have plain := ordinary key List.mem_cons_self
      have place : (st.memory.openChild ⟨none, base⟩ key
          (InMemory.newTree createValue (base.length + 1))).2 = ⟨none, base ++ [key]⟩ := by
        rw [Memory.openChild, readChild_of_not_inherited _ key plain]
        split <;> first | rfl | (rename_i same; split at same <;> cases same)
      have ref : (⟨⟨none, base ++ [key]⟩, key, base.length + 1,
          ChainedObject.ofParent key (base.length + 1) (chainOf base)⟩ : StepRef) =
            stepRefAt (base ++ [key]) := by
        rw [stepRefAt, nodeRefOf_append_singleton, ChainedObject.key_ofParent, List.length_append]
        rfl
      have first : (base ++ key :: path).take (base.length + 1) = base ++ [key] := by
        rw [List.take_length_add_append]
        rfl
      have after := ih (base ++ [key]) (visited ++ [base ++ [key]]) _
        (fun other member => ordinary other (List.mem_cons_of_mem _ member))
        (visit visited st base key before known plain)
        (.inr (List.mem_append_right _ List.mem_cons_self))
      rw [List.append_assoc, List.append_assoc, List.length_append, List.length_singleton,
        List.singleton_append, List.singleton_append, chainOf_append_singleton] at after
      rw [List.length_cons, prefixesFrom_succ, first, InMemory.deepTreeSetFrom]
      simp only [place, ref]
      exact after

theorem InMemory.deepTreeSets_rule {holds : List (List String) → Stepped T → Prop}
    (visit : ∀ visited st base key, holds visited st → (base = [] ∨ base ∈ visited) →
      key ∉ inheritedNames → holds (visited ++ [base ++ [key]])
        (({ st with memory := (st.memory.openChild ⟨none, base⟩ key
          (InMemory.newTree createValue (base.length + 1))).1 }.yielded
            (stepRefAt (base ++ [key]))).edited editor)) :
    ∀ (paths : List (List String)) (visited : List (List String)) (st : Stepped T),
      (∀ path ∈ paths, ∀ key ∈ path, key ∉ inheritedNames) → holds visited st →
        holds (visited ++ paths.flatMap nonemptyPrefixes)
          (InMemory.deepTreeSets createValue editor paths st) := by
  intro paths
  induction paths with
  | nil =>
      intro visited st _ before
      rw [List.flatMap_nil, List.append_nil]
      exact before
  | cons path paths ih =>
      intro visited st ordinary before
      have walked := InMemory.deepTreeSetFrom_rule createValue editor visit path [] visited st
        (ordinary path List.mem_cons_self) before (.inl rfl)
      rw [List.flatMap_cons, ← List.append_assoc]
      exact ih _ _ (fun other member => ordinary other (List.mem_cons_of_mem _ member)) walked

theorem stepsThrough_deepTreeSets (paths : List (List String))
    (ordinary : ∀ path ∈ paths, ∀ key ∈ path, key ∉ inheritedNames) :
    StepsThrough tree createValue (paths.flatMap nonemptyPrefixes)
      (InMemory.deepTreeSets createValue editor paths (.start tree)) := by
  refine InMemory.deepTreeSets_rule createValue editor ?_ paths [] _ ordinary (.start tree createValue)
  intro visited st base key follows known plain
  exact (follows.visit known key plain).edited editor

/-- The prefixes of the paths are yielded and updated, and nothing else. -/
structure UpdatesPrefixes (paths : List (List String)) (st : Stepped T) : Prop where
  yields : (st.log.filterMap StepEvent.step?).map (fun step =>
      (step.nodeRef.keys, step.level, buildKey step.nodeRef)) =
    (paths.flatMap nonemptyPrefixes).map fun p => (p, p.length, joinKeys p)
  seen : ∀ before step after, st.log = before ++ .yielded step :: after →
    step.value = valueAfter tree createValue before step.nodeRef.keys
  live : ∀ step ∈ st.steps, step.value st.memory = valueAfter tree createValue st.log step.nodeRef.keys
  updated : ∀ q ∈ paths.flatMap nonemptyPrefixes, ∃ node, (st.memory none).sub q = some node ∧
    node.value = valueAfter tree createValue st.log q ∧
    node.deadline = (tree.sub q).bind Tree.deadline
  kept : ∀ q, q ∉ paths.flatMap nonemptyPrefixes → q ≠ [] → (st.memory none).sub q = tree.sub q
  root : (st.memory none).value = tree.value ∧ (st.memory none).deadline = tree.deadline

theorem StepsThrough.updatesPrefixes {paths : List (List String)} {st : Stepped T}
    (follows : StepsThrough tree createValue (paths.flatMap nonemptyPrefixes) st) :
    UpdatesPrefixes tree createValue paths st := by
  have filled : ∀ p ∈ paths.flatMap nonemptyPrefixes, p ≠ [] :=
    fun p member empty => follows.nonempty (empty ▸ member)
  have updated : ∀ q ∈ paths.flatMap nonemptyPrefixes, ∃ node, (st.memory none).sub q = some node ∧
      node.value = valueAfter tree createValue st.log q ∧
      node.deadline = (tree.sub q).bind Tree.deadline := by
    intro q member
    have held := follows.held q member
    obtain ⟨node, found, label⟩ := Tree.exists_of_slot_eq held
    exact ⟨node, found, (congrArg Label.value label).symm, (congrArg Label.deadline label).symm⟩
  refine ⟨?_, follows.seen, ?_, updated, fun q out some => follows.frame q some out, ?_⟩
  · have listed := congrArg (List.map fun told : String × Nat × ChainedObject =>
      (told.2.2.keys, told.2.1, buildKey told.2.2)) follows.listed
    rw [List.map_map, List.map_map] at listed
    refine listed.trans (List.map_congr_left ?_)
    intro p member
    have some := filled p member
    change ((nodeRefOf p).keys, p.length, buildKey (nodeRefOf p)) = _
    rw [nodeRefOf_keys p some, buildKey_nodeRefOf p some]
  · intro step member
    rw [follows.steps, List.mem_map] at member
    obtain ⟨p, listed, rfl⟩ := member
    obtain ⟨node, found, value, _⟩ := updated p listed
    change (st.memory.nodeAt ⟨none, p⟩).value = valueAfter tree createValue st.log (nodeRefOf p).keys
    rw [nodeAt_root found, nodeRefOf_keys p (filled p listed), value]
  · have root := follows.root
    rw [Tree.slot_nil, Tree.slot_nil, Option.some.injEq] at root
    exact ⟨congrArg Label.value root, congrArg Label.deadline root⟩

end

/-! ## Counting -/

/-- `step.value++` for the step that was yielded last. -/
def increment : StepEditor Nat := fun steps =>
  steps.getLast?.toList.map fun step => (steps.length - 1, step.value.map (· + 1))

def startAtZero : Option (Nat → Option Nat) := some fun _ => some 0

theorem StepsThrough.count {visited : List (List String)} {st : Stepped Nat}
    (follows : StepsThrough Tree.empty startAtZero visited st) {base : List String}
    (known : base = [] ∨ base ∈ visited) (key : String) (ordinary : key ∉ inheritedNames)
    (counted : ∀ q, q ≠ [] → valueAfter Tree.empty startAtZero st.log q = some (visited.count q)) :
    ∀ q, q ≠ [] → valueAfter Tree.empty startAtZero
      (({ st with memory := (st.memory.openChild ⟨none, base⟩ key
        (InMemory.newTree startAtZero (base.length + 1))).1 }.yielded
          (stepRefAt (base ++ [key]))).edited increment).log q =
          some ((visited ++ [base ++ [key]]).count q) := by
  have visits := follows.visit known key ordinary
  dsimp only at visits
  generalize (st.memory.openChild ⟨none, base⟩ key
    (InMemory.newTree startAtZero (base.length + 1))).1 = memory at visits ⊢
  let p := base ++ [key]
  have filled : p ≠ [] := List.append_ne_nil_of_right_ne_nil base (List.cons_ne_nil key [])
  have keys : (nodeRefOf p).keys = p := nodeRefOf_keys p filled
  have value : (stepRefAt p).value memory = some (visited.count p) := by
    have seen := visits.seen st.log ((stepRefAt p).toStep memory) [] rfl
    change (stepRefAt p).value memory =
      valueAfter Tree.empty startAtZero st.log (nodeRefOf p).keys at seen
    rw [seen, keys, counted p filled]
  have last : (st.steps ++ [stepRefAt p])[(st.steps ++ [stepRefAt p]).length - 1]? =
      some (stepRefAt p) := by
    rw [List.length_append, List.length_singleton, Nat.add_sub_cancel, List.getElem?_concat_length]
  have edits : increment ((st.steps ++ [stepRefAt p]).map (StepRef.toStep memory)) =
      [((st.steps ++ [stepRefAt p]).length - 1, some (visited.count p + 1))] := by
    rw [increment, List.map_append, List.map_singleton, List.getLast?_concat, ← List.map_singleton,
      ← List.map_append, List.length_map]
    change [(_, ((stepRefAt p).value memory).map (· + 1))] = _
    rw [value]
    rfl
  have log : (({ st with memory := memory }.yielded (stepRefAt p)).edited increment).log =
      st.log ++ [.yielded ((stepRefAt p).toStep memory)] ++
        [.assigned (nodeRefOf p) (some (visited.count p + 1))] := by
    rw [Stepped.edited, Stepped.yielded, edits, List.foldl_cons, List.foldl_nil, Stepped.assign]
    simp only [last]
    rfl
  intro q some
  rw [log, valueAfter, lastAssigned_assigned, lastAssigned_yielded, keys, List.count_append,
    List.count_singleton]
  by_cases same : p = q
  · rw [if_pos same, ← same, Option.getD_some]
    simp [p]
  · have differs : (base ++ [key] == q) = false := beq_eq_false_iff_ne.mpr same
    rw [if_neg same, differs]
    exact counted q some

theorem increment_counts (paths : List (List String))
    (ordinary : ∀ path ∈ paths, ∀ key ∈ path, key ∉ inheritedNames) :
    ∀ q, q ≠ [] → valueAfter Tree.empty startAtZero
      (InMemory.deepTreeSets startAtZero increment paths (.start Tree.empty)).log q =
        some ((paths.flatMap nonemptyPrefixes).count q) := by
  refine (@InMemory.deepTreeSets_rule Nat startAtZero increment (fun visited st =>
    StepsThrough Tree.empty startAtZero visited st ∧
      ∀ q, q ≠ [] → valueAfter Tree.empty startAtZero st.log q = some (visited.count q))
    ?_ paths [] _ ordinary ⟨.start Tree.empty startAtZero, ?_⟩).2
  · rintro visited st base key ⟨follows, counted⟩ known plain
    exact ⟨(follows.visit known key plain).edited increment, follows.count known key plain counted⟩
  · intro q some
    cases q with
    | nil => exact absurd rfl some
    | cons key q => rfl

theorem count_prefixes (paths : List (List String)) (q : List String) (some : q ≠ []) :
    (paths.flatMap nonemptyPrefixes).count q = paths.countP fun path => q <+: path := by
  induction paths with
  | nil => rfl
  | cons path paths ih =>
      have once := prefixesFrom_nodup path 0 path.length (by omega)
      have member := mem_prefixesFrom_iff path path.length (le_refl _) q
      rw [List.flatMap_cons, List.count_append, ih, List.countP_cons, Nat.add_comm, nonemptyPrefixes]
      by_cases onPath : q <+: path
      · rw [List.count_eq_one_of_mem once (member.mpr ⟨onPath, some, onPath.length_le⟩),
          if_pos (decide_eq_true onPath)]
      · rw [List.count_eq_zero_of_not_mem fun listed => onPath (member.mp listed).1,
          if_neg fun same => onPath (of_decide_eq_true same)]

/-- The run yields, creates and assigns to the prefixes of the paths only.  Counting the yields
leaves at each node the number of paths that go through it. -/
theorem deepTreeSets_updatesPrefixes (paths : List (List String))
    (ordinary : ∀ path ∈ paths, ∀ key ∈ path, key ∉ inheritedNames) :
    (∀ (T : Type) (tree : Tree T) (createValue : Option (Nat → Option T)) (editor : StepEditor T),
      UpdatesPrefixes tree createValue paths
        (InMemory.deepTreeSets createValue editor paths (.start tree))) ∧
    ∀ q, q ≠ [] →
      (((InMemory.deepTreeSets startAtZero increment paths (.start Tree.empty)).memory none).sub q).map
          Tree.value =
        if (paths.countP fun path => q <+: path) = 0 then none
        else some (some (paths.countP fun path => q <+: path)) := by
  constructor
  · intro T tree createValue editor
    exact (stepsThrough_deepTreeSets tree createValue editor paths ordinary).updatesPrefixes
  · intro q filled
    have follows := stepsThrough_deepTreeSets Tree.empty startAtZero increment paths ordinary
    have updates := follows.updatesPrefixes
    rw [← count_prefixes paths q filled]
    by_cases listed : q ∈ paths.flatMap nonemptyPrefixes
    · obtain ⟨node, found, value, _⟩ := updates.updated q listed
      rw [if_neg (Nat.ne_of_gt (List.count_pos_iff.mpr listed)), found, Option.map_some, value,
        increment_counts paths ordinary q filled]
    · have absent : (Tree.empty : Tree Nat).sub q = none := by
        cases q with
        | nil => exact absurd rfl filled
        | cons key q => rfl
      rw [if_pos (List.count_eq_zero_of_not_mem listed), updates.kept q listed filled, absent]
      rfl

theorem deepTreeSets_counts_two :
    (((InMemory.deepTreeSets startAtZero increment [["a", "b"], ["a"]]
      (.start Tree.empty)).memory none).sub ["a"]).map Tree.value = some (some 2) :=
  (deepTreeSets_updatesPrefixes [["a", "b"], ["a"]] (by decide)).2 ["a"] (by decide)

end TreeKeyCache
