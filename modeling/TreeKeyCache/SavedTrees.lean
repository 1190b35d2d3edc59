import TreeKeyCache.InheritedKeys
import TreeKeyCache.KeyHistories
import TreeKeyCache.TraversalOrder

/-! # What `saveFullTreeValue` leaves in a tree

The decoded tree is kept as one slot for each path: nothing, or the label of the node there.
Each item of the depth first search fills one slot and leaves the others alone.  The array
of nodes on the way then always holds the parent of the next item. -/
set_option autoImplicit false
namespace TreeKeyCache

open Prog

variable {T R : Type}

/-! ## Slots -/

namespace Tree

theorem slot_nil (tree : Tree R) : tree.slot [] = some tree.label := rfl

theorem slot_cons (tree : Tree R) (key : String) (q : List String) :
    tree.slot (key :: q) = (tree.child key).bind fun child => child.slot q := by
  rw [slot, sub_cons]
  cases tree.child key <;> rfl

theorem labelAt_eq_slot (tree : Tree R) (q : List String) :
    tree.labelAt q = (tree.slot q).getD Label.none := rfl

theorem slot_modifyAt (f : Tree R → Tree R) : ∀ (p : List String) (tree node : Tree R),
    tree.sub p = some node → ∀ q, (tree.modifyAt f p).slot q =
      if p <+: q then (f node).slot (q.drop p.length) else tree.slot q := by
  intro p
  induction p with
  | nil =>
      intro tree node found q
      obtain rfl := Option.some.inj found
      rw [if_pos List.nil_prefix]
      rfl
  | cons key p ih =>
      intro tree node found q
      rw [sub_cons, Option.bind_eq_some_iff] at found
      obtain ⟨child, listed, found⟩ := found
      rw [modifyAt, listed]
      cases q with
      | nil =>
          have apart : ¬ key :: p <+: [] := fun onPath => List.cons_ne_nil key p (List.prefix_nil.mp onPath)
          rw [if_neg apart, slot_nil, slot_nil]
          exact congrArg some (label_withChildren _ _)
      | cons first q =>
          simp only [slot_cons, child_withChildren_put, List.length_cons, List.drop_succ_cons,
            List.cons_prefix_cons]
          by_cases same : first = key
          · rw [same, if_pos rfl, Option.bind_some, ih child node found q, listed,
              Option.bind_some]
            simp only [true_and]
          · rw [if_neg same, if_neg fun both => same both.1.symm, ← child_eq_lookup]

theorem slot_append {tree node : Tree R} {p : List String} (found : tree.sub p = some node)
    (q : List String) : tree.slot (p ++ q) = node.slot q := by
  rw [slot, sub_append, found]
  rfl

theorem slot_withValue (p : List String) (tree node : Tree R) (found : tree.sub p = some node)
    (value : Option R) :
    (tree.modifyAt (fun node => node.withValue value) p).slot =
      Function.update tree.slot p (some ⟨value, node.deadline⟩) := by
  funext q
  rw [slot_modifyAt _ p tree node found]
  by_cases below : p <+: q
  · obtain ⟨r, rfl⟩ := below
    rw [if_pos (List.prefix_append p r), List.drop_left]
    cases r with
    | nil =>
        rw [List.append_nil, Function.update_self, slot_nil, label, withValue_value,
          withValue_deadline]
    | cons key r =>
        have apart : p ++ key :: r ≠ p := by
          intro same
          have lengths := congrArg List.length same
          rw [List.length_append, List.length_cons] at lengths
          omega
        rw [Function.update_of_ne apart, slot_append found, slot_cons, slot_cons,
          Tree.child_eq_lookup, Tree.child_eq_lookup, withValue_children]
  · have apart : q ≠ p := by
      intro same
      rw [same] at below
      exact below (List.prefix_refl p)
    rw [if_neg below, Function.update_of_ne apart]

theorem slot_opened (p : List String) (tree node : Tree R) (found : tree.sub p = some node) :
    (tree.modifyAt (fun top => top.withChildren (some (node.children.getD []))) p).slot =
      tree.slot := by
  funext q
  rw [slot_modifyAt _ p tree node found]
  by_cases below : p <+: q
  · obtain ⟨r, rfl⟩ := below
    rw [if_pos (List.prefix_append p r), List.drop_left, slot_append found]
    cases r with
    | nil => exact congrArg some (label_withChildren _ _)
    | cons key r =>
        rw [slot_cons, slot_cons, Tree.child_eq_lookup, Tree.child_eq_lookup, withChildren_children,
          Option.getD_some]
  · rw [if_neg below]

theorem slot_created (p : List String) (key : String) (tree node leaf : Tree R)
    (found : tree.sub p = some node) (missing : node.child key = none)
    (bare : leaf.children = none) :
    (tree.modifyAt (fun top => top.withChildren
        (some (Entries.put key (some leaf) (node.children.getD [])))) p).slot =
      Function.update tree.slot (p ++ [key]) (some leaf.label) := by
  funext q
  rw [slot_modifyAt _ p tree node found]
  by_cases below : p <+: q
  · obtain ⟨r, rfl⟩ := below
    rw [if_pos (List.prefix_append p r), List.drop_left]
    cases r with
    | nil =>
        have apart : p ++ [] ≠ p ++ [key] := by
          intro same
          cases List.append_cancel_left same
        rw [Function.update_of_ne apart, slot_append found]
        exact congrArg some (label_withChildren _ _)
    | cons first r =>
        rw [slot_cons, child_withChildren_put, ← child_eq_lookup]
        by_cases same : first = key
        · rw [if_pos same, Option.bind_some, same]
          cases r with
          | nil => rw [Function.update_self, slot_nil]
          | cons second r =>
              have apart : p ++ key :: second :: r ≠ p ++ [key] := by
                intro same
                cases List.append_cancel_left same
              have none : leaf.child second = none := by
                rw [child_eq_lookup, bare]
                rfl
              rw [Function.update_of_ne apart, slot_append found, slot_cons, slot_cons, none, missing]
              rfl
        · have apart : p ++ first :: r ≠ p ++ [key] := by
            intro equal
            exact same (List.cons.inj (List.append_cancel_left equal)).1
          rw [if_neg same, Function.update_of_ne apart, slot_append found, slot_cons]
  · have apart : q ≠ p ++ [key] := by
      intro same
      rw [same] at below
      exact below (List.prefix_append p [key])
    rw [if_neg below, Function.update_of_ne apart]

theorem exists_of_slot {tree : Tree R} {q : List String} (filled : (tree.slot q).isSome = true) :
    ∃ node, tree.sub q = some node ∧ tree.slot q = some node.label := by
  rw [slot, Option.isSome_map] at filled
  obtain ⟨node, found⟩ := Option.isSome_iff_exists.mp filled
  exact ⟨node, found, by rw [slot, found, Option.map_some]⟩

theorem exists_of_slot_eq {tree : Tree R} {q : List String} {label : Label R}
    (filled : tree.slot q = some label) : ∃ node, tree.sub q = some node ∧ label = node.label := by
  obtain ⟨node, found, slot⟩ := exists_of_slot (Option.isSome_iff_exists.mpr ⟨label, filled⟩)
  exact ⟨node, found, Option.some.inj (filled.symm.trans slot)⟩

end Tree

/-! ## The nodes on the way -/

/-- At each node below `base` the array holds its parent, one level up. -/
def Threaded (base : List String) : (Nat → Option (List String)) → List (List String × Tree T) → Prop
  | _, [] => True
  | stack, (p, _) :: rest =>
      (p ≠ base → stack (p.length - 1) = some p.dropLast) ∧
        Threaded base (Function.update stack p.length (some p)) rest

theorem threaded_depthFirst (base : List String) : ∀ (depth : Nat) (p : List String) (tree : Tree T)
    (stack : Nat → Option (List String)) (rest : List (List String × Tree T)), base <+: p →
      (p ≠ base → stack (p.length - 1) = some p.dropLast) →
      (∀ later : Nat → Option (List String), (∀ level < p.length, later level = stack level) →
        Threaded base later rest) →
        Threaded base stack (Worklist.depthFirst nextNodes depth (p, tree) ++ rest) := by
  intro depth
  induction depth with
  | zero => exact fun p tree stack rest _ _ after => after stack fun _ _ => rfl
  | succ depth ih =>
      intro p tree stack rest under above after
      have children : ∀ (kids : List (List String × Tree T)), (∀ kid ∈ kids, ∃ key, kid.1 = p ++ [key]) →
          ∀ later : Nat → Option (List String), (∀ level < p.length, later level = stack level) →
            later p.length = some p →
              Threaded base later (kids.flatMap (Worklist.depthFirst nextNodes depth) ++ rest) := by
        intro kids
        induction kids with
        | nil => exact fun _ later agrees _ => after later agrees
        | cons kid kids more =>
            intro placed later agrees here
            obtain ⟨path, child⟩ := kid
            obtain ⟨key, rfl⟩ : ∃ key, path = p ++ [key] := placed (path, child) List.mem_cons_self
            rw [List.flatMap_cons, List.append_assoc]
            apply ih (p ++ [key]) child later _ (under.trans (List.prefix_append p [key]))
            · intro _
              rw [List.length_append, List.length_singleton, Nat.add_sub_cancel, here,
                List.dropLast_concat]
            · intro next same
              rw [List.length_append, List.length_singleton] at same
              apply more fun other listed => placed other (List.mem_cons_of_mem _ listed)
              · intro level below
                rw [same level (by omega), agrees level below]
              · rw [same p.length (by omega), here]
      rw [Worklist.depthFirst, List.cons_append, Threaded]
      refine ⟨above, ?_⟩
      apply children
      · intro kid listed
        obtain ⟨key, _, path⟩ := mem_nextNodes.mp (List.mem_reverse.mp listed)
        exact ⟨key, path⟩
      · intro level below
        exact Function.update_of_ne (by omega) _ _
      · exact Function.update_self _ _ _

section
variable [SerializedForm R] (o : LawfulOptions T R) (create : ChainedObject → Option T)
  (base : List String) (now : ℚ)

/-- The variables of the loop, as slots and as the paths to the nodes on the way. -/
structure Mirrors (st : Saving R) (slots : List String → Option (Label R))
    (stack : Nat → Option (List String)) : Prop where
  wellFormed : (st.memory none).wellFormed = true
  slot : (st.memory none).slot = slots
  onWay : ∀ level, st.stack level = (stack level).map fun p => ⟨none, p.drop base.length⟩
  held : ∀ level p, stack level = some p → (slots (p.drop base.length)).isSome = true

/-- The label the loop finds, or makes, at a node. -/
def enteredLabel (p : List String) (slot : Option (Label R)) : Label R :=
  slot.getD ⟨(create (nodeRefOf p)).map o.encode, none⟩

def createsValue (p : List String) (slot : Option (Label R)) : Bool :=
  slot.isNone && (create (nodeRefOf p)).isSome

theorem createNode_eq (value : Option T) :
    createNode o.toOptions value = .ok (.mk (value.map o.encode) none none) := by
  cases value with
  | none => rfl
  | some value =>
      rw [createNode, o.serialize_value]
      rfl

omit [SerializedForm R] in
theorem Mirrors.arrive {st : Saving R} {slots : List String → Option (Label R)}
    {stack : Nat → Option (List String)} (mirrors : Mirrors base st slots stack) (up : List String)
    (key : String) {q : List String} (here : q = up ++ [key]) (label : Label R) (memory : Memory R)
    (changed : Bool) (wellFormed : (memory none).wellFormed = true)
    (filled : (memory none).slot = Function.update slots q (some label)) :
    Mirrors base { st with
        memory := memory, currentTree := ⟨none, up ++ [key]⟩, changed := changed
        stack := Function.update st.stack ((base ++ up).length + 1) (some ⟨none, up ++ [key]⟩) }
      (Function.update slots q (some label))
      (Function.update stack ((base ++ up).length + 1) (some (base ++ up ++ [key]))) := by
  subst here
  have below : (base ++ up ++ [key]).drop base.length = up ++ [key] := by
    rw [List.append_assoc, List.drop_left]
  refine ⟨wellFormed, filled, ?_, ?_⟩
  · intro l
    by_cases same : l = (base ++ up).length + 1
    · simp only [same, Function.update_self, Option.map_some, below]
    · simp only [Function.update_of_ne same]
      exact mirrors.onWay l
  · intro l p held
    by_cases here : p.drop base.length = up ++ [key]
    · rw [here, Function.update_self]
      rfl
    · rw [Function.update_of_ne here]
      by_cases same : l = (base ++ up).length + 1
      · rw [same, Function.update_self] at held
        obtain rfl := Option.some.inj held
        exact absurd below here
      · rw [Function.update_of_ne same] at held
        exact mirrors.held l p held

theorem enterChild_mirrors (st : Saving R) (slots : List String → Option (Label R))
    (stack : Nat → Option (List String)) (mirrors : Mirrors base st slots stack)
    (parent : List String) (key : String) (under : base <+: parent) (ordinary : key ∉ inheritedNames)
    (above : stack parent.length = some parent) (item : TraversalItem T)
    (ref : item.ref = nodeRefOf (parent ++ [key])) :
    let q := (parent ++ [key]).drop base.length
    ∃ st', enterChild o.toOptions (fun ref => .ok (create ref)) item st = .ok st' ∧
      Mirrors base st' (Function.update slots q (some (enteredLabel o create (parent ++ [key]) (slots q))))
        (Function.update stack (parent.length + 1) (some (parent ++ [key]))) ∧
      st'.currentTree = ⟨none, q⟩ ∧
      st'.changed = (st.changed || createsValue create (parent ++ [key]) (slots q)) ∧
      st'.maxTtl = st.maxTtl := by
  intro q
  obtain ⟨up, rfl⟩ := under
  have below : q = up ++ [key] := by
    change (base ++ up ++ [key]).drop base.length = _
    rw [List.append_assoc, List.drop_left]
  have parentSlot := mirrors.held _ _ above
  rw [List.drop_left, ← mirrors.slot] at parentSlot
  obtain ⟨node, found, _⟩ := Tree.exists_of_slot parentSlot
  have place : st.stack (base ++ up).length = some ⟨none, up⟩ := by
    rw [mirrors.onWay, above, Option.map_some, List.drop_left]
  have level : item.ref.level = (base ++ up).length + 1 := by
    rw [ref, nodeRefOf_level _ (by simp), List.length_append, List.length_singleton]
  have itemKey : item.ref.key = key := by
    rw [ref, nodeRefOf_append_singleton, ChainedObject.key_ofParent]
  have nodeWellFormed := Tree.wellFormed_sub up _ node mirrors.wellFormed found
  have childSlot : slots q = (node.child key).map Tree.label := by
    rw [← mirrors.slot, below, Tree.slot_append found, Tree.slot_cons]
    cases node.child key <;> rfl
  have arrived := mirrors.arrive base up key below
    (enteredLabel o create (base ++ up ++ [key]) (slots q))
  unfold enterChild
  simp only [level, itemKey, Nat.add_sub_cancel, place, nodeAt_root found]
  rw [readChild_of_not_inherited _ _ ordinary, ← Tree.child_eq_lookup]
  cases child : node.child key with
  | some child =>
      rw [child, Option.map_some] at childSlot
      refine ⟨_, rfl, arrived _ _ ?_ ?_, ?_, ?_, rfl⟩
      · rw [modify_root]
        apply Tree.wellFormed_modifyAt _ _ up _ mirrors.wellFormed
        intro top _
        rw [Tree.wellFormed_iff] at nodeWellFormed ⊢
        intro entries listed
        rw [Tree.withChildren_children, Option.some.injEq] at listed
        subst listed
        cases children : node.children with
        | none => exact ⟨List.nodup_nil, fun _ _ member => (nomatch member)⟩
        | some entries => exact nodeWellFormed entries children
      · rw [modify_root, Tree.slot_opened up _ node found, mirrors.slot, enteredLabel, childSlot,
          Option.getD_some, ← childSlot, Function.update_eq_self]
      · exact congrArg (Place.mk none) below.symm
      · rw [createsValue, childSlot]
        rfl
  | none =>
      rw [child, Option.map_none] at childSlot
      have made := createNode_eq o (create (nodeRefOf (base ++ up ++ [key])))
      rw [← ref] at made
      simp only [Bind.bind, Except.bind, o.given_eq, made]
      refine ⟨_, rfl, arrived _ _ ?_ ?_, ?_, ?_, rfl⟩
      · rw [modify_root]
        apply Tree.wellFormed_modifyAt _ _ up _ mirrors.wellFormed
        intro top _
        exact node.wellFormed_withChildren_put top _ key nodeWellFormed rfl
      · rw [modify_root, Tree.slot_created up key _ node _ found child rfl, mirrors.slot, below,
          enteredLabel, ← below, childSlot, ref]
        rfl
      · exact congrArg (Place.mk none) below.symm
      · rw [createsValue, childSlot, ref]
        rfl

/-- The label the loop leaves at a node that is to hold `v`: the deadline is not touched. -/
def savedLabel (v : T) (label : Label R) : Label R :=
  if differs (label.live now) (o.encode v) then ⟨some (o.encode v), label.deadline⟩ else label

/-- The node does not hold `v`, or no longer. -/
def ChangesTo (v : T) (slot : Option (Label R)) : Prop :=
  differs ((slot.getD Label.none).live now) (o.encode v) = true

/-- The item counts as changed: what the loop found or made at the node is not `v`. -/
def CountsAsChanged (p : List String) (v : T) (slot : Option (Label R)) : Prop :=
  differs ((enteredLabel o create p slot).live now) (o.encode v) = true

theorem savedLabel_entered (p : List String) (v : T) (slot : Option (Label R)) :
    savedLabel o now v (enteredLabel o create p slot) =
      savedLabel o now v (slot.getD Label.none) := by
  cases slot with
  | some label => rfl
  | none =>
      rw [enteredLabel, Option.getD_none, Option.getD_none, savedLabel, savedLabel]
      change (if differs ((create (nodeRefOf p)).map o.encode) (o.encode v) then _ else _) =
        (⟨some (o.encode v), none⟩ : Label R)
      cases create (nodeRefOf p) with
      | none => rfl
      | some made =>
          split
          · rfl
          · rename_i same
            have equal : o.encode made = o.encode v := by
              apply SerializedForm.same_eq
              rw [Option.map_some, differs, Bool.not_eq_true, Bool.not_eq_false'] at same
              exact same
            rw [Option.map_some, equal]

theorem changesTo_iff (p : List String) (v : T) (slot : Option (Label R)) :
    ChangesTo o now v slot ↔
      createsValue create p slot = true ∨ CountsAsChanged o create now p v slot := by
  cases slot with
  | some label => exact (or_iff_right Bool.false_ne_true).symm
  | none =>
      refine ⟨fun _ => ?_, fun _ => rfl⟩
      rw [CountsAsChanged, enteredLabel, createsValue]
      cases create (nodeRefOf p) with
      | none => exact Or.inr rfl
      | some made => exact Or.inl rfl

omit [SerializedForm R] in
theorem Mirrors.withValue {st : Saving R} {slots : List String → Option (Label R)}
    {stack : Nat → Option (List String)} (mirrors : Mirrors base st slots stack) {q : List String}
    {node : Tree R} (found : (st.memory none).sub q = some node) (here : st.currentTree = ⟨none, q⟩)
    (value : Option R) (changed : Bool) (maxTtl : Option ℚ) :
    Mirrors base { st with
      memory := st.memory.modify st.currentTree fun tree => tree.withValue value
      changed := changed
      maxTtl := maxTtl } (Function.update slots q (some ⟨value, node.deadline⟩)) stack := by
  refine ⟨?_, ?_, mirrors.onWay, ?_⟩
  · simp only [here]
    rw [modify_root]
    apply Tree.wellFormed_modifyAt _ _ q _ mirrors.wellFormed
    intro tree wellFormed
    rw [Tree.wellFormed_iff] at wellFormed ⊢
    rw [Tree.withValue_children]
    exact wellFormed
  · simp only [here]
    rw [modify_root, Tree.slot_withValue q _ node found, mirrors.slot]
  · intro level p held
    by_cases same : p.drop base.length = q
    · rw [same, Function.update_self]
      rfl
    · rw [Function.update_of_ne same]
      exact mirrors.held level p held

def unedited (item : FullSetItem T R) : Option T := item.value

theorem saveItem_mirrors (ttl : Option (StepTtl T)) (rootLevel : Nat) (item : TraversalItem T) (v : T)
    (value : item.value = some v) (st entered : Saving R)
    (reached : (if item.ref.level = rootLevel then .ok st else
      enterChild o.toOptions (fun ref => .ok (create ref)) item st) = .ok entered)
    (slots : List String → Option (Label R)) (stack : Nat → Option (List String))
    (mirrors : Mirrors base entered slots stack) (q : List String) (label : Label R)
    (here : entered.currentTree = ⟨none, q⟩) (filled : slots q = some label) (w : World R) :
    ∃ st', (saveItem o.toOptions (fun ref => .ok (create ref)) ttl now rootLevel item st).Wp
        (alone unedited) (Ends w (.ok st')) w ∧
      Mirrors base st' (Function.update slots q (some (savedLabel o now v label))) stack ∧
      (st'.changed = true ↔ entered.changed = true ∨ differs (label.live now) (o.encode v) = true) ∧
      (differs (label.live now) (o.encode v) = true → ∃ step : Step T,
        st'.maxTtl = (getTtl ttl step entered.maxTtl).2) ∧
      (differs (label.live now) (o.encode v) = false → st'.maxTtl = entered.maxTtl) := by
  obtain ⟨node, found, rfl⟩ := Tree.exists_of_slot_eq ((congrFun mirrors.slot q).trans filled)
  have nodeAt : entered.memory.nodeAt entered.currentTree = node := by
    rw [here, nodeAt_root found]
  have yielded := @yieldItem_ends _ _ _ (fun item => .ok (unedited item)) w
    (getFullSetItem o.toOptions (entered.memory.nodeAt entered.currentTree) item now)
  unfold saveItem
  rw [reached, Prog.ret_ok_bind, nodeAt] at *
  rw [nodeAt] at yielded
  have left : unedited (getFullSetItem o.toOptions node item now) = some v := value
  rw [left] at yielded
  have check : ∀ full : FullSetItem T R, full.value = some v →
      full.currentSerialized = node.label.live now → checkFullSetItemChange o.toOptions full =
        .ok (if differs (node.label.live now) (o.encode v) then some (o.encode v) else none) := by
    intro full fullValue current
    rw [checkFullSetItemChange, fullValue, current]
    simp only [o.serialize_value]
    rfl
  cases changes : differs (node.label.live now) (o.encode v) with
  | false =>
      refine ⟨entered, ?_, ?_, ?_, fun same => absurd same Bool.false_ne_true, fun _ => rfl⟩
      · refine Ends.then yielded ?_
        dsimp only
        rw [check _ rfl rfl, changes]
        exact ⟨rfl, rfl⟩
      · rw [savedLabel, changes, if_neg Bool.false_ne_true, ← filled, Function.update_eq_self]
        exact mirrors
      · exact (or_iff_left Bool.false_ne_true).symm
  | true =>
      let full := getFullSetItem o.toOptions node item now
      refine ⟨{ entered with
          memory := entered.memory.modify entered.currentTree fun tree =>
            tree.withValue (some (o.encode v))
          changed := true
          maxTtl := (getTtl ttl { full.toStep with value := some v } entered.maxTtl).2 },
        ?_, ?_, ?_, ?_, fun same => absurd same.symm Bool.false_ne_true⟩
      · refine Ends.then yielded ?_
        dsimp only
        rw [check _ rfl rfl, changes]
        exact ⟨rfl, rfl⟩
      · rw [savedLabel, changes]
        exact mirrors.withValue base found here (some (o.encode v)) true _
      · exact ⟨fun _ => Or.inr rfl, fun _ => rfl⟩
      · exact fun _ => ⟨_, rfl⟩

/-! ## All items -/

variable (seconds : Option ℚ)

/-- The ttl of a call: none, or a number of seconds. -/
def secondsTtl : Option (StepTtl T) := seconds.map .seconds

omit [SerializedForm R] in
theorem getTtl_seconds (positive : ∀ s, seconds = some s → 0 < s) (step : Step T) (so_far : Option ℚ)
    (known : so_far = none ∨ so_far = seconds) :
    (getTtl (secondsTtl seconds) step so_far).2 = seconds := by
  cases seconds with
  | none =>
      rcases known with rfl | rfl
      · rfl
      · rfl
  | some s =>
      have nonzero : s ≠ 0 := ne_of_gt (positive s rfl)
      rcases known with rfl | rfl
      · simp [getTtl, secondsTtl, stepTtl, nonzero]
      · simp [getTtl, secondsTtl, stepTtl, nonzero, truthyNumber]

/-- Every node of the input has a value and no deadline. -/
def Valued (tree : Tree T) (v : T) : Prop := tree.value = some v ∧ tree.deadline = none

omit [SerializedForm R] in
theorem Valued.current {tree : Tree T} {v : T} (valued : Valued tree v) (t : ℚ) :
    getTreeCurrentSerializedValue tree t = some v := by
  rw [getTreeCurrentSerializedValue, valued.2]
  exact valued.1

structure SavedAll (nodes : List (List String × Tree T)) (slots : List String → Option (Label R))
    (st st' : Saving R) : Prop where
  wellFormed : (st'.memory none).wellFormed = true
  saved : ∀ p tree v, (p, tree) ∈ nodes → Valued tree v →
    (st'.memory none).slot (p.drop base.length) =
      some (savedLabel o now v ((slots (p.drop base.length)).getD Label.none))
  kept : ∀ q, (∀ node ∈ nodes, node.1.drop base.length ≠ q) → (st'.memory none).slot q = slots q
  changed : st'.changed = true ↔ st.changed = true ∨ ∃ p tree v, (p, tree) ∈ nodes ∧
    Valued tree v ∧ ChangesTo o now v (slots (p.drop base.length))
  timed : (∃ p tree v, (p, tree) ∈ nodes ∧ Valued tree v ∧
    CountsAsChanged o create now p v (slots (p.drop base.length))) → st'.maxTtl = seconds
  untimed : (∀ p tree v, (p, tree) ∈ nodes → Valued tree v →
    ¬ CountsAsChanged o create now p v (slots (p.drop base.length))) → st'.maxTtl = st.maxTtl

/-- The loop has come to the node at `p`. -/
structure Reaches (p : List String) (slots : List String → Option (Label R))
    (stack : Nat → Option (List String)) (st entered : Saving R) : Prop where
  mirrors : Mirrors base entered
    (Function.update slots (p.drop base.length)
      (some (enteredLabel o create p (slots (p.drop base.length)))))
    (Function.update stack p.length (some p))
  here : entered.currentTree = ⟨none, p.drop base.length⟩
  changed : entered.changed = (st.changed || createsValue create p (slots (p.drop base.length)))
  maxTtl : entered.maxTtl = st.maxTtl

theorem exists_reaches (traversalNow : ℚ) {slots : List String → Option (Label R)}
    {stack : Nat → Option (List String)} {st : Saving R} (mirrors : Mirrors base st slots stack)
    {p q : List String} {key : String} (path : p = base ++ q ++ [key])
    (ordinary : key ∉ inheritedNames) (above : p ≠ base → stack (p.length - 1) = some p.dropLast)
    (tree : Tree T) :
    ∃ entered, (if (nodeRefOf p).level = base.length then .ok st else
        enterChild o.toOptions (fun ref => .ok (create ref)) (itemAt traversalNow (p, tree)) st) =
          .ok entered ∧ Reaches o create base p slots stack st entered := by
  have parentLength : p.length = (base ++ q).length + 1 := by
    rw [path]
    exact List.length_append
  have notRoot : p ≠ base := by
    intro same
    rw [same, List.length_append] at parentLength
    omega
  have held := above notRoot
  rw [parentLength, Nat.add_sub_cancel, path, List.dropLast_concat] at held
  obtain ⟨entered, reached, enteredMirrors, here, created, kept⟩ := enterChild_mirrors o create
    base st slots stack mirrors (base ++ q) key (List.prefix_append base q) ordinary held
    (itemAt traversalNow (p, tree)) (by rw [itemAt, path])
  rw [← path, ← parentLength] at enteredMirrors
  rw [← path] at here created
  have level : (nodeRefOf p).level ≠ base.length := by
    rw [nodeRefOf_level p (by rw [path]; simp), parentLength, List.length_append]
    omega
  exact ⟨entered, by rw [if_neg level, reached], enteredMirrors, here, created, kept⟩

omit [SerializedForm R] in
theorem drop_ne_of_not_mem {p : List String} (under : base <+: p)
    {nodes : List (List String × Tree T)} (unlisted : p ∉ nodes.map Prod.fst)
    {node : List String × Tree T} (listed : node ∈ nodes) (nodeUnder : base <+: node.1) :
    node.1.drop base.length ≠ p.drop base.length := by
  intro same
  apply unlisted
  obtain ⟨rest, rfl⟩ := under
  obtain ⟨nodeRest, path⟩ := nodeUnder
  rw [← path, List.drop_left, List.drop_left] at same
  rw [← same, path]
  exact List.mem_map_of_mem listed

theorem saveNode_mirrors (positive : ∀ s, seconds = some s → 0 < s) (p : List String) (tree : Tree T)
    (v : T) (valued : Valued tree v) (traversalNow : ℚ) (slots : List String → Option (Label R))
    (stack : Nat → Option (List String)) (st entered : Saving R)
    (known : st.maxTtl = none ∨ st.maxTtl = seconds)
    (reached : (if (nodeRefOf p).level = base.length then .ok st else
      enterChild o.toOptions (fun ref => .ok (create ref)) (itemAt traversalNow (p, tree)) st) =
        .ok entered)
    (reaches : Reaches o create base p slots stack st entered) (w : World R) :
    ∃ st', (saveItem o.toOptions (fun ref => .ok (create ref)) (secondsTtl seconds) now base.length
        (itemAt traversalNow (p, tree)) st).Wp (alone unedited) (Ends w (.ok st')) w ∧
      Mirrors base st' (Function.update slots (p.drop base.length)
          (some (savedLabel o now v ((slots (p.drop base.length)).getD Label.none))))
        (Function.update stack p.length (some p)) ∧
      (st'.changed = true ↔
        st.changed = true ∨ ChangesTo o now v (slots (p.drop base.length))) ∧
      (CountsAsChanged o create now p v (slots (p.drop base.length)) → st'.maxTtl = seconds) ∧
      (¬ CountsAsChanged o create now p v (slots (p.drop base.length)) → st'.maxTtl = st.maxTtl) := by
  obtain ⟨st', ended, mirrors, changed, timed, untimed⟩ := saveItem_mirrors o create base now
    (secondsTtl seconds) base.length (itemAt traversalNow (p, tree)) v (valued.current traversalNow)
    st entered reached _ _ reaches.mirrors (p.drop base.length) _ reaches.here
    (Function.update_self _ _ _) w
  refine ⟨st', ended, ?_, ?_, ?_, ?_⟩
  · rw [Function.update_idem, savedLabel_entered] at mirrors
    exact mirrors
  · rw [changed, reaches.changed, Bool.or_eq_true, or_assoc, changesTo_iff o create now p v]
    rfl
  · intro counts
    obtain ⟨step, maxTtl⟩ := timed counts
    rw [maxTtl, reaches.maxTtl]
    exact getTtl_seconds seconds positive step st.maxTtl known
  · intro same
    rw [untimed (Bool.eq_false_iff.mpr same), reaches.maxTtl]

theorem SavedAll.cons {p : List String} {tree : Tree T} {v : T} (valued : Valued tree v)
    {nodes : List (List String × Tree T)} {slots : List String → Option (Label R)}
    {st first last : Saving R}
    (apart : ∀ node ∈ nodes, node.1.drop base.length ≠ p.drop base.length)
    (changed : first.changed = true ↔
      st.changed = true ∨ ChangesTo o now v (slots (p.drop base.length)))
    (timed : CountsAsChanged o create now p v (slots (p.drop base.length)) → first.maxTtl = seconds)
    (untimed : ¬ CountsAsChanged o create now p v (slots (p.drop base.length)) →
      first.maxTtl = st.maxTtl)
    (rest : SavedAll o create base now seconds nodes (Function.update slots (p.drop base.length)
      (some (savedLabel o now v ((slots (p.drop base.length)).getD Label.none)))) first last) :
    SavedAll o create base now seconds ((p, tree) :: nodes) slots st last := by
  have others : ∀ p' tree', (p', tree') ∈ nodes → Function.update slots (p.drop base.length)
      (some (savedLabel o now v ((slots (p.drop base.length)).getD Label.none)))
        (p'.drop base.length) = slots (p'.drop base.length) :=
    fun p' tree' listed => Function.update_of_ne (apart (p', tree') listed) _ _
  have same : ∀ tree' v', (p, tree') = (p, tree) → Valued tree' v' → v' = v := by
    intro tree' v' equal valued'
    rw [(Prod.mk.inj equal).2] at valued'
    exact Option.some.inj (valued'.1.symm.trans valued.1)
  constructor
  · exact rest.wellFormed
  · intro p' tree' v' listed valued'
    rcases List.mem_cons.mp listed with equal | later
    · obtain ⟨rfl, rfl⟩ := Prod.mk.inj equal
      obtain rfl := same tree' v' rfl valued'
      rw [rest.kept _ apart, Function.update_self]
    · rw [rest.saved p' tree' v' later valued', others p' tree' later]
  · intro q free
    rw [rest.kept q fun node listed => free node (List.mem_cons_of_mem _ listed),
      Function.update_of_ne (Ne.symm (free (p, tree) List.mem_cons_self))]
  · rw [rest.changed, changed, or_assoc]
    constructor
    · intro either
      rcases either with before | here | ⟨p', tree', v', later, valued', differ⟩
      · exact Or.inl before
      · exact Or.inr ⟨p, tree, v, List.mem_cons_self, valued, here⟩
      · rw [others p' tree' later] at differ
        exact Or.inr ⟨p', tree', v', List.mem_cons_of_mem _ later, valued', differ⟩
    · intro either
      rcases either with before | ⟨p', tree', v', listed, valued', differ⟩
      · exact Or.inl before
      · rcases List.mem_cons.mp listed with equal | later
        · obtain ⟨rfl, rfl⟩ := Prod.mk.inj equal
          obtain rfl := same tree' v' rfl valued'
          exact Or.inr (Or.inl differ)
        · refine Or.inr (Or.inr ⟨p', tree', v', later, valued', ?_⟩)
          rw [others p' tree' later]
          exact differ
  · intro found
    by_cases later : ∃ p' tree' v', (p', tree') ∈ nodes ∧ Valued tree' v' ∧
        CountsAsChanged o create now p' v' (slots (p'.drop base.length))
    · obtain ⟨p', tree', v', listed, valued', counts⟩ := later
      refine rest.timed ⟨p', tree', v', listed, valued', ?_⟩
      rw [others p' tree' listed]
      exact counts
    · obtain ⟨p', tree', v', listed, valued', counts⟩ := found
      rcases List.mem_cons.mp listed with equal | inRest
      · obtain ⟨rfl, rfl⟩ := Prod.mk.inj equal
        obtain rfl := same tree' v' rfl valued'
        rw [rest.untimed, timed counts]
        intro p'' tree'' v'' listed'' valued'' counts''
        rw [others p'' tree'' listed''] at counts''
        exact later ⟨p'', tree'', v'', listed'', valued'', counts''⟩
      · exact absurd ⟨p', tree', v', inRest, valued', counts⟩ later
  · intro none
    rw [rest.untimed, untimed (none p tree v List.mem_cons_self valued)]
    intro p' tree' v' listed valued' counts
    rw [others p' tree' listed] at counts
    exact none p' tree' v' (List.mem_cons_of_mem _ listed) valued' counts

/-- The items of nodes below the root, in an order in which the array always holds the parent. -/
theorem saveItems_saved (positive : ∀ s, seconds = some s → 0 < s) (traversalNow : ℚ) (w : World R) :
    ∀ (nodes : List (List String × Tree T)) (slots : List String → Option (Label R))
      (stack : Nat → Option (List String)) (st : Saving R), Mirrors base st slots stack →
      (st.maxTtl = none ∨ st.maxTtl = seconds) → Threaded base stack nodes →
      (nodes.map Prod.fst).Nodup →
      (∀ node ∈ nodes, (∃ q key, node.1 = base ++ q ++ [key] ∧ key ∉ inheritedNames) ∧
        ∃ v, Valued node.2 v) →
        ∃ st', (saveItems o.toOptions (fun ref => .ok (create ref)) (secondsTtl seconds) now base.length
            (nodes.map (itemAt traversalNow)) st).Wp (alone unedited) (Ends w (.ok st')) w ∧
          SavedAll o create base now seconds nodes slots st st' := by
  intro nodes
  induction nodes with
  | nil =>
      intro slots stack st mirrors _ _ _ _
      refine ⟨st, ⟨rfl, rfl⟩, mirrors.wellFormed, fun _ _ _ listed => (nomatch listed),
        fun q _ => congrFun mirrors.slot q, ?_, ?_, fun _ => rfl⟩
      · refine ⟨Or.inl, fun either => ?_⟩
        rcases either with before | ⟨_, _, _, listed, _⟩
        · exact before
        · cases listed
      · intro found
        obtain ⟨_, _, _, listed, _⟩ := found
        cases listed
  | cons node nodes ih =>
      intro slots stack st mirrors known threaded distinct proper
      obtain ⟨p, tree⟩ := node
      obtain ⟨⟨q, key, path, ordinary⟩, v, valued⟩ := proper (p, tree) List.mem_cons_self
      change p = base ++ q ++ [key] at path
      rw [List.map_cons, List.nodup_cons] at distinct
      obtain ⟨entered, reached, reaches⟩ := exists_reaches o create base traversalNow mirrors path
        ordinary threaded.1 tree
      obtain ⟨first, ended, firstMirrors, changed, timed, untimed⟩ := saveNode_mirrors o create base
        now seconds positive p tree v valued traversalNow slots stack st entered known
        reached reaches w
      have firstKnown : first.maxTtl = none ∨ first.maxTtl = seconds := by
        by_cases counts : CountsAsChanged o create now p v (slots (p.drop base.length))
        · exact Or.inr (timed counts)
        · rw [untimed counts]
          exact known
      obtain ⟨last, rest, saved⟩ := ih _ _ first firstMirrors firstKnown threaded.2 distinct.2
        fun other listed => proper other (List.mem_cons_of_mem _ listed)
      refine ⟨last, ?_, SavedAll.cons o create base now seconds valued ?_ changed timed untimed saved⟩
      · rw [List.map_cons, saveItems]
        exact Ends.then ended rest
      · intro other listed
        obtain ⟨⟨q', key', path', _⟩, _⟩ := proper other (List.mem_cons_of_mem _ listed)
        apply drop_ne_of_not_mem base _ distinct.1 listed
        · rw [path', List.append_assoc]
          exact List.prefix_append base _
        · rw [path, List.append_assoc]
          exact List.prefix_append base _

/-! ## The whole loop -/

/-- The input below `base`: every node has a value and no deadline, and no name is inherited. -/
structure Input (tree : Tree T) : Prop where
  wellFormed : tree.wellFormed = true
  valued : ∀ q node, tree.sub q = some node → q ≠ [] → ∃ v, Valued node v
  ordinary : ∀ q node, tree.sub q = some node → ∀ key ∈ q, key ∉ inheritedNames

/-- The variables of the loop before the first item. -/
def startSaving (rootLevel : Nat) (rootTree : Tree R) : Saving R :=
  ⟨Memory.start rootTree, Place.root, Function.update (fun _ => none) rootLevel (some Place.root),
    false, none⟩

omit [SerializedForm R] in
theorem mirrors_start (rootTree : Tree R) (wellFormed : rootTree.wellFormed = true) :
    Mirrors base (startSaving base.length rootTree) rootTree.slot
      (Function.update (fun _ => none) base.length (some base)) := by
  refine ⟨wellFormed, rfl, ?_, ?_⟩
  · intro level
    by_cases same : level = base.length
    · simp only [startSaving, same, Function.update_self, Option.map_some, List.drop_length]
      rfl
    · simp only [startSaving, Function.update_of_ne same, Option.map_none]
  · intro level p held
    by_cases same : level = base.length
    · rw [same, Function.update_self] at held
      rw [← Option.some.inj held, List.drop_length]
      rfl
    · rw [Function.update_of_ne same] at held
      cases held

omit [SerializedForm R] in
theorem threaded_listing {tree : Tree T} {below : List (List String × Tree T)}
    (listed : listing .lifo base tree = (base, tree) :: below) :
    Threaded base (Function.update (fun _ => none) base.length (some base)) below := by
  have all := threaded_depthFirst base tree.size base tree
    (Function.update (fun _ => none) base.length (some base)) [] (List.prefix_refl base)
    (fun apart => absurd rfl apart) fun _ _ => trivial
  rw [List.append_nil, ← listing_lifo, listed] at all
  have rest := all.2
  rw [Function.update_idem] at rest
  exact rest

omit [SerializedForm R] in
theorem listed_below {tree : Tree T} (wellFormed : tree.wellFormed = true)
    (ordinary : OrdinaryKeys tree) {below : List (List String × Tree T)}
    (listed : listing .lifo base tree = (base, tree) :: below)
    (long : ∀ node ∈ below, base.length < node.1.length) (node : List String × Tree T)
    (member : node ∈ below) : ∃ q key, node.1 = base ++ q ++ [key] ∧ key ∉ inheritedNames ∧
      tree.sub (q ++ [key]) = some node.2 := by
  have inListing : (node.1, node.2) ∈ listing .lifo base tree := by
    rw [listed]
    exact List.mem_cons_of_mem _ member
  obtain ⟨q, path, found⟩ := (mem_listing .lifo base tree wellFormed _ _).mp inListing
  have longer := long node member
  have notRoot : q ≠ [] := by
    intro none
    rw [path, none, List.append_nil] at longer
    omega
  obtain ⟨front, key, rfl⟩ := exists_append_singleton q notRoot
  refine ⟨front, key, by rw [path, List.append_assoc], ?_, found⟩
  exact ordinary _ _ found key (List.mem_append_right _ List.mem_cons_self)

theorem saveItems_listing (positive : ∀ s, seconds = some s → 0 < s) (traversalNow : ℚ)
    (tree : Tree T) (input : Input tree) (v : T) (valued : Valued tree v) (nonempty : base ≠ [])
    (rootTree : Tree R) (wellFormed : rootTree.wellFormed = true) (w : World R) :
    ∃ st', (saveItems o.toOptions (fun ref => .ok (create ref)) (secondsTtl seconds) now base.length
        ((listing .lifo base tree).map (itemAt traversalNow))
        (startSaving base.length rootTree)).Wp (alone unedited) (Ends w (.ok st')) w ∧
      SavedAll o create base now seconds (listing .lifo base tree) rootTree.slot
        (startSaving base.length rootTree) st' := by
  obtain ⟨below, listed, long, _⟩ := listing_cons .lifo base tree
  have distinct := listing_nodup .lifo base tree input.wellFormed
  have start := mirrors_start base rootTree wellFormed
  have reaches : Reaches o create base base rootTree.slot
      (Function.update (fun _ => none) base.length (some base)) (startSaving base.length rootTree)
      (startSaving base.length rootTree) := by
    refine ⟨?_, ?_, ?_, rfl⟩
    · rw [Function.update_idem, List.drop_length, enteredLabel, Tree.slot_nil, Option.getD_some,
        ← Tree.slot_nil, Function.update_eq_self]
      exact start
    · rw [List.drop_length]
      rfl
    · rw [List.drop_length]
      rfl
  obtain ⟨first, ended, firstMirrors, changed, timed, untimed⟩ := saveNode_mirrors o create base now
    seconds positive base tree v valued traversalNow rootTree.slot _ _ _ (Or.inl rfl)
    (by rw [if_pos (nodeRefOf_level base nonempty)]) reaches w
  have threaded := threaded_listing base listed
  have inTree := listed_below base input.wellFormed input.ordinary listed long
  have proper : ∀ node ∈ below, (∃ q key, node.1 = base ++ q ++ [key] ∧ key ∉ inheritedNames) ∧
      ∃ v, Valued node.2 v := by
    intro node member
    obtain ⟨q, key, path, ordinary, found⟩ := inTree node member
    exact ⟨⟨q, key, path, ordinary⟩, input.valued _ _ found (by simp)⟩
  rw [Function.update_idem] at firstMirrors
  rw [listed, List.map_cons, List.nodup_cons] at distinct
  have firstKnown : first.maxTtl = none ∨ first.maxTtl = seconds := by
    by_cases counts : CountsAsChanged o create now base v (rootTree.slot (base.drop base.length))
    · exact Or.inr (timed counts)
    · exact Or.inl (untimed counts)
  obtain ⟨last, rest, saved⟩ := saveItems_saved o create base now seconds positive traversalNow w below
    _ _ first firstMirrors firstKnown threaded distinct.2 proper
  rw [listed]
  refine ⟨last, ?_, SavedAll.cons o create base now seconds valued ?_ changed timed untimed saved⟩
  · rw [List.map_cons, saveItems]
    exact Ends.then ended rest
  · intro node member
    obtain ⟨q, key, path, _⟩ := inTree node member
    apply drop_ne_of_not_mem base (List.prefix_refl base) distinct.1 member
    rw [path, List.append_assoc]
    exact List.prefix_append base _

end

end TreeKeyCache
