import TreeKeyCache.SavedTrees
import TreeKeyCache.InheritedKeys
import TreeKeyCache.TextSerializers

/-! # `deserializeWholeTree`

The nested result is built again from the depth first listing of the decoded tree: a stack
holds the objects on the way to the node that came last. -/
set_option autoImplicit false
namespace TreeKeyCache

variable {T R : Type}

/-- The variables of the loop.  The stack holds references, the last one first. -/
structure Rebuilding (T : Type) where
  memory : Memory T
  stack : List Place
  currentLevel : Nat

/-- The inner `while`, which goes up so many levels. -/
def popLevels : Nat → List Place → Except Err (List Place)
  | 0, stack => .ok stack
  | _ + 1, [] => .error (.error "Stack lost")
  | n + 1, _ :: rest => popLevels n rest

def rebuildNode (valueSerializer : ValueSerializer T R) (node : TraversalItem R) (st : Rebuilding T) :
    Except Err (Rebuilding T) := do
  let currentLevel := st.currentLevel + 1
  if currentLevel < node.ref.level then .error (.error "Path lost")
  else
    let stack ← popLevels (currentLevel - node.ref.level) st.stack
    match stack with
    | [] => .error (.typeError "Cannot read properties of undefined")
    | currentNode :: _ =>
        let (memory, current) := st.memory.openChild currentNode node.ref.key Tree.empty
        match node.value with
        | none => pure ⟨memory, current :: stack, node.ref.level⟩
        | some serialized => do
            let value ← valueSerializer.deserialize serialized
            pure ⟨memory.modify current fun tree => tree.withValue value, current :: stack,
              node.ref.level⟩

def rebuildNodes (valueSerializer : ValueSerializer T R) :
    List (TraversalItem R) → Rebuilding T → Except Err (Rebuilding T)
  | [], st => pure st
  | node :: rest, st => do
      let st ← rebuildNode valueSerializer node st
      rebuildNodes valueSerializer rest st

section
variable [SerializedForm R]

def emptyTree : Err := .error "Empty tree"

/-- The clock is read here and again by the traversal. -/
def deserializeWholeTree (data : R) (treeSerializer : TreeSerializer R)
    (valueSerializer : ValueSerializer T R) (now traversalNow : ℚ) : Except Err (Tree T) := do
  let tree ← treeSerializer.deserialize data
  let rootValue := getTreeCurrentSerializedValue tree now
  if tree.children.isNone && rootValue.isNone then .error emptyTree
  else
    let value ← match truthy? rootValue with
      | some serialized => valueSerializer.deserialize serialized
      | none => pure none
    let newTree : Tree T := Tree.empty.withValue value
    let last ← rebuildNodes valueSerializer (treePreOrderDepthFirstSearch traversalNow tree none)
      ⟨Memory.start newTree, [Place.root], 0⟩
    pure (last.memory none)

end

/-! ## The stack -/

/-- Each node hangs below an ancestor of the node before it, or below that node. -/
def Hangs : List String → List (List String × Tree R) → Prop
  | _, [] => True
  | last, node :: rest => (node.1 ≠ [] ∧ node.1.dropLast <+: last) ∧ Hangs node.1 rest

theorem hangs_children : ∀ (depth : Nat) (kids : List (List String × Tree R)) (p lower : List String)
    (rest : List (List String × Tree R)), (∀ kid ∈ kids, ∃ key, kid.1 = p ++ [key]) →
      (∀ deeper, p <+: deeper → Hangs deeper rest) → p <+: lower →
        Hangs lower (kids.flatMap (Worklist.depthFirst nextNodes depth) ++ rest) := by
  intro depth
  induction depth with
  | zero =>
      intro kids p lower rest _ after under
      have none : kids.flatMap (Worklist.depthFirst nextNodes 0) = [] := by
        rw [List.flatMap_eq_nil_iff]
        exact fun _ _ => rfl
      rw [none]
      exact after lower under
  | succ depth ih =>
      intro kids
      induction kids with
      | nil => exact fun p lower rest _ after under => after lower under
      | cons kid kids more =>
          intro p lower rest placed after under
          obtain ⟨path, child⟩ := kid
          obtain ⟨key, rfl⟩ : ∃ key, path = p ++ [key] := placed (path, child) List.mem_cons_self
          rw [List.flatMap_cons, List.append_assoc, Worklist.depthFirst, List.cons_append, Hangs]
          refine ⟨⟨by simp, by rw [List.dropLast_concat]; exact under⟩, ?_⟩
          apply ih _ (p ++ [key]) _ _ _ _ (List.prefix_refl _)
          · intro kid listed
            obtain ⟨key', _, path⟩ := mem_nextNodes.mp (List.mem_reverse.mp listed)
            exact ⟨key', path⟩
          · intro deeper inside
            exact more p deeper rest (fun other listed => placed other (List.mem_cons_of_mem _ listed))
              after ((List.prefix_append p [key]).trans inside)

theorem hangs_listing (tree : Tree R) : Hangs [] (listing .lifo [] tree).tail := by
  obtain ⟨depth, size⟩ : ∃ depth, tree.size = depth + 1 :=
    ⟨tree.size - 1, by have := size_pos tree; omega⟩
  rw [listing_lifo, size, Worklist.depthFirst, List.tail_cons, ← List.append_nil (List.flatMap _ _)]
  apply hangs_children depth _ [] [] [] _ (fun _ _ => trivial) (List.prefix_refl _)
  intro kid listed
  obtain ⟨key, _, path⟩ := mem_nextNodes.mp (List.mem_reverse.mp listed)
  exact ⟨key, path⟩

/-- References to the nodes on a path, the last one first. -/
def ancestors (path : List String) : List Place := path.inits.reverse.map (Place.mk none)

theorem ancestors_concat (front : List String) (key : String) :
    ancestors (front ++ [key]) = ⟨none, front ++ [key]⟩ :: ancestors front := by
  rw [ancestors, List.inits_append, List.reverse_append]
  rfl

theorem ancestors_head (path : List String) : ∃ above, ancestors path = ⟨none, path⟩ :: above := by
  induction path using List.reverseRecOn with
  | nil => exact ⟨[], rfl⟩
  | append_singleton front key _ => exact ⟨_, ancestors_concat front key⟩

theorem popLevels_ancestors (front q : List String) :
    popLevels q.length (ancestors (front ++ q)) = .ok (ancestors front) := by
  induction q using List.reverseRecOn with
  | nil =>
      rw [List.append_nil]
      rfl
  | append_singleton q key ih =>
      rw [← List.append_assoc, ancestors_concat, List.length_append, List.length_singleton, popLevels]
      exact ih

/-! ## What has been built -/

/-- The variables when the node at `last` was the last one to come. -/
structure Rebuilt (st : Rebuilding T) (last : List String) (slots : List String → Option (Label T)) :
    Prop where
  level : st.currentLevel = last.length
  stack : st.stack = ancestors last
  slot : (st.memory none).slot = slots
  held : ∀ q, q <+: last → (slots q).isSome = true

def decodedValue (valueSerializer : ValueSerializer T R) (value : Option R) : Except Err (Option T) :=
  match value with
  | none => .ok none
  | some serialized => valueSerializer.deserialize serialized

theorem openChild_missing (memory : Memory T) (front : List String) (key : String)
    (ordinary : key ∉ inheritedNames) (parent : ((memory none).slot front).isSome = true)
    (missing : (memory none).slot (front ++ [key]) = none) :
    ∃ memory', memory.openChild ⟨none, front⟩ key Tree.empty = (memory', ⟨none, front ++ [key]⟩) ∧
      (memory' none).slot =
        Function.update (memory none).slot (front ++ [key]) (some ⟨none, none⟩) := by
  obtain ⟨node, found, _⟩ := Tree.exists_of_slot parent
  have child : node.child key = none := by
    rw [Tree.slot_append found, Tree.slot_cons, Option.bind_eq_none_iff] at missing
    cases child : node.child key with
    | none => rfl
    | some lower => exact absurd (missing lower child) (by rw [Tree.slot_nil]; exact Option.some_ne_none _)
  refine ⟨memory.modify ⟨none, front⟩ fun tree => tree.withChildren
    (some (Entries.put key (some Tree.empty) (node.children.getD []))), ?_, ?_⟩
  · rw [Memory.openChild, nodeAt_root found, readChild_of_not_inherited _ _ ordinary,
      ← Tree.child_eq_lookup, child]
    rfl
  · rw [modify_root, Tree.slot_created front key _ node Tree.empty found child rfl]
    rfl

theorem rebuildNode_step (valueSerializer : ValueSerializer T R) (t : ℚ) {st : Rebuilding T}
    {last : List String} {slots : List String → Option (Label T)} (rebuilt : Rebuilt st last slots)
    (front : List String) (key : String) (tree : Tree R) (hangs : front <+: last)
    (ordinary : key ∉ inheritedNames) (new : slots (front ++ [key]) = none) :
    (∀ e, decodedValue valueSerializer (getTreeCurrentSerializedValue tree t) = .error e →
      rebuildNode valueSerializer (itemAt t (front ++ [key], tree)) st = .error e) ∧
    ∀ value, decodedValue valueSerializer (getTreeCurrentSerializedValue tree t) = .ok value →
      ∃ st', rebuildNode valueSerializer (itemAt t (front ++ [key], tree)) st = .ok st' ∧
        Rebuilt st' (front ++ [key]) (Function.update slots (front ++ [key]) (some ⟨value, none⟩)) := by
  have parent := rebuilt.held front hangs
  obtain ⟨q, rfl⟩ := hangs
  obtain ⟨above, top⟩ := ancestors_head front
  rw [← rebuilt.slot] at parent new
  obtain ⟨memory, opened, filled⟩ := openChild_missing st.memory front key ordinary parent new
  rw [rebuilt.slot] at filled
  have level : (itemAt t (front ++ [key], tree)).ref.level = front.length + 1 := by
    rw [itemAt, nodeRefOf_level _ (by simp), List.length_append, List.length_singleton]
  have itemKey : (itemAt t (front ++ [key], tree)).ref.key = key := by
    rw [itemAt, nodeRefOf_append_singleton, ChainedObject.key_ofParent]
  have levels : st.currentLevel + 1 - (front.length + 1) = q.length := by
    rw [rebuilt.level, List.length_append]
    omega
  have notLost : ¬ st.currentLevel + 1 < front.length + 1 := by
    rw [rebuilt.level, List.length_append]
    omega
  have popped : popLevels (st.currentLevel + 1 - (front.length + 1)) st.stack =
      .ok (⟨none, front⟩ :: above) := by
    rw [levels, rebuilt.stack, popLevels_ancestors, top]
  -- the step up to the value
  have step : rebuildNode valueSerializer (itemAt t (front ++ [key], tree)) st =
      match getTreeCurrentSerializedValue tree t with
      | none => .ok ⟨memory, ⟨none, front ++ [key]⟩ :: ⟨none, front⟩ :: above, front.length + 1⟩
      | some serialized => (valueSerializer.deserialize serialized).map fun value =>
          ⟨memory.modify ⟨none, front ++ [key]⟩ (fun tree => tree.withValue value),
            ⟨none, front ++ [key]⟩ :: ⟨none, front⟩ :: above, front.length + 1⟩ := by
    unfold rebuildNode
    simp only [level, itemKey, if_neg notLost, popped, bind, Except.bind, opened]
    change (match getTreeCurrentSerializedValue tree t with | none => _ | some serialized => _) = _
    cases getTreeCurrentSerializedValue tree t with
    | none => rfl
    | some serialized =>
        dsimp only
        cases valueSerializer.deserialize serialized <;> rfl
  have arrived : ∀ (memory' : Memory T) (value : Option T), (memory' none).slot =
      Function.update slots (front ++ [key]) (some ⟨value, none⟩) →
      Rebuilt ⟨memory', ⟨none, front ++ [key]⟩ :: ⟨none, front⟩ :: above, front.length + 1⟩
        (front ++ [key]) (Function.update slots (front ++ [key]) (some ⟨value, none⟩)) := by
    intro memory' value slot
    refine ⟨?_, ?_, slot, ?_⟩
    · rw [List.length_append, List.length_singleton]
    · rw [ancestors_concat, top]
    · intro p under
      by_cases same : p = front ++ [key]
      · rw [same, Function.update_self]
        rfl
      · rw [Function.update_of_ne same]
        apply rebuilt.held
        rcases List.prefix_concat_iff.mp under with equal | inside
        · exact absurd equal same
        · exact inside.trans (List.prefix_append front q)
  rw [step]
  cases current : getTreeCurrentSerializedValue tree t with
  | none =>
      refine ⟨fun e failed => (nomatch failed), ?_⟩
      intro value decoded
      obtain rfl := Except.ok.inj decoded
      exact ⟨_, rfl, arrived memory none filled⟩
  | some serialized =>
      constructor
      · intro e failed
        change valueSerializer.deserialize serialized = .error e at failed
        simp only [failed]
        rfl
      · intro value decoded
        change valueSerializer.deserialize serialized = .ok value at decoded
        simp only [decoded]
        refine ⟨_, rfl, arrived _ value ?_⟩
        have here : ((memory none).slot (front ++ [key])).isSome = true := by
          rw [filled, Function.update_self]
          rfl
        obtain ⟨node, found, label⟩ := Tree.exists_of_slot here
        rw [filled, Function.update_self] at label
        have undated : node.deadline = none := (Label.mk.inj (Option.some.inj label)).2.symm
        rw [modify_root, Tree.slot_withValue _ _ node found, undated, filled, Function.update_idem]

theorem rebuildNodes_run (valueSerializer : ValueSerializer T R) (t : ℚ) :
    ∀ (nodes : List (List String × Tree R)) (st : Rebuilding T) (last : List String)
      (slots : List String → Option (Label T)), Rebuilt st last slots → Hangs last nodes →
      (nodes.map Prod.fst).Nodup → (∀ node ∈ nodes, slots node.1 = none) →
      (∀ node ∈ nodes, ∀ key ∈ node.1, key ∉ inheritedNames) →
        (∀ e, rebuildNodes valueSerializer (nodes.map (itemAt t)) st = .error e →
          ∃ p node serialized, (p, node) ∈ nodes ∧
            getTreeCurrentSerializedValue node t = some serialized ∧
            valueSerializer.deserialize serialized = .error e) ∧
        ∀ st', rebuildNodes valueSerializer (nodes.map (itemAt t)) st = .ok st' →
          (∀ p node, (p, node) ∈ nodes → ∃ value,
            decodedValue valueSerializer (getTreeCurrentSerializedValue node t) = .ok value ∧
            (st'.memory none).slot p = some ⟨value, none⟩) ∧
          ∀ q, q ∉ nodes.map Prod.fst → (st'.memory none).slot q = slots q := by
  intro nodes
  induction nodes with
  | nil =>
      intro st last slots rebuilt _ _ _ _
      refine ⟨fun e failed => (nomatch failed), ?_⟩
      intro st' ended
      obtain rfl := Except.ok.inj ended
      exact ⟨fun _ _ listed => (nomatch listed), fun q _ => congrFun rebuilt.slot q⟩
  | cons node nodes ih =>
      intro st last slots rebuilt follows distinct new ordinary
      obtain ⟨p, tree⟩ := node
      obtain ⟨⟨nonempty, hangs⟩, later⟩ := follows
      obtain ⟨front, key, rfl⟩ := exists_append_singleton p nonempty
      rw [List.dropLast_concat] at hangs
      rw [List.map_cons, List.nodup_cons] at distinct
      obtain ⟨fails, goes⟩ := rebuildNode_step valueSerializer t rebuilt front key tree hangs
        (ordinary _ List.mem_cons_self key (by simp)) (new _ List.mem_cons_self)
      rw [List.map_cons, rebuildNodes]
      cases decoded : decodedValue valueSerializer (getTreeCurrentSerializedValue tree t) with
      | error e =>
          rw [fails e decoded]
          constructor
          · intro e' failed
            obtain rfl := Except.error.inj failed
            cases current : getTreeCurrentSerializedValue tree t with
            | none =>
                rw [current] at decoded
                cases decoded
            | some serialized =>
                rw [current] at decoded
                exact ⟨_, tree, serialized, List.mem_cons_self, current, decoded⟩
          · exact fun st' ended => (nomatch ended)
      | ok value =>
          obtain ⟨st₁, stepped, rebuilt₁⟩ := goes value decoded
          have apart : ∀ node ∈ nodes, node.1 ≠ front ++ [key] := by
            intro node listed same
            exact distinct.1 (List.mem_map.mpr ⟨node, listed, same⟩)
          obtain ⟨restFails, restEnds⟩ := ih st₁ _ _ rebuilt₁ later distinct.2
            (fun node listed => by
              rw [Function.update_of_ne (apart node listed)]
              exact new node (List.mem_cons_of_mem _ listed))
            fun node listed => ordinary node (List.mem_cons_of_mem _ listed)
          rw [stepped]
          constructor
          · intro e failed
            obtain ⟨p', node, serialized, listed, rest⟩ := restFails e failed
            exact ⟨p', node, serialized, List.mem_cons_of_mem _ listed, rest⟩
          · intro st' ended
            obtain ⟨placed, kept⟩ := restEnds st' ended
            constructor
            · intro p' node listed
              rcases List.mem_cons.mp listed with same | rest
              · obtain ⟨rfl, rfl⟩ := Prod.mk.inj same
                exact ⟨value, decoded, by rw [kept _ distinct.1, Function.update_self]⟩
              · exact placed p' node rest
            · intro q free
              rw [List.map_cons, List.mem_cons, not_or] at free
              rw [kept q free.2, Function.update_of_ne free.1]

/-! ## The whole tree -/

theorem slot_start (value : Option T) {p : List String} (inner : p ≠ []) :
    ((Memory.start (Tree.empty.withValue value)) none).slot p = none := by
  obtain ⟨key, q, rfl⟩ := List.exists_cons_of_ne_nil inner
  rfl

theorem rebuilt_start (value : Option T) :
    Rebuilt ⟨Memory.start (Tree.empty.withValue value), [Place.root], 0⟩ []
      ((Memory.start (Tree.empty.withValue value)) none).slot := by
  refine ⟨rfl, rfl, rfl, ?_⟩
  intro q onWay
  rw [List.prefix_nil.mp onWay]
  rfl

/-- The root is looked at when the function is called, the other nodes when the traversal starts. -/
def wholeTreeTime (now traversalNow : ℚ) (p : List String) : ℚ := if p = [] then now else traversalNow

theorem whole_tree_node (valueSerializer : ValueSerializer T R) {tree : Tree R}
    (wellFormed : tree.wellFormed = true) (now traversalNow : ℚ) {rootValue : Option T}
    (rootDecoded : decodedValue valueSerializer (getTreeCurrentSerializedValue tree now) = .ok rootValue)
    {newTree : Tree T}
    (placed : ∀ p node, (p, node) ∈ (listing .lifo [] tree).tail → ∃ value,
      decodedValue valueSerializer (getTreeCurrentSerializedValue node traversalNow) = .ok value ∧
      newTree.slot p = some ⟨value, none⟩)
    (kept : ∀ q, q ∉ (listing .lifo [] tree).tail.map Prod.fst →
      newTree.slot q = ((Memory.start (Tree.empty.withValue rootValue)) none).slot q)
    (p : List String) :
    ((newTree.sub p).isSome = true ↔ (tree.sub p).isSome = true) ∧
    ∀ node new, tree.sub p = some node → newTree.sub p = some new → new.deadline = none ∧
      decodedValue valueSerializer (getTreeCurrentSerializedValue node
        (wholeTreeTime now traversalNow p)) = .ok new.value := by
  have present : (newTree.sub p).isSome = (newTree.slot p).isSome := by
    rw [Tree.slot, Option.isSome_map]
  have labelled : ∀ {new : Tree T} {value : Option T}, newTree.sub p = some new →
      newTree.slot p = some ⟨value, none⟩ → new.deadline = none ∧ new.value = value := by
    intro new value found slot
    rw [Tree.slot, found, Option.map_some] at slot
    obtain ⟨same, undated⟩ := Label.mk.inj (Option.some.inj slot)
    exact ⟨undated, same⟩
  by_cases root : p = []
  · subst root
    have outside : [] ∉ (listing .lifo [] tree).tail.map Prod.fst := by
      intro listed
      obtain ⟨⟨p, node⟩, member, path⟩ := List.mem_map.mp listed
      exact ((mem_listing_tail .lifo wellFormed).mp member).1 path
    have slot : newTree.slot [] = some ⟨rootValue, none⟩ := kept [] outside
    rw [present, slot]
    refine ⟨⟨fun _ => rfl, fun _ => rfl⟩, ?_⟩
    intro node new found newFound
    obtain ⟨undated, value⟩ := labelled newFound slot
    rw [← Option.some.inj found, value]
    exact ⟨undated, rootDecoded⟩
  · cases found : tree.sub p with
    | none =>
        have outside : p ∉ (listing .lifo [] tree).tail.map Prod.fst := by
          intro listed
          obtain ⟨⟨q, node⟩, member, rfl⟩ := List.mem_map.mp listed
          have there := ((mem_listing_tail .lifo wellFormed).mp member).2
          rw [found] at there
          cases there
        rw [present, kept p outside, slot_start rootValue root]
        refine ⟨⟨?_, ?_⟩, ?_⟩
        · intro there
          exact absurd there Bool.false_ne_true
        · intro there
          exact absurd there Bool.false_ne_true
        · intro node new there
          cases there
    | some node =>
        obtain ⟨value, decoded, slot⟩ := placed p node ((mem_listing_tail .lifo wellFormed).mpr ⟨root, found⟩)
        rw [present, slot]
        refine ⟨⟨fun _ => rfl, fun _ => rfl⟩, ?_⟩
        intro node' new same newFound
        obtain ⟨undated, newValue⟩ := labelled newFound slot
        rw [← Option.some.inj same, newValue, wholeTreeTime, if_neg root]
        exact ⟨undated, decoded⟩

variable [SerializedForm R]

theorem truthy?_current (tree : Tree R) (now : ℚ)
    (nonempty : ∀ serialized, tree.value = some serialized →
      SerializedForm.truthy serialized = true) :
    truthy? (getTreeCurrentSerializedValue tree now) = getTreeCurrentSerializedValue tree now := by
  cases value : getTreeCurrentSerializedValue tree now with
  | none => rfl
  | some serialized =>
      have stored : tree.value = some serialized := by
        rw [getTreeCurrentSerializedValue] at value
        split at value
        · exact value
        · split at value
          · exact value
          · cases value
      rw [truthy?, Option.filter_some, if_pos (nonempty serialized stored)]

theorem deserializeWholeTree_eq {data : R} {treeSerializer : TreeSerializer R}
    (valueSerializer : ValueSerializer T R) (now traversalNow : ℚ) {tree : Tree R}
    (decodes : treeSerializer.deserialize data = .ok tree)
    (filled : truthy? (getTreeCurrentSerializedValue tree now) =
      getTreeCurrentSerializedValue tree now) :
    deserializeWholeTree data treeSerializer valueSerializer now traversalNow =
      if tree.children.isNone && (getTreeCurrentSerializedValue tree now).isNone then
        .error emptyTree
      else decodedValue valueSerializer (getTreeCurrentSerializedValue tree now) >>= fun value =>
        (rebuildNodes valueSerializer (treePreOrderDepthFirstSearch traversalNow tree none)
          ⟨Memory.start (Tree.empty.withValue value), [Place.root], 0⟩).map fun last =>
            last.memory none := by
  unfold deserializeWholeTree
  simp only [decodes, bind, Except.bind, filled]
  split
  · rfl
  · cases getTreeCurrentSerializedValue tree now with
    | none => rfl
    | some serialized =>
        simp only [decodedValue]
        cases valueSerializer.deserialize serialized with
        | error e => rfl
        | ok value =>
            simp only
            cases rebuildNodes valueSerializer _ _ <;> rfl

theorem deserializeWholeTree_cases (data : R) (treeSerializer : TreeSerializer R)
    (valueSerializer : ValueSerializer T R) (now traversalNow : ℚ) (tree : Tree R)
    (decodes : treeSerializer.deserialize data = .ok tree) (ordinary : OrdinaryKeys tree)
    (nonempty : ∀ p node serialized, tree.sub p = some node → node.value = some serialized →
      SerializedForm.truthy serialized = true) :
    let result := deserializeWholeTree data treeSerializer valueSerializer now traversalNow
    let current := fun (p : List String) (node : Tree R) =>
      getTreeCurrentSerializedValue node (wholeTreeTime now traversalNow p)
    (tree.children = none ∧ current [] tree = none → result = .error emptyTree) ∧
    (¬ (tree.children = none ∧ current [] tree = none) →
      (∀ e, result = .error e → ∃ p node serialized, tree.sub p = some node ∧
        current p node = some serialized ∧ valueSerializer.deserialize serialized = .error e) ∧
      ∀ newTree, result = .ok newTree → ∀ p,
        ((newTree.sub p).isSome = true ↔ (tree.sub p).isSome = true) ∧
        ∀ node new, tree.sub p = some node → newTree.sub p = some new → new.deadline = none ∧
          decodedValue valueSerializer (current p node) = .ok new.value) := by
  intro result current
  have wellFormed := treeSerializer.deserialize_wellFormed data tree decodes
  have rootCurrent : current [] tree = getTreeCurrentSerializedValue tree now := rfl
  have unfolded : result = _ := deserializeWholeTree_eq valueSerializer now traversalNow decodes
    (truthy?_current tree now fun serialized => nonempty [] tree serialized rfl)
  have isEmpty : (tree.children.isNone && (getTreeCurrentSerializedValue tree now).isNone) = true ↔
      tree.children = none ∧ current [] tree = none := by
    rw [Bool.and_eq_true, Option.isNone_iff_eq_none, Option.isNone_iff_eq_none, rootCurrent]
  constructor
  · intro empty
    rw [unfolded, if_pos (isEmpty.mpr empty)]
  · intro filledTree
    rw [unfolded, if_neg fun empty => filledTree (isEmpty.mp empty)]
    have items : treePreOrderDepthFirstSearch traversalNow tree none =
        (listing .lifo [] tree).tail.map (itemAt traversalNow) :=
      treePreOrderTraversal_whole .lifo traversalNow tree
    have distinct := (listing_nodup .lifo [] tree wellFormed).sublist
      ((List.tail_sublist (listing .lifo [] tree)).map Prod.fst)
    have inTree : ∀ p node, (p, node) ∈ (listing .lifo [] tree).tail ↔
        p ≠ [] ∧ tree.sub p = some node := fun p node => mem_listing_tail .lifo wellFormed
    rw [items]
    cases rootDecoded : decodedValue valueSerializer (getTreeCurrentSerializedValue tree now) with
    | error e =>
        refine ⟨?_, fun newTree returned => (by cases returned)⟩
        intro e' failed
        obtain rfl := Except.error.inj failed
        cases value : getTreeCurrentSerializedValue tree now with
        | none =>
            rw [value] at rootDecoded
            cases rootDecoded
        | some serialized =>
            rw [value] at rootDecoded
            exact ⟨[], tree, serialized, rfl, value, rootDecoded⟩
    | ok value =>
        obtain ⟨fails, ends⟩ := rebuildNodes_run valueSerializer traversalNow
          (listing .lifo [] tree).tail _ [] _ (rebuilt_start value) (hangs_listing tree) distinct
          (fun node listed => slot_start value ((inTree node.1 node.2).mp listed).1)
          fun node listed => ordinary node.1 node.2 ((inTree node.1 node.2).mp listed).2
        change (∀ e, (rebuildNodes _ _ _).map _ = .error e → _) ∧
          ∀ newTree, (rebuildNodes _ _ _).map _ = .ok newTree → _
        cases ran : rebuildNodes valueSerializer ((listing .lifo [] tree).tail.map (itemAt traversalNow))
            ⟨Memory.start (Tree.empty.withValue value), [Place.root], 0⟩ with
        | error e =>
            refine ⟨?_, fun newTree returned => (by cases returned)⟩
            intro e' failed
            obtain rfl := Except.error.inj failed
            obtain ⟨p, node, serialized, member, live, thrown⟩ := fails e ran
            obtain ⟨inner, found⟩ := (inTree p node).mp member
            refine ⟨p, node, serialized, found, ?_, thrown⟩
            change getTreeCurrentSerializedValue node (wholeTreeTime now traversalNow p) = _
            rw [wholeTreeTime, if_neg inner]
            exact live
        | ok st =>
            refine ⟨fun e failed => (by cases failed), ?_⟩
            intro newTree returned p
            obtain rfl := Except.ok.inj returned
            obtain ⟨placed, kept⟩ := ends st ran
            exact whole_tree_node valueSerializer wellFormed now traversalNow rootDecoded placed kept p

/-- `deserializeWholeTree` decodes the values of a tree and keeps its shape. -/
theorem deserializeWholeTree_map (data : R) (treeSerializer : TreeSerializer R)
    (valueSerializer : ValueSerializer T R) (now traversalNow : ℚ) (tree : Tree R)
    (decodes : treeSerializer.deserialize data = .ok tree) (ordinary : OrdinaryKeys tree)
    (nonempty : ∀ p node serialized, tree.sub p = some node → node.value = some serialized →
      SerializedForm.truthy serialized = true) :
    let result := deserializeWholeTree data treeSerializer valueSerializer now traversalNow
    let current := fun (p : List String) (node : Tree R) =>
      getTreeCurrentSerializedValue node (wholeTreeTime now traversalNow p)
    (tree.children = none ∧ current [] tree = none → result = .error emptyTree) ∧
    (¬ (tree.children = none ∧ current [] tree = none) →
      (∀ e, result = .error e → ∃ p node serialized, tree.sub p = some node ∧
        current p node = some serialized ∧ valueSerializer.deserialize serialized = .error e) ∧
      ((∀ p node serialized, tree.sub p = some node → current p node = some serialized →
        ∃ value, valueSerializer.deserialize serialized = .ok value) →
          ∃ newTree, result = .ok newTree) ∧
      ∀ newTree, result = .ok newTree → ∀ p,
        ((newTree.sub p).isSome = true ↔ (tree.sub p).isSome = true) ∧
        ∀ node new, tree.sub p = some node → newTree.sub p = some new → new.deadline = none ∧
          decodedValue valueSerializer (current p node) = .ok new.value) := by
  intro result current
  obtain ⟨empty, filled⟩ := deserializeWholeTree_cases data treeSerializer valueSerializer now
    traversalNow tree decodes ordinary nonempty
  refine ⟨empty, fun notEmpty => ?_⟩
  obtain ⟨errors, map⟩ := filled notEmpty
  refine ⟨errors, ?_, map⟩
  intro allDecode
  cases ran : result with
  | ok newTree => exact ⟨newTree, rfl⟩
  | error e =>
      obtain ⟨p, node, serialized, found, live, thrown⟩ := errors e ran
      obtain ⟨value, decoded⟩ := allDecode p node serialized found live
      rw [thrown] at decoded
      cases decoded

/-- Two branches of different depth, the deeper one with an expired value. -/
def unevenTree : Tree String :=
  .mk none none (some [("a", some (.mk (some (Text.encodeNat 1)) none none)),
    ("b", some (.mk (some (Text.encodeNat 2)) (some 3) (some
      [("c", some (.mk none none (some [("d", some (.mk (some (Text.encodeNat 4)) none none))])))])))])

theorem deserializeWholeTree_map_unevenTree :
    ∃ newTree, deserializeWholeTree (Text.encodeTree unevenTree) (Text.options 2).treeSerializer
      (Text.options 2).valueSerializer 5 5 = .ok newTree := by
  have keys : ∀ node ∈ listing .lifo [] unevenTree, ∀ key ∈ node.1, key ∉ inheritedNames := by
    decide +kernel
  have values : ∀ node ∈ listing .lifo [] unevenTree,
      node.2.value.all (fun serialized => SerializedForm.truthy serialized) = true := by
    decide +kernel
  have currents : ∀ node ∈ listing .lifo [] unevenTree, (getTreeCurrentSerializedValue node.2 5).all
      (fun serialized => ((Text.options 2).valueSerializer.deserialize serialized).toBool) = true := by
    decide +kernel
  have listed : ∀ p node, unevenTree.sub p = some node → (p, node) ∈ listing .lifo [] unevenTree :=
    fun p node found => (mem_listing .lifo [] unevenTree rfl p node).mpr ⟨p, rfl, found⟩
  apply ((deserializeWholeTree_map (Text.encodeTree unevenTree) (Text.options 2).treeSerializer
    (Text.options 2).valueSerializer 5 5 unevenTree (Text.deserialize_encodeTree 2 unevenTree rfl rfl)
    (fun p node found => keys _ (listed p node found)) ?_).2 (by decide +kernel)).2.1
  · intro p node serialized found live
    have decodes := currents _ (listed p node found)
    have time : wholeTreeTime 5 5 p = 5 := ite_self _
    change getTreeCurrentSerializedValue node (wholeTreeTime 5 5 p) = some serialized at live
    rw [time] at live
    rw [live, Option.all_some] at decodes
    cases decoded : (Text.options 2).valueSerializer.deserialize serialized with
    | ok value => exact ⟨value, rfl⟩
    | error e =>
        rw [decoded] at decodes
        cases decodes
  · intro p node serialized found stored
    have filled := values _ (listed p node found)
    rw [stored, Option.all_some] at filled
    exact filled

end TreeKeyCache
