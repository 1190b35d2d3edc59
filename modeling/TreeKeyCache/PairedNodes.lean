import TreeKeyCache.BulkWrites

/-! # Input nodes and stored nodes of `fullTreeSet`

Whatever its consumer does, `fullTreeSet` presents every node of its input once and after its
parent, and next to it the node that the storage holds at the same path. -/
set_option autoImplicit false
namespace TreeKeyCache

/-! ## Runs in parts -/

namespace Prog

variable {Y T R A B : Type}

def RunsTo (edit : Y → Option T) (p : Prog Y T R A) (w : World R) (result : Except Err A)
    (w' : World R) (items : List Y) : Prop :=
  p.run edit w = ⟨result, w', items⟩

variable {edit : Y → Option T} {w w' w'' : World R} {items more : List Y}

theorem RunsTo.then {p : Prog Y T R A} {f : A → Prog Y T R B} {a : A} {result : Except Err B}
    (first : p.RunsTo edit w (.ok a) w' items) (second : (f a).RunsTo edit w' result w'' more) :
    (p >>= f).RunsTo edit w result w'' (items ++ more) := by
  induction p generalizing w items with
  | ret value =>
      obtain ⟨rfl, rfl, rfl⟩ := Outcome.mk.inj first
      exact second
  | dateNow k ih => exact ih _ first
  | get key k ih => exact ih _ first
  | set key v ttl k ih => exact ih _ first
  | getCurrentTtl key k ih => exact ih _ first
  | registerChild parent child k ih => exact ih _ first
  | acquire key k ih => exact ih _ first
  | release key k ih => exact ih first
  | yield item k ih =>
      obtain ⟨result', world', rfl⟩ := Outcome.mk.inj first
      have rest : (k (.ok (edit item))).RunsTo edit w (.ok a) w'
          ((k (.ok (edit item))).run edit w).yielded := by
        rw [RunsTo, ← result', ← world']
      have later := ih _ rest
      change Outcome.mk _ _ _ = _
      rw [RunsTo] at later
      change Outcome.mk (((k (.ok (edit item))) >>= f).run edit w).result
        (((k (.ok (edit item))) >>= f).run edit w).world
          (item :: (((k (.ok (edit item))) >>= f).run edit w).yielded) = _
      rw [later]
      rfl

theorem RunsTo.throws {p : Prog Y T R A} {f : A → Prog Y T R B} {e : Err}
    (first : p.RunsTo edit w (.error e) w' items) :
    (p >>= f).RunsTo edit w (.error e) w' items := by
  induction p generalizing w items with
  | ret value =>
      obtain ⟨rfl, rfl, rfl⟩ := Outcome.mk.inj first
      rfl
  | dateNow k ih => exact ih _ first
  | get key k ih => exact ih _ first
  | set key v ttl k ih => exact ih _ first
  | getCurrentTtl key k ih => exact ih _ first
  | registerChild parent child k ih => exact ih _ first
  | acquire key k ih => exact ih _ first
  | release key k ih => exact ih first
  | yield item k ih =>
      obtain ⟨result', world', rfl⟩ := Outcome.mk.inj first
      have rest : (k (.ok (edit item))).RunsTo edit w (.error e) w'
          ((k (.ok (edit item))).run edit w).yielded := by
        rw [RunsTo, ← result', ← world']
      have later := ih _ rest
      rw [RunsTo] at later
      change Outcome.mk (((k (.ok (edit item))) >>= f).run edit w).result
        (((k (.ok (edit item))) >>= f).run edit w).world
          (item :: (((k (.ok (edit item))) >>= f).run edit w).yielded) = _
      rw [later]

theorem RunsTo.tryFinally {p : Prog Y T R A} {last : Prog Y T R Unit} {result : Except Err A}
    (first : p.RunsTo edit w result w' items) (second : last.RunsTo edit w' (.ok ()) w' []) :
    (p.tryFinally last).RunsTo edit w result w' items := by
  induction p generalizing w items with
  | ret value =>
      obtain ⟨rfl, rfl, rfl⟩ := Outcome.mk.inj first
      exact second.then (f := fun _ => ret value) rfl
  | dateNow k ih => exact ih _ first
  | get key k ih => exact ih _ first
  | set key v ttl k ih => exact ih _ first
  | getCurrentTtl key k ih => exact ih _ first
  | registerChild parent child k ih => exact ih _ first
  | acquire key k ih => exact ih _ first
  | release key k ih => exact ih first
  | yield item k ih =>
      obtain ⟨result', world', rfl⟩ := Outcome.mk.inj first
      have rest : (k (.ok (edit item))).RunsTo edit w result w'
          ((k (.ok (edit item))).run edit w).yielded := by
        rw [RunsTo, ← result', ← world']
      have later := ih _ rest
      rw [RunsTo] at later
      change Outcome.mk (((k (.ok (edit item))).tryFinally last).run edit w).result
        (((k (.ok (edit item))).tryFinally last).run edit w).world
          (item :: (((k (.ok (edit item))).tryFinally last).run edit w).yielded) = _
      rw [later]

theorem RunsTo.yielding (item : Y) {f : Option T → Prog Y T R B} {result : Except Err B}
    (rest : (f (edit item)).RunsTo edit w result w' items) :
    (yieldItem item >>= f).RunsTo edit w result w' (item :: items) := by
  have first : (yieldItem item : Prog Y T R (Option T)).RunsTo edit w (.ok (edit item)) w [item] := rfl
  exact first.then rest

theorem RunsTo.locked {p : Prog Y T R A} {result : Except Err A} (locked : Bool) (key : String)
    (body : p.RunsTo edit w result w' items) :
    (do
      if locked then semaphoreAcquire key else pure ()
      p.tryFinally (if locked then dontWait key else pure ())).RunsTo edit w result w' items := by
  cases locked with
  | false => exact body.tryFinally rfl
  | true => exact body.tryFinally rfl

end Prog

open Prog

variable {T R : Type} [SerializedForm R] (o : LawfulOptions T R) (create : ChainedObject → Option T)
  (edit : FullSetItem T R → Option T) (base : List String) (now traversalNow : ℚ)

/-! ## One item -/

/-- The item of an input node whose stored node has this label. -/
def pairedItem (p : List String) (tree : Tree T) (label : Label R) : FullSetItem T R where
  key := (nodeRefOf p).key
  value := getTreeCurrentSerializedValue tree traversalNow
  level := (nodeRefOf p).level
  nodeRef := nodeRefOf p
  oldValue := (truthy? (label.live now)).bind (deserializeValue o.toOptions)
  currentSerialized := label.live now

/-- What the consumer leaves in the item is saved. -/
def editedLabel (item : FullSetItem T R) (label : Label R) : Label R :=
  match edit item with
  | none => label
  | some v => savedLabel o now v label

/-- The consumer leaves another value in the item. -/
def editsItem (item : FullSetItem T R) (label : Label R) : Bool :=
  match edit item with
  | none => false
  | some v => differs (label.live now) (o.encode v)

/-- The label the item of an input node finds at its stored node, and the one it leaves. -/
def pairedLabel (p : List String) (tree : Tree T) (slot : Option (Label R)) : Label R :=
  editedLabel o edit now (pairedItem o now traversalNow p tree (enteredLabel o create p slot))
    (enteredLabel o create p slot)

def altersTree (p : List String) (tree : Tree T) (slot : Option (Label R)) : Bool :=
  createsValue create p slot ||
    editsItem o edit now (pairedItem o now traversalNow p tree (enteredLabel o create p slot))
      (enteredLabel o create p slot)

theorem saveItem_runs (ttl : Option (StepTtl T)) (rootLevel : Nat) (p : List String) (tree : Tree T)
    (st entered : Saving R)
    (reached : (if (nodeRefOf p).level = rootLevel then .ok st else
      enterChild o.toOptions (fun ref => .ok (create ref)) (itemAt traversalNow (p, tree)) st) =
        .ok entered)
    (slots : List String → Option (Label R)) (stack : Nat → Option (List String))
    (mirrors : Mirrors base entered slots stack) (q : List String) (label : Label R)
    (here : entered.currentTree = ⟨none, q⟩) (filled : slots q = some label) (w : World R) :
    let item := pairedItem o now traversalNow p tree label
    ∃ st', (saveItem o.toOptions (fun ref => .ok (create ref)) ttl now rootLevel
        (itemAt traversalNow (p, tree)) st).RunsTo edit w (.ok st') w [item] ∧
      Mirrors base st' (Function.update slots q (some (editedLabel o edit now item label))) stack ∧
      st'.changed = (entered.changed || editsItem o edit now item label) := by
  intro item
  obtain ⟨node, found, rfl⟩ := Tree.exists_of_slot_eq ((congrFun mirrors.slot q).trans filled)
  have nodeAt : entered.memory.nodeAt entered.currentTree = node := by
    rw [here, nodeAt_root found]
  have full : getFullSetItem o.toOptions node (itemAt traversalNow (p, tree)) now = item := rfl
  have entering : (Prog.ret (if (nodeRefOf p).level = rootLevel then .ok st else
      enterChild o.toOptions (fun ref => .ok (create ref)) (itemAt traversalNow (p, tree)) st) :
        Prog (FullSetItem T R) T R (Saving R)).RunsTo edit w (.ok entered) w [] := by
    rw [reached]
    rfl
  unfold saveItem
  cases left : edit item with
  | none =>
      refine ⟨entered, ?_, ?_, ?_⟩
      · refine entering.then ?_
        rw [nodeAt, full]
        apply RunsTo.yielding
        rw [left]
        rfl
      · rw [editedLabel, left, ← filled, Function.update_eq_self]
        exact mirrors
      · rw [editsItem, left, Bool.or_false]
  | some v =>
      have check : checkFullSetItemChange o.toOptions { item with value := some v } =
          .ok (if differs (node.label.live now) (o.encode v) then some (o.encode v) else none) := by
        rw [checkFullSetItemChange]
        simp only [o.serialize_value]
        rfl
      cases changes : differs (node.label.live now) (o.encode v) with
      | false =>
          refine ⟨entered, ?_, ?_, ?_⟩
          · refine entering.then ?_
            rw [nodeAt, full]
            apply RunsTo.yielding
            rw [left]
            dsimp only
            rw [check, changes]
            rfl
          · rw [editedLabel, left]
            simp only [savedLabel]
            rw [changes, if_neg Bool.false_ne_true, ← filled, Function.update_eq_self]
            exact mirrors
          · rw [editsItem, left]
            simp only
            rw [changes, Bool.or_false]
      | true =>
          refine ⟨{ entered with
              memory := entered.memory.modify entered.currentTree fun tree =>
                tree.withValue (some (o.encode v))
              changed := true
              maxTtl := (getTtl ttl { item.toStep with value := some v } entered.maxTtl).2 },
            ?_, ?_, ?_⟩
          · refine entering.then ?_
            rw [nodeAt, full]
            apply RunsTo.yielding
            rw [left]
            dsimp only
            rw [check, changes]
            rfl
          · rw [editedLabel, left]
            simp only [savedLabel]
            rw [changes]
            exact mirrors.withValue base found here (some (o.encode v)) true _
          · rw [editsItem, left]
            simp only
            rw [changes, Bool.or_true]

/-! ## All items of a tree -/

structure PairedAll (nodes : List (List String × Tree T)) (slots : List String → Option (Label R))
    (st st' : Saving R) : Prop where
  wellFormed : (st'.memory none).wellFormed = true
  paired : ∀ p tree, (p, tree) ∈ nodes → (st'.memory none).slot (p.drop base.length) =
    some (pairedLabel o create edit now traversalNow p tree (slots (p.drop base.length)))
  kept : ∀ q, (∀ node ∈ nodes, node.1.drop base.length ≠ q) → (st'.memory none).slot q = slots q
  changed : st'.changed = true ↔ st.changed = true ∨ ∃ p tree, (p, tree) ∈ nodes ∧
    altersTree o create edit now traversalNow p tree (slots (p.drop base.length)) = true

/-- The items of the nodes, each with the stored node at its own path. -/
def pairedItems (nodes : List (List String × Tree T)) (slots : List String → Option (Label R)) :
    List (FullSetItem T R) :=
  nodes.map fun node => pairedItem o now traversalNow node.1 node.2
    (enteredLabel o create node.1 (slots (node.1.drop base.length)))

theorem pairedItems_congr {nodes : List (List String × Tree T)}
    (slots slots' : List String → Option (Label R))
    (same : ∀ node ∈ nodes, slots (node.1.drop base.length) = slots' (node.1.drop base.length)) :
    pairedItems o create base now traversalNow nodes slots =
      pairedItems o create base now traversalNow nodes slots' := by
  apply List.map_congr_left
  intro node member
  rw [same node member]

theorem PairedAll.cons {p : List String} {tree : Tree T} {nodes : List (List String × Tree T)}
    {slots : List String → Option (Label R)} {st first last : Saving R}
    (apart : ∀ node ∈ nodes, node.1.drop base.length ≠ p.drop base.length)
    (changed : first.changed =
      (st.changed || altersTree o create edit now traversalNow p tree (slots (p.drop base.length))))
    (rest : PairedAll o create edit base now traversalNow nodes (Function.update slots
      (p.drop base.length) (some (pairedLabel o create edit now traversalNow p tree
        (slots (p.drop base.length))))) first last) :
    PairedAll o create edit base now traversalNow ((p, tree) :: nodes) slots st last := by
  have others : ∀ p' tree', (p', tree') ∈ nodes → Function.update slots (p.drop base.length)
      (some (pairedLabel o create edit now traversalNow p tree (slots (p.drop base.length))))
        (p'.drop base.length) = slots (p'.drop base.length) :=
    fun p' tree' listed => Function.update_of_ne (apart (p', tree') listed) _ _
  constructor
  · exact rest.wellFormed
  · intro p' tree' listed
    rcases List.mem_cons.mp listed with equal | later
    · obtain ⟨rfl, rfl⟩ := Prod.mk.inj equal
      rw [rest.kept _ apart, Function.update_self]
    · rw [rest.paired p' tree' later, others p' tree' later]
  · intro q free
    rw [rest.kept q fun node listed => free node (List.mem_cons_of_mem _ listed),
      Function.update_of_ne (Ne.symm (free (p, tree) List.mem_cons_self))]
  · rw [rest.changed, changed, Bool.or_eq_true, or_assoc]
    constructor
    · intro either
      rcases either with before | here | ⟨p', tree', later, alters⟩
      · exact Or.inl before
      · exact Or.inr ⟨p, tree, List.mem_cons_self, here⟩
      · rw [others p' tree' later] at alters
        exact Or.inr ⟨p', tree', List.mem_cons_of_mem _ later, alters⟩
    · intro either
      rcases either with before | ⟨p', tree', listed, alters⟩
      · exact Or.inl before
      · rcases List.mem_cons.mp listed with equal | later
        · obtain ⟨rfl, rfl⟩ := Prod.mk.inj equal
          exact Or.inr (Or.inl alters)
        · refine Or.inr (Or.inr ⟨p', tree', later, ?_⟩)
          rw [others p' tree' later]
          exact alters

theorem saveItems_runs (ttl : Option (StepTtl T)) (w : World R) :
    ∀ (nodes : List (List String × Tree T)) (slots : List String → Option (Label R))
      (stack : Nat → Option (List String)) (st : Saving R), Mirrors base st slots stack →
      Threaded base stack nodes → (nodes.map Prod.fst).Nodup →
      (∀ node ∈ nodes, ∃ q key, node.1 = base ++ q ++ [key] ∧ key ∉ inheritedNames) →
        ∃ st', (saveItems o.toOptions (fun ref => .ok (create ref)) ttl now base.length
            (nodes.map (itemAt traversalNow)) st).RunsTo edit w (.ok st') w
              (pairedItems o create base now traversalNow nodes slots) ∧
          PairedAll o create edit base now traversalNow nodes slots st st' := by
  intro nodes
  induction nodes with
  | nil =>
      intro slots stack st mirrors _ _ _
      refine ⟨st, rfl, mirrors.wellFormed, fun _ _ listed => (nomatch listed),
        fun q _ => congrFun mirrors.slot q, ?_⟩
      refine ⟨Or.inl, fun either => ?_⟩
      rcases either with before | ⟨_, _, listed, _⟩
      · exact before
      · cases listed
  | cons node nodes ih =>
      intro slots stack st mirrors threaded distinct proper
      obtain ⟨p, tree⟩ := node
      obtain ⟨q, key, path, ordinary⟩ := proper (p, tree) List.mem_cons_self
      change p = base ++ q ++ [key] at path
      rw [List.map_cons, List.nodup_cons] at distinct
      obtain ⟨entered, reached, reaches⟩ := exists_reaches o create base traversalNow mirrors path
        ordinary threaded.1 tree
      obtain ⟨first, ran, firstMirrors, changed⟩ := saveItem_runs o create edit base now traversalNow
        ttl base.length p tree st entered reached _ _ reaches.mirrors (p.drop base.length) _
        reaches.here (Function.update_self _ _ _) w
      rw [Function.update_idem] at firstMirrors
      have apart : ∀ node ∈ nodes, node.1.drop base.length ≠ p.drop base.length := by
        intro other listed
        obtain ⟨q', key', path', _⟩ := proper other (List.mem_cons_of_mem _ listed)
        apply drop_ne_of_not_mem base _ distinct.1 listed
        · rw [path', List.append_assoc]
          exact List.prefix_append base _
        · rw [path, List.append_assoc]
          exact List.prefix_append base _
      obtain ⟨last, rest, paired⟩ := ih _ _ first firstMirrors threaded.2 distinct.2
        fun other listed => proper other (List.mem_cons_of_mem _ listed)
      refine ⟨last, ?_, PairedAll.cons o create edit base now traversalNow apart ?_ paired⟩
      · rw [List.map_cons, saveItems]
        have both := ran.then (f := fun st => saveItems o.toOptions (fun ref => .ok (create ref)) ttl now
          base.length (nodes.map (itemAt traversalNow)) st) rest
        rw [pairedItems_congr o create base now traversalNow _ slots fun node listed =>
          Function.update_of_ne (apart node listed) _ _] at both
        exact both
      · rw [changed, reaches.changed, altersTree, Bool.or_assoc]

theorem saveItems_listing_runs (ttl : Option (StepTtl T)) (tree : Tree T)
    (inputWellFormed : tree.wellFormed = true) (ordinary : OrdinaryKeys tree) (nonempty : base ≠ [])
    (rootTree : Tree R) (wellFormed : rootTree.wellFormed = true) (w : World R) :
    ∃ st', (saveItems o.toOptions (fun ref => .ok (create ref)) ttl now base.length
        ((listing .lifo base tree).map (itemAt traversalNow))
        (startSaving base.length rootTree)).RunsTo edit w (.ok st') w
          (pairedItems o create base now traversalNow (listing .lifo base tree) rootTree.slot) ∧
      PairedAll o create edit base now traversalNow (listing .lifo base tree) rootTree.slot
        (startSaving base.length rootTree) st' := by
  obtain ⟨below, listed, long, _⟩ := listing_cons .lifo base tree
  have distinct := listing_nodup .lifo base tree inputWellFormed
  have start := mirrors_start base rootTree wellFormed
  have rootSlot : rootTree.slot (base.drop base.length) = some rootTree.label := by
    rw [List.drop_length]
    rfl
  obtain ⟨first, ran, firstMirrors, changed⟩ := saveItem_runs o create edit base now traversalNow ttl
    base.length base tree (startSaving base.length rootTree) (startSaving base.length rootTree)
    (by rw [if_pos (nodeRefOf_level base nonempty)]) _ _ start (base.drop base.length) rootTree.label
    (by rw [List.drop_length]; rfl) rootSlot w
  have threaded := threaded_listing base listed
  have inTree := listed_below base inputWellFormed ordinary listed long
  have proper : ∀ node ∈ below, ∃ q key, node.1 = base ++ q ++ [key] ∧ key ∉ inheritedNames := by
    intro node member
    obtain ⟨q, key, path, ordinaryKey, _⟩ := inTree node member
    exact ⟨q, key, path, ordinaryKey⟩
  rw [listed, List.map_cons, List.nodup_cons] at distinct
  have apart : ∀ node ∈ below, node.1.drop base.length ≠ base.drop base.length := by
    intro node member
    obtain ⟨q, key, path, _⟩ := proper node member
    apply drop_ne_of_not_mem base (List.prefix_refl base) distinct.1 member
    rw [path, List.append_assoc]
    exact List.prefix_append base _
  have entered : enteredLabel o create base (rootTree.slot (base.drop base.length)) =
      rootTree.label := by
    rw [rootSlot]
    rfl
  obtain ⟨last, rest, paired⟩ := saveItems_runs o create edit base now traversalNow ttl w below _ _
    first firstMirrors threaded distinct.2 proper
  have changedAs : first.changed = ((startSaving base.length rootTree).changed ||
      altersTree o create edit now traversalNow base tree (rootTree.slot (base.drop base.length))) := by
    rw [changed, altersTree, entered, rootSlot]
    rfl
  have label : pairedLabel o create edit now traversalNow base tree
      (rootTree.slot (base.drop base.length)) = editedLabel o edit now
        (pairedItem o now traversalNow base tree rootTree.label) rootTree.label := by
    rw [pairedLabel, entered]
  rw [← label] at paired
  rw [listed]
  refine ⟨last, ?_, PairedAll.cons o create edit base now traversalNow apart changedAs paired⟩
  rw [List.map_cons, saveItems]
  have both := ran.then (f := fun st => saveItems o.toOptions (fun ref => .ok (create ref)) ttl now
    base.length (below.map (itemAt traversalNow)) st) rest
  rw [pairedItems_congr o create base now traversalNow _ rootTree.slot fun node listed =>
    Function.update_of_ne (apart node listed) _ _] at both
  rw [pairedItems, List.map_cons, entered]
  exact both

/-! ## One tree -/

theorem persistTree_runs (key : String) (ttl : Option ℚ) (tree : Tree R) (w : World R) :
    ∃ expiry, (persistTree o.toOptions key ttl tree : Prog (FullSetItem T R) T R Unit).RunsTo edit w
      (.ok ()) { w with store := Function.update w.store key (some ⟨o.encodeTree tree, expiry⟩) } [] := by
  unfold persistTree
  cases truthy : truthyNumber ttl with
  | false =>
      simp only [Bool.false_eq_true, if_false, Prog.pure_eq, Prog.ret_ok_bind, o.serialize_tree]
      exact ⟨_, rfl⟩
  | true =>
      simp only [if_true, Prog.storageTtl, Prog.getCurrentTtl_bind, Prog.pure_eq, Prog.ret_ok_bind,
        o.serialize_tree]
      exact ⟨_, rfl⟩

/-- An input tree and the tree stored under the key of its top node, before and after. -/
structure PairsStored (tree : Tree T) (w : World R) (outcome : Outcome (FullSetItem T R) R Unit) :
    Prop where
  returns : outcome.result = .ok ()
  items : outcome.yielded = pairedItems o create base w.clock w.clock (listing .lifo base tree)
    (rootTree o (w.read (joinKeys base))).slot
  others : ∀ key, key ≠ joinKeys base → outcome.world.store key = w.store key
  clock : outcome.world.clock = w.clock
  kept : (∀ q node, tree.sub q = some node → altersTree o create edit w.clock w.clock (base ++ q) node
      ((rootTree o (w.read (joinKeys base))).slot q) = false) →
    outcome.world.store (joinKeys base) = w.store (joinKeys base)
  written : (∃ q node, tree.sub q = some node ∧ altersTree o create edit w.clock w.clock (base ++ q) node
      ((rootTree o (w.read (joinKeys base))).slot q) = true) →
    ∃ after expiry, outcome.world.store (joinKeys base) = some ⟨o.encodeTree after, expiry⟩ ∧
      after.wellFormed = true ∧
      (∀ q node, tree.sub q = some node → after.slot q = some (pairedLabel o create edit w.clock w.clock
        (base ++ q) node ((rootTree o (w.read (joinKeys base))).slot q))) ∧
      ∀ q, tree.sub q = none → after.slot q = (rootTree o (w.read (joinKeys base))).slot q

theorem saveFullTreeValue_pairs (ttl : Option (StepTtl T)) (tree : Tree T)
    (wellFormed : tree.wellFormed = true) (ordinary : OrdinaryKeys tree) (nonempty : base ≠ [])
    (w : World R) (decodes : DecodesRoot o (w.read (joinKeys base))) :
    PairsStored o create edit base tree w ((saveFullTreeValue o.toOptions
      (itemAt traversalNow (base, tree)) (joinKeys base) (fun ref => .ok (create ref)) ttl).run edit w) := by
  obtain ⟨st, ran, paired⟩ := saveItems_listing_runs o create edit base w.clock w.clock ttl tree
    wellFormed ordinary nonempty (rootTree o (w.read (joinKeys base))) (rootTree_wellFormed o _) w
  have level : (nodeRefOf base).level = base.length := nodeRefOf_level base nonempty
  have items : treePreOrderDepthFirstSearch w.clock tree (some (nodeRefOf base)) =
      (listing .lifo base tree).map (itemAt w.clock) :=
    treePreOrderTraversal_below .lifo w.clock base tree nonempty
  have listed : ∀ p node, (p, node) ∈ listing .lifo base tree ↔
      ∃ q, p = base ++ q ∧ tree.sub q = some node :=
    mem_listing .lifo base tree wellFormed
  have altered : st.changed = true ↔ ∃ q node, tree.sub q = some node ∧
      altersTree o create edit w.clock w.clock (base ++ q) node
        ((rootTree o (w.read (joinKeys base))).slot q) = true := by
    rw [paired.changed]
    constructor
    · rintro (before | ⟨p, node, member, alters⟩)
      · cases before
      · obtain ⟨q, rfl, found⟩ := (listed p node).mp member
        rw [List.drop_left] at alters
        exact ⟨q, node, found, alters⟩
    · rintro ⟨q, node, found, alters⟩
      refine Or.inr ⟨base ++ q, node, (listed _ _).mpr ⟨q, rfl, found⟩, ?_⟩
      rw [List.drop_left]
      exact alters
  have loop : ∀ w' more, (if st.changed then persistTree o.toOptions (joinKeys base) st.maxTtl
        (st.memory none) else pure () : Prog (FullSetItem T R) T R Unit).RunsTo edit w (.ok ()) w' more →
      (saveFullTreeValue o.toOptions (itemAt traversalNow (base, tree)) (joinKeys base)
        (fun ref => .ok (create ref)) ttl).RunsTo edit w (.ok ()) w'
          (pairedItems o create base w.clock w.clock (listing .lifo base tree)
            (rootTree o (w.read (joinKeys base))).slot ++ more) := by
    intro w' more last
    rw [← items] at ran
    have whole := ran.then (f := fun last : Saving R => if last.changed then
      persistTree o.toOptions (joinKeys base) last.maxTtl (last.memory none) else pure ()) last
    unfold saveFullTreeValue
    change RunsTo edit (Prog.ret (decodeRoot o.toOptions (w.read (joinKeys base))) >>= _) w _ _ _
    rw [DecodesRoot.eq o decodes, Prog.ret_ok_bind]
    simp only [itemAt, level]
    exact whole
  cases changed : st.changed with
  | false =>
      have ended := loop w [] (by rw [changed]; rfl)
      rw [RunsTo, List.append_nil] at ended
      rw [ended]
      refine ⟨rfl, rfl, fun _ _ => rfl, rfl, fun _ => rfl, fun alters => ?_⟩
      rw [altered.mpr alters] at changed
      cases changed
  | true =>
      obtain ⟨expiry, writes⟩ := persistTree_runs o edit (joinKeys base) st.maxTtl (st.memory none) w
      have ended := loop _ [] (by rw [changed]; exact writes)
      rw [RunsTo, List.append_nil] at ended
      rw [ended]
      refine ⟨rfl, rfl, fun key apart => Function.update_of_ne apart _ _, rfl, fun quiet => ?_,
        fun _ => ⟨st.memory none, expiry, Function.update_self _ _ _, paired.wellFormed, ?_, ?_⟩⟩
      · obtain ⟨q, node, found, alters⟩ := altered.mp changed
        rw [quiet q node found] at alters
        cases alters
      · intro q node found
        have slot := paired.paired (base ++ q) node ((listed _ _).mpr ⟨q, rfl, found⟩)
        rw [List.drop_left] at slot
        exact slot
      · intro q absent
        apply paired.kept
        intro node member same
        obtain ⟨q', path, found⟩ := (listed node.1 node.2).mp member
        rw [path, List.drop_left] at same
        rw [same, absent] at found
        cases found

end TreeKeyCache
