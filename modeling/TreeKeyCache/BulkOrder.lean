import TreeKeyCache.PairedNodes
import TreeKeyCache.BulkDeadlines

/-! # The order of the items of `fullTreeSet`

The nodes above the tree level come breadth first, and each tree below comes depth first at the
place of its top node. -/
set_option autoImplicit false
namespace TreeKeyCache

variable {T : Type}

/-! ## No node after one of its descendants -/

/-- No node is listed twice, or after a node below it. -/
def Descending (nodes : List (List String × Tree T)) : Prop :=
  nodes.Pairwise fun a b => ¬ b.1 <+: a.1

theorem Descending.nodup {nodes : List (List String × Tree T)} (descending : Descending nodes) :
    (nodes.map Prod.fst).Nodup := by
  rw [List.Nodup, List.pairwise_map]
  apply descending.imp
  intro a b apart same
  apply apart
  rw [same]

theorem depthFirst_descending : ∀ (depth : Nat) (base : List String) (root : Tree T),
    root.size ≤ depth → root.wellFormed = true →
      Descending (Worklist.depthFirst nextNodes depth (base, root)) := by
  intro depth
  induction depth with
  | zero =>
      intro base root enough
      have positive := size_pos root
      omega
  | succ depth ih =>
      intro base root enough wellFormed
      have below : ∀ next ∈ (nextNodes (base, root)).reverse,
          ∀ node ∈ Worklist.depthFirst nextNodes depth next, next.1 <+: node.1 := by
        intro next listed node member
        obtain ⟨key, kid, path⟩ := mem_nextNodes.mp (List.mem_reverse.mp listed)
        have smaller : next.2.size < root.size := size_kid kid
        obtain ⟨q, same, _⟩ := (mem_depthFirst depth next.1 next.2 (by omega)
          (wellFormed_kid wellFormed kid) node.1 node.2).mp member
        exact ⟨q, same.symm⟩
      rw [Descending, Worklist.depthFirst, List.pairwise_cons]
      constructor
      · intro node listed before
        obtain ⟨next, reached, member⟩ := List.mem_flatMap.mp listed
        obtain ⟨key, _, path⟩ := mem_nextNodes.mp (List.mem_reverse.mp reached)
        have lengths := ((below next reached node member).trans before).length_le
        rw [path, List.length_append, List.length_singleton] at lengths
        omega
      · rw [List.pairwise_flatMap]
        constructor
        · intro next listed
          obtain ⟨key, kid, path⟩ := mem_nextNodes.mp (List.mem_reverse.mp listed)
          have smaller : next.2.size < root.size := size_kid kid
          exact ih next.1 next.2 (by omega) (wellFormed_kid wellFormed kid)
        · have distinct : (nextNodes (base, root)).reverse.Pairwise fun a b => a.1 ≠ b.1 := by
            rw [List.pairwise_reverse, nextNodes, List.pairwise_map]
            have keys := kids_keys_nodup wellFormed
            rw [List.Nodup, List.pairwise_map] at keys
            apply keys.imp
            intro a b apart same
            exact apart (List.singleton_inj.mp (List.append_cancel_left same)).symm
          apply distinct.imp_of_mem
          intro first second firstListed secondListed apart a inFirst b inSecond before
          obtain ⟨key, _, path⟩ := mem_nextNodes.mp (List.mem_reverse.mp firstListed)
          obtain ⟨key', _, path'⟩ := mem_nextNodes.mp (List.mem_reverse.mp secondListed)
          have upper := below first firstListed a inFirst
          have lower := (below second secondListed b inSecond).trans before
          apply apart
          rcases List.prefix_or_prefix_of_prefix upper lower with inside | inside
          · apply inside.eq_of_length
            rw [path, path', List.length_append, List.length_append]
            rfl
          · apply Eq.symm
            apply inside.eq_of_length
            rw [path, path', List.length_append, List.length_append]
            rfl

theorem listing_lifo_descending (base : List String) (root : Tree T)
    (wellFormed : root.wellFormed = true) : Descending (listing .lifo base root) := by
  rw [listing_lifo]
  exact depthFirst_descending root.size base root (le_refl _) wellFormed

theorem listing_fifo_descending (base : List String) (root : Tree T)
    (wellFormed : root.wellFormed = true) : Descending (listing .fifo base root) := by
  have distinct := listing_nodup .fifo base root wellFormed
  rw [List.Nodup, List.pairwise_map] at distinct
  apply List.Pairwise.imp _ ((listing_fifo_sorted base root).and distinct)
  rintro a b ⟨shorter, apart⟩ before
  exact apart (before.eq_of_length_le shorter).symm

/-! ## The nodes in the order of their items -/

/-- The node itself, or the whole tree below it. -/
def nodesFrom (keyLevelNodes : Nat) (node : List String × Tree T) : List (List String × Tree T) :=
  if node.1.length = keyLevelNodes then listing .lifo node.1 node.2 else [node]

/-- The nodes down to the tree level, level by level. -/
def breadthNodes (keyLevelNodes : Nat) (tree : Tree T) : List (List String × Tree T) :=
  (listing .fifo [] tree).tail.filter fun node => node.1.length ≤ keyLevelNodes

def presentedNodes (keyLevelNodes : Nat) (tree : Tree T) : List (List String × Tree T) :=
  (breadthNodes keyLevelNodes tree).flatMap (nodesFrom keyLevelNodes)

variable {keyLevelNodes : Nat} {tree : Tree T}

theorem mem_nodesFrom {base p : List String} {sub node : Tree T} (wellFormed : sub.wellFormed = true) :
    (p, node) ∈ nodesFrom keyLevelNodes (base, sub) ↔ ∃ q, p = base ++ q ∧ sub.sub q = some node ∧
      (base.length = keyLevelNodes ∨ q = []) := by
  rw [nodesFrom]
  by_cases level : base.length = keyLevelNodes
  · rw [if_pos level, mem_listing .lifo base sub wellFormed]
    constructor
    · rintro ⟨q, path, found⟩
      exact ⟨q, path, found, Or.inl level⟩
    · rintro ⟨q, path, found, _⟩
      exact ⟨q, path, found⟩
  · rw [if_neg level, List.mem_singleton]
    constructor
    · intro same
      obtain ⟨rfl, rfl⟩ := Prod.mk.inj same
      exact ⟨[], (List.append_nil _).symm, rfl, Or.inr rfl⟩
    · rintro ⟨q, rfl, found, either⟩
      rcases either with here | rfl
      · exact absurd here level
      · rw [Option.some.inj found, List.append_nil]

theorem mem_breadthNodes (wellFormed : tree.wellFormed = true) {p : List String} {node : Tree T} :
    (p, node) ∈ breadthNodes keyLevelNodes tree ↔
      p ≠ [] ∧ tree.sub p = some node ∧ p.length ≤ keyLevelNodes := by
  rw [breadthNodes, List.mem_filter, decide_eq_true_eq, mem_listing_tail .fifo wellFormed, and_assoc]

theorem mem_presentedNodes (positive : 1 ≤ keyLevelNodes) (wellFormed : tree.wellFormed = true)
    {p : List String} {node : Tree T} :
    (p, node) ∈ presentedNodes keyLevelNodes tree ↔ p ≠ [] ∧ tree.sub p = some node := by
  rw [presentedNodes, List.mem_flatMap]
  constructor
  · rintro ⟨⟨base, sub⟩, listed, member⟩
    obtain ⟨nonempty, found, _⟩ := (mem_breadthNodes wellFormed).mp listed
    obtain ⟨q, rfl, below, _⟩ := (mem_nodesFrom
      (Tree.wellFormed_sub base tree sub wellFormed found)).mp member
    refine ⟨List.append_ne_nil_of_left_ne_nil nonempty _, ?_⟩
    rw [Tree.sub_append, found]
    exact below
  · rintro ⟨nonempty, found⟩
    by_cases short : p.length ≤ keyLevelNodes
    · refine ⟨(p, node), (mem_breadthNodes wellFormed).mpr ⟨nonempty, found, short⟩, ?_⟩
      apply (mem_nodesFrom (Tree.wellFormed_sub p tree node wellFormed found)).mpr
      exact ⟨[], (List.append_nil p).symm, rfl, Or.inr rfl⟩
    · have level : (p.take keyLevelNodes).length = keyLevelNodes := by
        rw [List.length_take]
        omega
      have split := List.take_append_drop keyLevelNodes p
      rw [← split, Tree.sub_append, Option.bind_eq_some_iff] at found
      obtain ⟨sub, above, below⟩ := found
      refine ⟨(p.take keyLevelNodes, sub), (mem_breadthNodes wellFormed).mpr ⟨?_, above, level.le⟩, ?_⟩
      · intro none
        rw [none, List.length_nil] at level
        omega
      · apply (mem_nodesFrom (Tree.wellFormed_sub _ tree sub wellFormed above)).mpr
        exact ⟨p.drop keyLevelNodes, split.symm, below, Or.inl level⟩

theorem breadthNodes_descending (wellFormed : tree.wellFormed = true) :
    Descending (breadthNodes keyLevelNodes tree) :=
  ((listing_fifo_descending [] tree wellFormed).sublist (List.tail_sublist _)).filter _

theorem presentedNodes_descending (wellFormed : tree.wellFormed = true) :
    Descending (presentedNodes keyLevelNodes tree) := by
  rw [Descending, presentedNodes, List.pairwise_flatMap]
  have listed : ∀ base ∈ breadthNodes keyLevelNodes tree, base.2.wellFormed = true ∧
      base.1.length ≤ keyLevelNodes := by
    intro base member
    obtain ⟨_, found, short⟩ := (mem_breadthNodes wellFormed).mp member
    exact ⟨Tree.wellFormed_sub _ tree base.2 wellFormed found, short⟩
  constructor
  · intro base member
    rw [nodesFrom]
    by_cases level : base.1.length = keyLevelNodes
    · rw [if_pos level]
      exact listing_lifo_descending base.1 base.2 (listed base member).1
    · rw [if_neg level]
      exact List.pairwise_singleton _ _
  · apply List.Pairwise.imp_of_mem _ (breadthNodes_descending wellFormed)
    intro first second firstListed secondListed apart a inFirst b inSecond before
    obtain ⟨firstWellFormed, _⟩ := listed first firstListed
    obtain ⟨secondWellFormed, secondShort⟩ := listed second secondListed
    obtain ⟨p, node⟩ := a
    obtain ⟨p', node'⟩ := b
    obtain ⟨q, path, _, either⟩ := (mem_nodesFrom firstWellFormed).mp inFirst
    obtain ⟨q', path', _, _⟩ := (mem_nodesFrom secondWellFormed).mp inSecond
    have upper : first.1 <+: p := ⟨q, path.symm⟩
    have lower : second.1 <+: p := List.IsPrefix.trans ⟨q', path'.symm⟩ before
    apply apart
    rcases either with level | rfl
    · exact List.prefix_of_prefix_length_le lower upper (by omega)
    · rw [List.append_nil] at path
      rw [← path]
      exact lower

theorem presentedNodes_parent (positive : 1 ≤ keyLevelNodes) (wellFormed : tree.wellFormed = true)
    {before after : List (List String × Tree T)} {p : List String} {node : Tree T}
    (split : presentedNodes keyLevelNodes tree = before ++ (p, node) :: after)
    (inner : p.dropLast ≠ []) : p.dropLast ∈ before.map Prod.fst := by
  have descending : Descending (presentedNodes keyLevelNodes tree) :=
    presentedNodes_descending wellFormed
  have listed : (p, node) ∈ presentedNodes keyLevelNodes tree := by
    rw [split]
    exact List.mem_append_right _ List.mem_cons_self
  obtain ⟨nonempty, found⟩ := (mem_presentedNodes positive wellFormed).mp listed
  rw [← List.dropLast_append_getLast nonempty, Tree.sub_append, Option.bind_eq_some_iff] at found
  obtain ⟨parent, above, _⟩ := found
  have member := (mem_presentedNodes positive wellFormed).mpr ⟨inner, above⟩
  rw [split] at member
  rcases List.mem_append.mp member with earlier | later
  · exact List.mem_map.mpr ⟨_, earlier, rfl⟩
  · rcases List.mem_cons.mp later with same | later
    · have lengths := congrArg List.length (Prod.mk.inj same).1
      have positiveLength := List.length_pos_iff.mpr nonempty
      rw [List.length_dropLast] at lengths
      omega
    · rw [split, Descending, List.pairwise_append, List.pairwise_cons] at descending
      exact absurd (List.dropLast_prefix p) (descending.2.1.1 _ later)

/-! ## Runs -/

open Prog

variable {R : Type}

/-- The item of the node at a path: its key, its level and its path. -/
structure ItemFor (p : List String) (item : FullSetItem T R) : Prop where
  key : p.getLast? = some item.key
  level : item.level = p.length
  path : item.nodeRef.keys = p

theorem itemFor_nodeRefOf (p : List String) (nonempty : p ≠ []) (item : FullSetItem T R)
    (key : item.key = (nodeRefOf p).key) (level : item.level = (nodeRefOf p).level)
    (nodeRef : item.nodeRef = nodeRefOf p) : ItemFor p item := by
  refine ⟨?_, ?_, ?_⟩
  · obtain ⟨front, last, rfl⟩ := exists_append_singleton p nonempty
    rw [key, nodeRefOf_append_singleton, ChainedObject.key_ofParent, List.getLast?_concat]
  · rw [level, nodeRefOf_level p nonempty]
  · rw [nodeRef, nodeRefOf_keys p nonempty]

def ItemsFor (nodes : List (List String × Tree T)) (items : List (FullSetItem T R)) : Prop :=
  List.Forall₂ (fun node item => ItemFor node.1 item) nodes items

variable [SerializedForm R] (o : LawfulOptions T R) (isNull : T → Bool)
  (create : ChainedObject → Option T) (edit : FullSetItem T R → Option T)
  (ttl : Option (StepTtl T)) (traversalNow : ℚ)

/-- The same options over values some of which are `null`. -/
def LawfulOptions.withNulls : Options T R := { o.toOptions with isNull := isNull }

omit [SerializedForm R] in
@[simp] theorem withNulls_keyLevelNodes [SerializedForm R] (o : LawfulOptions T R) :
    (o.withNulls isNull).keyLevelNodes = o.keyLevelNodes := rfl

/-- `createValue` as the tree level sees it: a `null` creates nothing. -/
def notNull (node : ChainedObject) : Option T := (create node).filter fun v => !isNull v

theorem enterChild_withNulls (depthNode : TraversalItem T) (st : Saving R) :
    enterChild (o.withNulls isNull) (fun ref => .ok (create ref)) depthNode st =
      enterChild o.toOptions (fun ref => .ok (notNull isNull create ref)) depthNode st := by
  unfold enterChild
  simp only [o.given_eq]
  rfl

theorem saveItems_withNulls (now : ℚ) (rootLevel : Nat) :
    ∀ (items : List (TraversalItem T)) (st : Saving R),
      saveItems (o.withNulls isNull) (fun ref => .ok (create ref)) ttl now rootLevel items st =
        saveItems o.toOptions (fun ref => .ok (notNull isNull create ref)) ttl now rootLevel items
          st := by
  intro items
  induction items with
  | nil => exact fun _ => rfl
  | cons item rest ih =>
      intro st
      rw [saveItems, saveItems, saveItem, saveItem, enterChild_withNulls]
      exact congrArg _ (funext ih)

theorem saveFullTreeValue_withNulls (rootNode : TraversalItem T) (key : String) :
    saveFullTreeValue (o.withNulls isNull) rootNode key (fun ref => .ok (create ref)) ttl =
      saveFullTreeValue o.toOptions rootNode key (fun ref => .ok (notNull isNull create ref)) ttl := by
  unfold saveFullTreeValue
  simp only [saveItems_withNulls]
  rfl

omit [SerializedForm R] in
theorem registerChildren_runs (key : String) : ∀ (entries : TreeChildren T) (w : World R),
    ∃ registry, (registerChildren key entries : Prog (FullSetItem T R) T R Unit).RunsTo edit w
      (.ok ()) { w with registry := registry } [] := by
  intro entries
  induction entries with
  | nil => exact fun w => ⟨w.registry, rfl⟩
  | cons entry entries ih =>
      intro w
      obtain ⟨child, value⟩ := entry
      obtain ⟨registry, ran⟩ := ih (w.register (some key) child)
      exact ⟨registry, ran⟩

theorem persistStep_runs (step : Step T) (content : Option R) (key : String) (w : World R) :
    ∃ w', (persistStep (o.withNulls isNull) step content key ttl :
      Prog (FullSetItem T R) T R Unit).RunsTo edit w (.ok ()) w' [] ∧ Writes key w w' := by
  have serialize : ∀ v, (o.withNulls isNull).valueSerializer.serialize v = .ok (o.encode v) :=
    o.serialize_value
  unfold persistStep
  cases (o.withNulls isNull).given step.value with
  | none => exact ⟨w, rfl, rfl, fun _ _ => rfl⟩
  | some v =>
      simp only [serialize, Prog.ret_ok_bind]
      by_cases changes : differs content (o.encode v) = true
      · rw [if_pos changes]
        exact ⟨_, rfl, rfl, fun other apart => Function.update_of_ne apart _ _⟩
      · rw [if_neg changes]
        exact ⟨w, rfl, rfl, fun _ _ => rfl⟩

theorem saveKeyLevelValue_runs (p : List String) (nonempty : p ≠ []) (node : Tree T) (w : World R) :
    ∃ w' item, (saveKeyLevelValue (o.withNulls isNull) (itemAt traversalNow (p, node)) (joinKeys p)
        (fun ref => .ok (create ref)) ttl).RunsTo edit w (.ok ()) w' [item] ∧
      Writes (joinKeys p) w w' ∧ ItemFor p item := by
  obtain ⟨registry, registered⟩ := registerChildren_runs edit (joinKeys p) (node.children.getD []) w
  let w₁ : World R := { w with registry := registry }
  let old := present o.toOptions (some create) (nodeRefOf p) (w.read (joinKeys p))
  let item : FullSetItem T R :=
    { old with
      value :=
        (o.withNulls isNull).given (getTreeCurrentSerializedValue node traversalNow) <|> old.value
      oldValue := old.value
      currentSerialized := none }
  have made : getStep o.toOptions (w₁.read (joinKeys p)) (nodeRefOf p)
      (some fun ref => .ok (create ref)) = .ok old := getStep_pureCreate o.toOptions (some create) _ _
  obtain ⟨w', persisted, writes⟩ := persistStep_runs o isNull edit ttl
    { item.toStep with value := edit item } (w.read (joinKeys p)) (joinKeys p) w₁
  refine ⟨w', item, ?_, ⟨writes.clock, writes.others⟩, itemFor_nodeRefOf p nonempty item rfl rfl rfl⟩
  unfold saveKeyLevelValue registerKeyLevelChildren
  refine registered.then ?_
  have read : (storageGet (joinKeys p) : Prog (FullSetItem T R) T R (Option R)).RunsTo edit w₁
      (.ok (w.read (joinKeys p))) w₁ [] := rfl
  refine read.then ?_
  have entered : (Prog.ret (getStep (o.withNulls isNull) (w.read (joinKeys p)) (nodeRefOf p)
      (some fun ref => .ok (create ref))) : Prog (FullSetItem T R) T R (Step T)).RunsTo edit w₁
        (.ok old) w₁ [] := congrArg (fun result => Outcome.mk result w₁ []) made
  refine entered.then ?_
  exact persisted.yielding item

theorem decodeRoot_fails (content : Option R) (fails : ¬ DecodesRoot o content) :
    ∃ r e, o.treeSerializer.deserialize r = .error e ∧ decodeRoot o.toOptions content = .error e := by
  rw [DecodesRoot, decodeRoot] at fails
  rw [decodeRoot]
  cases read : truthy? content with
  | none =>
      rw [read] at fails
      exact absurd ⟨Tree.empty, rfl⟩ fails
  | some r =>
      rw [read] at fails
      dsimp only at fails ⊢
      cases decoded : o.treeSerializer.deserialize r with
      | error e => exact ⟨r, e, decoded, rfl⟩
      | ok tree => exact absurd ⟨tree, decoded⟩ fails

/-- The run of one round: all items of its nodes, or none and the error of the tree serializer. -/
inductive NodeRun (w : World R) (node : List String × Tree T) :
    Except Err Unit → List (FullSetItem T R) → Prop where
  | done (items : List (FullSetItem T R)) (paired : ItemsFor (nodesFrom o.keyLevelNodes node) items) :
      NodeRun w node (.ok ()) items
  | undecodable (r : R) (e : Err) (fails : o.treeSerializer.deserialize r = .error e)
      (level : node.1.length = o.keyLevelNodes) (content : ¬ DecodesRoot o (w.read (joinKeys node.1))) :
      NodeRun w node (.error e) []

theorem fullTreeSetNode_runs (minLevelSemaphore : Nat) (p : List String) (nonempty : p ≠ [])
    (node : Tree T) (wellFormed : node.wellFormed = true) (ordinary : OrdinaryKeys node) (w : World R) :
    ∃ result w' items, (fullTreeSetNode (o.withNulls isNull) (fun ref => .ok (create ref))
        minLevelSemaphore ttl (itemAt traversalNow (p, node))).RunsTo edit w result w' items ∧
      Writes (joinKeys p) w w' ∧ NodeRun o w (p, node) result items := by
  have key : buildKey (itemAt traversalNow (p, node)).ref = joinKeys p :=
    buildKey_nodeRefOf p nonempty
  have level : (itemAt traversalNow (p, node)).ref.level = p.length := nodeRefOf_level p nonempty
  unfold fullTreeSetNode
  rw [key, level, withNulls_keyLevelNodes]
  by_cases deep : p.length = o.keyLevelNodes
  · simp only [if_pos deep, saveFullTreeValue_withNulls]
    by_cases decodes : DecodesRoot o (w.read (joinKeys p))
    · have pairs := saveFullTreeValue_pairs o (notNull isNull create) edit p traversalNow ttl node
        wellFormed ordinary nonempty w decodes
      obtain ⟨outcome, alone⟩ : ∃ outcome, outcome = (saveFullTreeValue o.toOptions
          (itemAt traversalNow (p, node)) (joinKeys p) (fun ref => .ok (notNull isNull create ref))
            ttl).run edit w := ⟨_, rfl⟩
      rw [← alone] at pairs
      have ran : (saveFullTreeValue o.toOptions (itemAt traversalNow (p, node)) (joinKeys p)
          (fun ref => .ok (notNull isNull create ref)) ttl).RunsTo edit w (.ok ()) outcome.world
            (pairedItems o (notNull isNull create) p w.clock w.clock (listing .lifo p node)
              (rootTree o (w.read (joinKeys p))).slot) := by
        rw [RunsTo, ← alone, ← pairs.returns, ← pairs.items]
      refine ⟨.ok (), _, _, RunsTo.locked _ _ ran, ⟨pairs.clock, pairs.others⟩, NodeRun.done _ ?_⟩
      rw [nodesFrom, if_pos deep, ItemsFor, pairedItems, List.forall₂_map_right_iff, List.forall₂_same]
      intro found listed
      obtain ⟨q, path, _⟩ := (mem_listing .lifo p node wellFormed found.1 found.2).mp listed
      apply itemFor_nodeRefOf found.1 _ _ rfl rfl rfl
      rw [path]
      exact List.append_ne_nil_of_left_ne_nil nonempty q
    · obtain ⟨r, e, fails, decoded⟩ := decodeRoot_fails o (w.read (joinKeys p)) decodes
      refine ⟨.error e, w, [], RunsTo.locked _ _ ?_, ⟨rfl, fun _ _ => rfl⟩,
        NodeRun.undecodable r e fails deep decodes⟩
      have entered : (Prog.ret (decodeRoot o.toOptions (w.read (joinKeys p))) :
          Prog (FullSetItem T R) T R (Tree R)).RunsTo edit w (.error e) w [] :=
        congrArg (fun result => Outcome.mk result w []) decoded
      unfold saveFullTreeValue
      exact entered.throws
  · simp only [if_neg deep]
    obtain ⟨w', item, ran, writes, paired⟩ := saveKeyLevelValue_runs o isNull create edit ttl
      traversalNow p nonempty node w
    refine ⟨.ok (), w', [item], RunsTo.locked _ _ ran, writes, NodeRun.done [item] ?_⟩
    rw [nodesFrom, if_neg deep]
    exact .cons paired .nil

structure NodesRun (w : World R) (nodes : List (List String × Tree T)) (result : Except Err Unit)
    (items : List (FullSetItem T R)) : Prop where
  paired : ∃ seen, seen <+: nodes.flatMap (nodesFrom o.keyLevelNodes) ∧ ItemsFor seen items ∧
    (result = .ok () → seen = nodes.flatMap (nodesFrom o.keyLevelNodes))
  errors : ∀ e, result = .error e → ∃ r, o.treeSerializer.deserialize r = .error e
  returns : (nodes.Pairwise fun a b => joinKeys a.1 ≠ joinKeys b.1) →
    (∀ node ∈ nodes, node.1.length = o.keyLevelNodes → DecodesRoot o (w.read (joinKeys node.1))) →
      result = .ok ()

theorem NodesRun.nil (w : World R) : NodesRun o w ([] : List (List String × Tree T)) (.ok ()) [] :=
  ⟨⟨[], List.prefix_refl [], .nil, fun _ => rfl⟩, fun _ failed => (nomatch failed), fun _ _ => rfl⟩

variable {o}

theorem NodesRun.cons {w w₁ : World R} {node : List String × Tree T}
    {nodes : List (List String × Tree T)} {result : Except Err Unit}
    {items more : List (FullSetItem T R)} (writes : Writes (joinKeys node.1) w w₁)
    (first : ItemsFor (nodesFrom o.keyLevelNodes node) items) (rest : NodesRun o w₁ nodes result more) :
    NodesRun o w (node :: nodes) result (items ++ more) := by
  obtain ⟨seen, early, paired, complete⟩ := rest.paired
  refine ⟨⟨nodesFrom o.keyLevelNodes node ++ seen, ?_, List.rel_append first paired, ?_⟩, rest.errors, ?_⟩
  · rw [List.flatMap_cons]
    exact (List.prefix_append_right_inj _).mpr early
  · intro ended
    rw [List.flatMap_cons, complete ended]
  · intro apart decodes
    rw [List.pairwise_cons] at apart
    apply rest.returns apart.2
    intro other listed level
    rw [World.read_congr w₁ w _ (writes.others _ (apart.1 other listed).symm) writes.clock]
    exact decodes other (List.mem_cons_of_mem _ listed) level

theorem NodesRun.fails {w : World R} {node : List String × Tree T}
    {nodes : List (List String × Tree T)} {r : R} {e : Err}
    (fails : o.treeSerializer.deserialize r = .error e) (level : node.1.length = o.keyLevelNodes)
    (content : ¬ DecodesRoot o (w.read (joinKeys node.1))) :
    NodesRun o w (node :: nodes) (.error e) [] := by
  refine ⟨⟨[], List.nil_prefix, .nil, fun ended => (nomatch ended)⟩, ?_, ?_⟩
  · intro e' same
    obtain rfl := Except.error.inj same
    exact ⟨r, fails⟩
  · intro _ decodes
    exact absurd (decodes node List.mem_cons_self level) content

variable (o)

theorem fullTreeSetNodes_runs (minLevelSemaphore : Nat) :
    ∀ (nodes : List (List String × Tree T)) (w : World R),
      nodes.Pairwise (fun a b => a.1.length ≤ b.1.length) →
      (∀ node ∈ nodes, node.1 ≠ [] ∧ node.2.wellFormed = true ∧ OrdinaryKeys node.2) →
        ∃ result w' items, (fullTreeSetNodes (o.withNulls isNull) (fun ref => .ok (create ref))
            minLevelSemaphore ttl (nodes.map (itemAt traversalNow))).RunsTo edit w result w' items ∧
          NodesRun o w (nodes.filter fun node => node.1.length ≤ o.keyLevelNodes) result items := by
  intro nodes
  induction nodes with
  | nil => exact fun w _ _ => ⟨.ok (), w, [], rfl, NodesRun.nil o w⟩
  | cons node nodes ih =>
      intro w sorted inputs
      obtain ⟨p, tree⟩ := node
      obtain ⟨nonempty, wellFormed, ordinary⟩ := inputs (p, tree) List.mem_cons_self
      have level : (itemAt traversalNow (p, tree)).ref.level = p.length := nodeRefOf_level p nonempty
      rw [List.pairwise_cons] at sorted
      rw [List.map_cons, fullTreeSetNodes, level, withNulls_keyLevelNodes]
      by_cases below : o.keyLevelNodes < p.length
      · have none : (((p, tree) :: nodes).filter fun node => node.1.length ≤ o.keyLevelNodes) = [] := by
          rw [List.filter_eq_nil_iff]
          intro node listed
          rw [decide_eq_true_eq, Nat.not_le]
          rcases List.mem_cons.mp listed with rfl | later
          · exact below
          · exact Nat.lt_of_lt_of_le below (sorted.1 node later)
        rw [if_pos below, none]
        exact ⟨.ok (), w, [], rfl, NodesRun.nil o w⟩
      · obtain ⟨result, w₁, items, ran, writes, round⟩ := fullTreeSetNode_runs o isNull create edit ttl
          traversalNow minLevelSemaphore p nonempty tree wellFormed ordinary w
        have kept : (((p, tree) :: nodes).filter fun node => node.1.length ≤ o.keyLevelNodes) =
            (p, tree) :: nodes.filter fun node => node.1.length ≤ o.keyLevelNodes :=
          List.filter_cons_of_pos (decide_eq_true (Nat.not_lt.mp below))
        rw [if_neg below, kept]
        cases round with
        | done items paired =>
            obtain ⟨result', w', more, rest, all⟩ := ih w₁ sorted.2
              fun other listed => inputs other (List.mem_cons_of_mem _ listed)
            exact ⟨result', w', items ++ more, ran.then rest, NodesRun.cons writes paired all⟩
        | undecodable r e fails deep content =>
            exact ⟨.error e, w₁, [], ran.throws, NodesRun.fails fails deep content⟩

/-! ## The whole input -/

/-- One item for every node but the root, with its own key, level and path, parents first. -/
def PresentsOnce (tree : Tree T) (items : List (FullSetItem T R)) : Prop :=
  ∃ order : List (List String × Tree T), (order.map Prod.fst).Nodup ∧
    (∀ p node, (p, node) ∈ order ↔ p ≠ [] ∧ tree.sub p = some node) ∧
    (∀ before p node after, order = before ++ (p, node) :: after → p.dropLast ≠ [] →
      p.dropLast ∈ before.map Prod.fst) ∧
    ItemsFor order items

/-- No two nodes down to the tree level share a storage key. -/
def StorageKeysApart (tree : Tree T) : Prop :=
  ∀ p node p' node', tree.sub p = some node → tree.sub p' = some node' → p ≠ [] → p' ≠ [] →
    p.length ≤ o.keyLevelNodes → p'.length ≤ o.keyLevelNodes → joinKeys p = joinKeys p' → p = p'

omit [SerializedForm R] in
theorem presentsOnce_presentedNodes (positive : 1 ≤ keyLevelNodes) (wellFormed : tree.wellFormed = true)
    {items : List (FullSetItem T R)} (paired : ItemsFor (presentedNodes keyLevelNodes tree) items) :
    PresentsOnce tree items :=
  ⟨presentedNodes keyLevelNodes tree, (presentedNodes_descending wellFormed).nodup,
    fun _ _ => mem_presentedNodes positive wellFormed,
    fun _ _ _ _ split inner => presentedNodes_parent positive wellFormed split inner, paired⟩

theorem fullTreeSet_runs (minLevelSemaphore : Nat) (wellFormed : tree.wellFormed = true)
    (ordinary : OrdinaryKeys tree) (w : World R) :
    ∃ result w' items, (fullTreeSet (o.withNulls isNull) tree (fun ref => .ok (create ref))
        minLevelSemaphore ttl).RunsTo edit w result w' items ∧
      NodesRun o w (breadthNodes o.keyLevelNodes tree) result items := by
  have members : ∀ node ∈ (listing .fifo [] tree).tail,
      node.1 ≠ [] ∧ node.2.wellFormed = true ∧ OrdinaryKeys node.2 := by
    intro node listed
    obtain ⟨p, sub⟩ := node
    have short : (p, sub) ∈ breadthNodes p.length tree :=
      List.mem_filter.mpr ⟨listed, decide_eq_true (le_refl _)⟩
    obtain ⟨nonempty, found, _⟩ := (mem_breadthNodes wellFormed).mp short
    exact ⟨nonempty, Tree.wellFormed_sub p tree sub wellFormed found, ordinary.sub found⟩
  obtain ⟨result, w', items, ran, run⟩ := fullTreeSetNodes_runs o isNull create edit ttl
    w.clock minLevelSemaphore (listing .fifo [] tree).tail w
    ((listing_fifo_sorted [] tree).sublist (List.tail_sublist _)) members
  refine ⟨result, w', items, ?_, run⟩
  rw [← treePreOrderTraversal_whole] at ran
  exact ran

/-- `fullTreeSet` presents every node once, after its parent, next to the node stored at its path.
Some of the values may be `null`. -/
theorem fullTreeSet_pairs (positive : 1 ≤ o.keyLevelNodes) (tree : Tree T)
    (wellFormed : tree.wellFormed = true) (ordinary : OrdinaryKeys tree) (minLevelSemaphore : Nat)
    (w : World R) :
    let outcome := (fullTreeSet (o.withNulls isNull) tree (fun ref => .ok (create ref))
      minLevelSemaphore ttl).run edit w
    (outcome.result = .ok () → PresentsOnce tree outcome.yielded) ∧
    (∀ e, outcome.result = .error e → ∃ r, o.treeSerializer.deserialize r = .error e) ∧
    (StorageKeysApart o tree → DecodesBelow o w tree → outcome.result = .ok ()) ∧
    ∀ base node, tree.sub base = some node → base.length = o.keyLevelNodes → ∀ w : World R,
      DecodesRoot o (w.read (joinKeys base)) →
        PairsStored o (notNull isNull create) edit base node w
          ((saveFullTreeValue (o.withNulls isNull) (itemAt traversalNow (base, node)) (joinKeys base)
            (fun ref => .ok (create ref)) ttl).run edit w) ∧
        ∀ q label v, label.live w.clock = some (o.encode v) →
          (pairedItem o w.clock w.clock (base ++ q) node label).oldValue = some v := by
  intro outcome
  obtain ⟨result, w', items, ran, run⟩ := fullTreeSet_runs o isNull create edit ttl minLevelSemaphore
    wellFormed ordinary w
  have ended : outcome = ⟨result, w', items⟩ := ran
  rw [ended]
  refine ⟨?_, run.errors, ?_, ?_⟩
  · intro returned
    obtain ⟨seen, _, paired, complete⟩ := run.paired
    rw [complete returned] at paired
    exact presentsOnce_presentedNodes positive wellFormed paired
  · intro apart decodes
    apply run.returns
    · apply (breadthNodes_descending wellFormed).imp_of_mem
      intro a b first second notBelow same
      obtain ⟨nonempty, found, short⟩ := (mem_breadthNodes wellFormed).mp first
      obtain ⟨nonempty', found', short'⟩ := (mem_breadthNodes wellFormed).mp second
      apply notBelow
      rw [apart _ _ _ _ found found' nonempty nonempty' short short' same]
    · intro node listed level
      obtain ⟨_, found, _⟩ := (mem_breadthNodes wellFormed).mp listed
      exact decodes node.1 node.2 found level
  · intro base node found level w decodes
    constructor
    · rw [saveFullTreeValue_withNulls]
      apply saveFullTreeValue_pairs o (notNull isNull create) edit base traversalNow ttl node
        (Tree.wellFormed_sub base tree node wellFormed found) _ _ w decodes
      · exact ordinary.sub found
      · intro none
        rw [none, List.length_nil] at level
        omega
    · intro q label v live
      simp only [pairedItem, live, truthy?, Option.filter_some, o.truthy_value, if_true,
        Option.bind_some]
      exact deserializeValue_encode o v

theorem fullTreeSet_pairs_twoNodes :
    let outcome := (fullTreeSet (Text.options 2).toOptions twoNodes (fun _ => .ok none) 0 none).run
      (unedited : FullSetItem Nat String → Option Nat) datedTree
    outcome.result = .ok () ∧ PresentsOnce twoNodes outcome.yielded := by
  have ordinary : OrdinaryKeys twoNodes := fun q node found key member =>
    (inputTree_twoNodes.plain q node found key member).notInherited
  have apart : StorageKeysApart (Text.options 2) twoNodes := by
    intro p node p' node' found found' nonempty nonempty' _ _ same
    exact joinKeys_injective p p' nonempty nonempty'
      (fun key member => (inputTree_twoNodes.plain p node found key member).colonFree)
      (fun key member => (inputTree_twoNodes.plain p' node' found' key member).colonFree) same
  have decodes : DecodesBelow (Text.options 2) datedTree twoNodes := by
    intro base sub found level
    obtain ⟨rfl, _⟩ := twoNodes_on_treeLevel found level
    exact ⟨_, Text.deserialize_encodeTree 2 (.mk (some (Text.encodeNat 2)) (some 5) none) rfl rfl⟩
  obtain ⟨presents, _, returns, _⟩ := fullTreeSet_pairs (Text.options 2) (fun _ => false)
    (fun _ => none) unedited none 0 (by decide) twoNodes rfl ordinary 0 datedTree
  exact ⟨returns apart decodes, presents (returns apart decodes)⟩

/-- The input `{ "a:b": 0, a: { b: { x: 1 } } }`. -/
def sharedKeyTree : Tree Nat :=
  .mk none none (some
    [("a:b", some (.mk (some 0) none none)),
      ("a", some (.mk none none (some
        [("b", some (.mk none none (some [("x", some (.mk (some 1) none none))])))])))])

/-- The value written under the key of `["a:b"]` is read as the tree of `["a", "b"]`. -/
theorem fullTreeSet_misreads_value :
    let outcome := (fullTreeSet (Text.options 2).toOptions sharedKeyTree (fun _ => .ok none) 0 none).run
      (unedited : FullSetItem Nat String → Option Nat) (World.emptyAt 0)
    sharedKeyTree.wellFormed = true ∧ OrdinaryKeys sharedKeyTree ∧
      DecodesBelow (Text.options 2) (World.emptyAt 0) sharedKeyTree ∧
      outcome.result ≠ .ok () ∧ ¬ PresentsOnce sharedKeyTree outcome.yielded := by
  intro outcome
  refine ⟨by decide, ?_, fun _ _ _ _ => ⟨Tree.empty, rfl⟩, ?_, ?_⟩
  · intro q node found
    have ordinary : ∀ node ∈ listing .fifo [] sharedKeyTree, ∀ key ∈ node.1, key ∉ inheritedNames := by
      decide
    exact ordinary (q, node) ((mem_listing .fifo [] sharedKeyTree rfl q node).mpr ⟨q, rfl, found⟩)
  · intro ended
    have failed : outcome.result.isOk = false := by decide +kernel
    rw [ended] at failed
    cases failed
  · rintro ⟨order, _, members, _, items⟩
    have shallow : ∀ item ∈ outcome.yielded, item.level ≤ 1 := by decide +kernel
    have listed : (["a", "b", "x"], .mk (some 1) none none) ∈ order :=
      (members _ _).mpr ⟨by decide, rfl⟩
    obtain ⟨i, bound, here⟩ := List.getElem_of_mem listed
    have bound' : i < outcome.yielded.length := items.length_eq ▸ bound
    have deep := (items.get bound bound').level
    have level := shallow _ (List.getElem_mem bound')
    rw [List.get_eq_getElem, List.get_eq_getElem, here] at deep
    rw [deep] at level
    exact absurd level (by decide)

end TreeKeyCache
