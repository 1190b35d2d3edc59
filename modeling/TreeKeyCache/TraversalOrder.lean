import TreeKeyCache.Lookup
import TreeKeyCache.Traversal
import TreeKeyCache.Labels
import Mathlib.Data.List.Nodup

/-! # What a pre-order traversal lists

A traversal lists every node of a tree once, with the path to it.  A stack gives the nodes
depth first, a queue level by level. -/
set_option autoImplicit false
namespace TreeKeyCache

variable {R : Type}

/-- The children of a node, with the paths to them. -/
def nextNodes (node : List String × Tree R) : List (List String × Tree R) :=
  node.2.kids.map fun (key, child) => (node.1 ++ [key], child)

theorem nextNodes_heavier (node : List String × Tree R) :
    ((nextNodes node).map fun next => next.2.size).sum < node.2.size := by
  rw [nextNodes, List.map_map, Tree.size_eq node.2]
  change (node.2.kids.map fun found => found.2.size).sum <
    1 + (node.2.kids.map fun found => found.2.size).sum
  omega

theorem mem_nextNodes {node next : List String × Tree R} :
    next ∈ nextNodes node ↔ ∃ key, (key, next.2) ∈ node.2.kids ∧ next.1 = node.1 ++ [key] := by
  rw [nextNodes, List.mem_map]
  constructor
  · intro found
    obtain ⟨⟨key, child⟩, listed, rfl⟩ := found
    exact ⟨key, listed, rfl⟩
  · intro found
    obtain ⟨key, listed, path⟩ := found
    exact ⟨(key, next.2), listed, Prod.ext path.symm rfl⟩

/-- The entry of the worklist for the node at a path. -/
def placedEntry (node : List String × Tree R) : Pending R :=
  ⟨node.2, node.1.length, node.1.getLast?, chainOf node.1.dropLast⟩

/-- The item a traversal yields for the node at a path. -/
def itemAt (now : ℚ) (node : List String × Tree R) : TraversalItem R :=
  ⟨nodeRefOf node.1, getTreeCurrentSerializedValue node.2 now, node.2⟩

theorem placedEntry_node (path : List String) (tree : Tree R) (nonempty : path ≠ []) :
    (placedEntry (path, tree)).node = chainOf path := by
  obtain ⟨front, last, rfl⟩ := exists_append_singleton path nonempty
  rw [placedEntry, Pending.node]
  simp only [List.getLast?_append_of_ne_nil, List.getLast?_singleton, ne_eq, List.cons_ne_self,
    not_false_eq_true, List.dropLast_concat, List.length_append, List.length_singleton]
  rw [chainOf_append_singleton]

theorem placedEntry_item (now : ℚ) (path : List String) (tree : Tree R) (nonempty : path ≠ []) :
    (placedEntry (path, tree)).item now = some (itemAt now (path, tree)) := by
  obtain ⟨front, last, rfl⟩ := exists_append_singleton path nonempty
  rw [placedEntry, Pending.item]
  simp only [List.getLast?_append_of_ne_nil, List.getLast?_singleton, ne_eq, List.cons_ne_self,
    not_false_eq_true, List.dropLast_concat, List.length_append, List.length_singleton,
    Option.map_some]
  rw [createTraversalItem, itemAt, nodeRefOf_append_singleton]

theorem next_of_node (entry : Pending R) (path : List String) (node : entry.node = chainOf path)
    (level : entry.level = path.length) :
    entry.next = (nextNodes (path, entry.treeRef)).map placedEntry := by
  rw [Pending.next_eq, nextNodes, List.map_map]
  apply List.map_congr_left
  intro found _
  obtain ⟨key, child⟩ := found
  rw [node, level, Function.comp_apply, placedEntry]
  simp only [List.getLast?_append_of_ne_nil, List.getLast?_singleton, ne_eq, List.cons_ne_self,
    not_false_eq_true, List.dropLast_concat, List.length_append, List.length_singleton]

/-- The nodes of the tree at `base`, in the order of a traversal. -/
def listing (order : Worklist.Order) (base : List String) (root : Tree R) :
    List (List String × Tree R) :=
  Worklist.visit order nextNodes root.size [(base, root)]

theorem size_pos (tree : Tree R) : 0 < tree.size := by
  rw [tree.size_eq]
  omega

theorem listing_cons (order : Worklist.Order) (base : List String) (root : Tree R) :
    ∃ below, listing order base root = (base, root) :: below ∧
      (∀ node ∈ below, base.length < node.1.length) ∧
      Worklist.visit order Pending.next root.size [startEntry root (chainOf base)] =
        startEntry root (chainOf base) :: below.map placedEntry := by
  obtain ⟨fuel, size⟩ : ∃ fuel, root.size = fuel + 1 := ⟨root.size - 1, by have := size_pos root; omega⟩
  have start : (startEntry root (chainOf base)).next = (nextNodes (base, root)).map placedEntry := by
    apply next_of_node
    · rfl
    · exact chainOf_level base
  have pushed : order.push [] (startEntry root (chainOf base)).next =
      (order.push [] (nextNodes (base, root))).map placedEntry := by
    rw [start]
    cases order with
    | fifo => rfl
    | lifo =>
        rw [Worklist.Order.push, Worklist.Order.push, List.append_nil, List.append_nil,
          List.map_reverse]
  have deeper : ∀ node : List String × Tree R, base.length < node.1.length →
      ∀ next ∈ nextNodes node, base.length < next.1.length := by
    intro node long next listed
    obtain ⟨key, _, path⟩ := mem_nextNodes.mp listed
    rw [path, List.length_append]
    omega
  have first : ∀ node ∈ order.push [] (nextNodes (base, root)), base.length < node.1.length := by
    intro node listed
    rcases (order.mem_push _ _ _).mp listed with old | new
    · cases old
    · obtain ⟨key, _, path⟩ := mem_nextNodes.mp new
      rw [path, List.length_append, List.length_singleton]
      exact Nat.lt_succ_self _
  refine ⟨Worklist.visit order nextNodes fuel (order.push [] (nextNodes (base, root))), ?_, ?_, ?_⟩
  · rw [listing, size, Worklist.visit]
  · exact Worklist.visit_forall order nextNodes _ deeper fuel _ first
  · rw [size, Worklist.visit, pushed]
    congr 1
    apply Worklist.visit_map order nextNodes Pending.next placedEntry
      (fun node => base.length < node.1.length) deeper _ fuel _ first
    intro node long
    have nonempty : node.1 ≠ [] := by
      intro none
      rw [none, List.length_nil] at long
      omega
    exact next_of_node (placedEntry node) node.1 (placedEntry_node node.1 node.2 nonempty) rfl

theorem filterMap_item (now : ℚ) : ∀ nodes : List (List String × Tree R),
    (∀ node ∈ nodes, node.1 ≠ []) →
      (nodes.map placedEntry).filterMap (Pending.item now) = nodes.map (itemAt now) := by
  intro nodes
  induction nodes with
  | nil => exact fun _ => rfl
  | cons node nodes ih =>
      intro nonempty
      rw [List.map_cons, List.filterMap_cons,
        placedEntry_item now node.1 node.2 (nonempty node List.mem_cons_self), List.map_cons,
        ih fun other member => nonempty other (List.mem_cons_of_mem _ member)]

theorem treePreOrderTraversal_below (order : Worklist.Order) (now : ℚ) (base : List String)
    (root : Tree R) (nonempty : base ≠ []) :
    treePreOrderTraversal order now root (some (nodeRefOf base)) =
      (listing order base root).map (itemAt now) := by
  obtain ⟨below, listed, long, visited⟩ := listing_cons order base root
  have ref : ChainedObject.ofParent (nodeRefOf base).key (nodeRefOf base).level
      (nodeRefOf base).parentRef = nodeRefOf base := by
    cases nodeRefOf base <;> rfl
  rw [treePreOrderTraversal, ← chainOf_eq_some base nonempty, visited, List.filterMap_cons,
    chainOf_eq_some base nonempty, listed, List.map_cons, filterMap_item now below]
  · simp only [Option.map_some, Option.toList_some, List.singleton_append]
    rw [createTraversalItem, ref]
    rfl
  · intro node member none
    have longer := long node member
    rw [none, List.length_nil] at longer
    omega

/-- A traversal of a whole tree does not list the root. -/
theorem treePreOrderTraversal_whole (order : Worklist.Order) (now : ℚ) (root : Tree R) :
    treePreOrderTraversal order now root none =
      (listing order [] root).tail.map (itemAt now) := by
  obtain ⟨below, listed, long, visited⟩ := listing_cons order [] root
  rw [treePreOrderTraversal]
  change _ ++ (Worklist.visit order Pending.next root.size
    [startEntry root (chainOf [])]).filterMap _ = _
  rw [visited, List.filterMap_cons, listed, List.tail_cons, filterMap_item now below]
  · rfl
  · intro node member none
    have longer := long node member
    rw [none, List.length_nil] at longer
    omega

/-! ## Every node once -/

theorem listing_lifo (base : List String) (root : Tree R) :
    listing .lifo base root = Worklist.depthFirst nextNodes root.size (base, root) := by
  rw [listing, Worklist.visit_lifo_eq nextNodes (fun node => node.2.size) nextNodes_heavier root.size,
    List.flatMap_singleton]
  · rw [List.map_singleton, List.sum_singleton]
  · intro node listed
    rw [List.mem_singleton.mp listed]

theorem listing_perm (order : Worklist.Order) (base : List String) (root : Tree R) :
    (listing order base root).Perm (Worklist.depthFirst nextNodes root.size (base, root)) := by
  have perm := Worklist.visit_perm nextNodes (fun node => node.2.size) nextNodes_heavier order
    root.size root.size [(base, root)] (by rw [List.map_singleton, List.sum_singleton])
    (fun node listed => by rw [List.mem_singleton.mp listed])
  rw [List.flatMap_singleton] at perm
  exact perm

theorem listing_fifo_sorted (base : List String) (root : Tree R) :
    (listing .fifo base root).Pairwise fun a b => a.1.length ≤ b.1.length := by
  apply Worklist.visit_fifo_sorted nextNodes fun node => node.1.length
  · intro node next listed
    obtain ⟨key, _, path⟩ := mem_nextNodes.mp listed
    rw [path, List.length_append, List.length_singleton]
  · exact List.pairwise_singleton _ _

theorem mem_kids_iff {tree child : Tree R} {key : String} (wellFormed : tree.wellFormed = true) :
    (key, child) ∈ tree.kids ↔ tree.child key = some child := by
  rw [Tree.child_eq_lookup, Tree.kids, List.mem_filterMap]
  have unique : Entries.Unique (tree.children.getD []) := by
    cases children : tree.children with
    | none => exact List.nodup_nil
    | some entries => exact ((Tree.wellFormed_iff tree).mp wellFormed entries children).1
  constructor
  · intro found
    obtain ⟨⟨key', value⟩, listed, mapped⟩ := found
    obtain ⟨tree', rfl, same⟩ := Option.map_eq_some_iff.mp mapped
    obtain ⟨rfl, rfl⟩ := Prod.mk.inj same
    rw [Entries.lookup_of_mem key' (some tree') _ unique listed]
    rfl
  · intro found
    have joined := Option.join_eq_some_iff.mp found
    exact ⟨(key, some child), Entries.mem_of_lookup key (some child) _ joined, rfl⟩

theorem wellFormed_kid {tree child : Tree R} {key : String} (wellFormed : tree.wellFormed = true)
    (listed : (key, child) ∈ tree.kids) : child.wellFormed = true :=
  tree.wellFormed_child child key wellFormed ((mem_kids_iff wellFormed).mp listed)

theorem size_kid {tree child : Tree R} {key : String} (listed : (key, child) ∈ tree.kids) :
    child.size < tree.size :=
  Worklist.weight_lt_of_mem_next nextNodes (fun node => node.2.size) nextNodes_heavier
    (a := ([], tree)) (b := ([key], child)) (mem_nextNodes.mpr ⟨key, listed, rfl⟩)

/-- What is listed below a node are the nodes of its tree. -/
theorem mem_depthFirst : ∀ (depth : Nat) (base : List String) (root : Tree R),
    root.size ≤ depth → root.wellFormed = true → ∀ (path : List String) (tree : Tree R),
      ((path, tree) ∈ Worklist.depthFirst nextNodes depth (base, root) ↔
        ∃ q, path = base ++ q ∧ root.sub q = some tree) := by
  intro depth
  induction depth with
  | zero =>
      intro base root enough
      have positive := size_pos root
      omega
  | succ depth ih =>
      intro base root enough wellFormed path tree
      rw [Worklist.depthFirst, List.mem_cons, List.mem_flatMap]
      constructor
      · intro listed
        rcases listed with same | ⟨⟨path', child⟩, next, below⟩
        · obtain ⟨rfl, rfl⟩ := Prod.mk.inj same
          exact ⟨[], (List.append_nil _).symm, rfl⟩
        · obtain ⟨key, kid, rfl⟩ := mem_nextNodes.mp (List.mem_reverse.mp next)
          have smaller : child.size < root.size := size_kid kid
          obtain ⟨q, rfl, found⟩ := (ih (base ++ [key]) child (by omega)
            (wellFormed_kid wellFormed kid) path tree).mp below
          refine ⟨key :: q, by rw [List.append_assoc, List.singleton_append], ?_⟩
          rw [Tree.sub_cons, (mem_kids_iff wellFormed).mp kid]
          exact found
      · intro found
        obtain ⟨q, rfl, found⟩ := found
        cases q with
        | nil =>
            obtain rfl := Option.some.inj found
            exact Or.inl (Prod.ext (List.append_nil _) rfl)
        | cons key q =>
            rw [Tree.sub_cons, Option.bind_eq_some_iff] at found
            obtain ⟨child, listed, found⟩ := found
            have kid := (mem_kids_iff wellFormed).mpr listed
            have smaller := size_kid kid
            refine Or.inr ⟨(base ++ [key], child), List.mem_reverse.mpr (mem_nextNodes.mpr
              ⟨key, kid, rfl⟩), ?_⟩
            apply (ih (base ++ [key]) child (by omega) (wellFormed_kid wellFormed kid) _ tree).mpr
            exact ⟨q, by rw [List.append_assoc, List.singleton_append], found⟩

theorem kids_keys_nodup {tree : Tree R} (wellFormed : tree.wellFormed = true) :
    (tree.kids.map Prod.fst).Nodup := by
  have unique : Entries.Unique (tree.children.getD []) := by
    cases children : tree.children with
    | none => exact List.nodup_nil
    | some entries => exact ((Tree.wellFormed_iff tree).mp wellFormed entries children).1
  have sublist : (tree.kids.map Prod.fst).Sublist ((tree.children.getD []).map Prod.fst) := by
    rw [Tree.kids, List.map_filterMap]
    generalize tree.children.getD [] = entries
    induction entries with
    | nil => exact .slnil
    | cons entry entries ih =>
        obtain ⟨key, child⟩ := entry
        cases child with
        | none => exact ih.cons key
        | some child => exact ih.cons_cons key
  exact sublist.nodup unique

theorem depthFirst_nodup : ∀ (depth : Nat) (base : List String) (root : Tree R),
    root.size ≤ depth → root.wellFormed = true →
      ((Worklist.depthFirst nextNodes depth (base, root)).map Prod.fst).Nodup := by
  intro depth
  induction depth with
  | zero =>
      intro base root enough
      have positive := size_pos root
      omega
  | succ depth ih =>
      intro base root enough wellFormed
      have below : ∀ key child, (key, child) ∈ root.kids → ∀ path,
          path ∈ (Worklist.depthFirst nextNodes depth (base ++ [key], child)).map Prod.fst →
            ∃ q, path = base ++ key :: q := by
        intro key child kid path listed
        obtain ⟨⟨path', tree⟩, member, rfl⟩ := List.mem_map.mp listed
        have smaller := size_kid kid
        obtain ⟨q, same, _⟩ := (mem_depthFirst depth (base ++ [key]) child (by omega)
          (wellFormed_kid wellFormed kid) path' tree).mp member
        exact ⟨q, by rw [same, List.append_assoc, List.singleton_append]⟩
      have children : (nextNodes (base, root)).reverse.flatMap
          (fun next => (Worklist.depthFirst nextNodes depth next).map Prod.fst) =
          root.kids.reverse.flatMap fun kid =>
            (Worklist.depthFirst nextNodes depth (base ++ [kid.1], kid.2)).map Prod.fst := by
        rw [nextNodes, ← List.map_reverse, List.flatMap_map]
      rw [Worklist.depthFirst, List.map_cons, List.nodup_cons, List.map_flatMap, children]
      constructor
      · intro listed
        obtain ⟨⟨key, child⟩, kid, member⟩ := List.mem_flatMap.mp listed
        obtain ⟨q, same⟩ := below key child (List.mem_reverse.mp kid) base member
        have lengths := congrArg List.length same
        rw [List.length_append, List.length_cons] at lengths
        omega
      · rw [List.nodup_flatMap]
        constructor
        · intro kid listed
          have kidListed : (kid.1, kid.2) ∈ root.kids := List.mem_reverse.mp listed
          have smaller := size_kid kidListed
          exact ih _ _ (by omega) (wellFormed_kid wellFormed kidListed)
        · have distinct : root.kids.reverse.Pairwise fun a b => a.1 ≠ b.1 := by
            rw [← List.pairwise_map (f := Prod.fst) (R := (· ≠ ·)), List.map_reverse]
            exact (List.nodup_reverse.mpr (kids_keys_nodup wellFormed))
          apply distinct.imp_of_mem
          intro first second firstListed secondListed apart path inFirst inSecond
          obtain ⟨q, same⟩ := below first.1 first.2 (List.mem_reverse.mp firstListed) path inFirst
          obtain ⟨q', same'⟩ := below second.1 second.2 (List.mem_reverse.mp secondListed) path inSecond
          rw [same] at same'
          exact apart (List.cons.inj (List.append_cancel_left same')).1

/-- The nodes listed below `base`, in either order, are the nodes of the tree, each once. -/
theorem mem_listing (order : Worklist.Order) (base : List String) (root : Tree R)
    (wellFormed : root.wellFormed = true) (path : List String) (tree : Tree R) :
    (path, tree) ∈ listing order base root ↔ ∃ q, path = base ++ q ∧ root.sub q = some tree := by
  rw [(listing_perm order base root).mem_iff]
  exact mem_depthFirst root.size base root (le_refl _) wellFormed path tree

theorem listing_nodup (order : Worklist.Order) (base : List String) (root : Tree R)
    (wellFormed : root.wellFormed = true) : ((listing order base root).map Prod.fst).Nodup :=
  ((listing_perm order base root).map Prod.fst).nodup_iff.mpr
    (depthFirst_nodup root.size base root (le_refl _) wellFormed)

theorem mem_listing_tail (order : Worklist.Order) {root : Tree R} (wellFormed : root.wellFormed = true)
    {p : List String} {node : Tree R} :
    (p, node) ∈ (listing order [] root).tail ↔ p ≠ [] ∧ root.sub p = some node := by
  obtain ⟨below, listed, long, _⟩ := listing_cons order [] root
  have all := mem_listing order [] root wellFormed p node
  rw [listed, List.tail_cons]
  rw [listed, List.mem_cons] at all
  constructor
  · intro member
    obtain ⟨q, rfl, found⟩ := all.mp (Or.inr member)
    refine ⟨?_, found⟩
    intro none
    have longer := long _ member
    rw [none] at longer
    exact Nat.lt_irrefl _ longer
  · intro both
    obtain ⟨notRoot, found⟩ := both
    rcases all.mpr ⟨p, rfl, found⟩ with root | later
    · exact absurd (Prod.mk.inj root).1 notRoot
    · exact later

end TreeKeyCache
