import TreeKeyCache.SavedTrees

/-! # What `fullTreeSet` leaves in the storage

Run alone and consumed without edits, `fullTreeSet` treats one storage key for each node of
its input down to the tree level, and each of these keys once. -/
set_option autoImplicit false
namespace TreeKeyCache

open Prog

variable {T R : Type} [SerializedForm R] (o : LawfulOptions T R) (create : ChainedObject → Option T)
  (seconds : Option ℚ)

def expiryAfter (w : World R) (key : String) (rule : TtlRule) : Option ℚ :=
  (rule.ttl (w.currentTtl key)).map fun s => w.clock + s * 1000

omit [SerializedForm R] in
theorem expiryAfter_ttl (w : World R) (key : String) (s : ℚ) :
    ∃ m, s ≤ m ∧ expiryAfter w key (ttlRule (some s)) = some (w.clock + m * 1000) ∧
      ∀ current, w.currentTtl key = some current → m = max current s := by
  obtain ⟨m, ttl, longer, same⟩ := TtlRule.exists_atLeast s (w.currentTtl key)
  refine ⟨m, longer, ?_, same⟩
  rw [expiryAfter, ttlRule, ttl, Option.map_some]

/-- What becomes of the entry of a node above the tree level. -/
def KeySaved (w w' : World R) (p : List String) (v : T) : Prop :=
  w'.store (joinKeys p) =
    if differs (w.read (joinKeys p)) (o.encode v) then
      some ⟨o.encode v, expiryAfter w (joinKeys p) (.exactly seconds)⟩
    else w.store (joinKeys p)

/-- The nodes at or below a path that are to hold something else than they do. -/
def Changing (w : World R) (base : List String) (tree : Tree T) : Prop :=
  ∃ q node v, tree.sub q = some node ∧ Valued node v ∧
    ChangesTo o w.clock v ((rootTree o (w.read (joinKeys base))).slot q)

def Counting (w : World R) (base : List String) (tree : Tree T) : Prop :=
  ∃ q node v, tree.sub q = some node ∧ Valued node v ∧
    CountsAsChanged o create w.clock (base ++ q) v ((rootTree o (w.read (joinKeys base))).slot q)

structure Persisted (w : World R) (base : List String) (tree : Tree T) (after : Tree R)
    (ttl : Option ℚ) : Prop where
  wellFormed : after.wellFormed = true
  saved : ∀ q node v, tree.sub q = some node → Valued node v →
    after.labelAt q = savedLabel o w.clock v ((rootTree o (w.read (joinKeys base))).labelAt q)
  kept : ∀ q, tree.sub q = none → after.labelAt q = (rootTree o (w.read (joinKeys base))).labelAt q
  timed : Counting o create w base tree → ttl = seconds
  untimed : ¬ Counting o create w base tree → ttl = none

/-- What becomes of the entry of a node on the tree level. -/
def TreeSaved (w w' : World R) (base : List String) (tree : Tree T) : Prop :=
  (¬ Changing o w base tree ∧ w'.store (joinKeys base) = w.store (joinKeys base)) ∨
    (Changing o w base tree ∧ ∃ after ttl, Persisted o create seconds w base tree after ttl ∧
      w'.store (joinKeys base) =
        some ⟨o.encodeTree after, expiryAfter w (joinKeys base) (ttlRule ttl)⟩)

/-! ## One key -/

omit [SerializedForm R] in
theorem registerChildren_ends {Y : Type} (edit : Y → Option T) (key : String) :
    ∀ (entries : TreeChildren T) (w : World R), ∃ registry,
      (registerChildren key entries : Prog Y T R Unit).Wp (alone edit)
        (Ends { w with registry := registry } (.ok ())) w := by
  intro entries
  induction entries with
  | nil => exact fun w => ⟨w.registry, rfl, rfl⟩
  | cons entry entries ih =>
      intro w
      obtain ⟨child, value⟩ := entry
      obtain ⟨registry, ended⟩ := ih (w.register (some key) child)
      exact ⟨registry, Ends.then (storageRegister_ends w (some key) child) ended⟩

structure Writes (key : String) (w w' : World R) : Prop where
  clock : w'.clock = w.clock
  others : ∀ other, other ≠ key → w'.store other = w.store other

omit [SerializedForm R] in
theorem writeRule_writes (w : World R) (key : String) (written : Option (R × TtlRule)) :
    Writes key w (w.writeRule key written) := by
  unfold World.writeRule
  cases written with
  | none => exact ⟨rfl, fun _ _ => rfl⟩
  | some pair => exact ⟨rfl, fun other apart => Function.update_of_ne apart _ _⟩

theorem saveKeyLevelValue_ends (traversalNow : ℚ) (p : List String) (tree : Tree T) (v : T)
    (valued : Valued tree v) (w : World R) :
    ∃ w', (saveKeyLevelValue o.toOptions (itemAt traversalNow (p, tree)) (joinKeys p)
        (fun ref => .ok (create ref)) (secondsTtl seconds)).Wp (alone unedited) (Ends w' (.ok ())) w ∧
      Writes (joinKeys p) w w' ∧ KeySaved o seconds w w' p v := by
  obtain ⟨registry, registered⟩ := registerChildren_ends (R := R)
    (unedited : FullSetItem T R → Option T) (joinKeys p) (tree.children.getD []) w
  let w₁ : World R := { w with registry := registry }
  let old := present o.toOptions (some create) (nodeRefOf p) (w.read (joinKeys p))
  let step : Step T := { old with value := some v }
  have made : getStep o.toOptions (w₁.read (joinKeys p)) (nodeRefOf p)
      (some fun ref => .ok (create ref)) = .ok old := getStep_pureCreate o.toOptions (some create) _ _
  have written : stepWrites o (secondsTtl seconds) step (w.read (joinKeys p)) =
      if differs (w.read (joinKeys p)) (o.encode v) then some (o.encode v, .exactly seconds)
      else none := by
    rw [stepWrites]
    cases seconds <;> rfl
  have persisted := persistStep_alone o (secondsTtl seconds)
    (fun item : FullSetItem T R => .ok (unedited item)) step (w.read (joinKeys p)) (joinKeys p) w₁
  have writes := writeRule_writes w₁ (joinKeys p)
    (stepWrites o (secondsTtl seconds) step (w.read (joinKeys p)))
  refine ⟨w₁.writeRule (joinKeys p) (stepWrites o (secondsTtl seconds) step (w.read (joinKeys p))),
    ?_, ⟨writes.clock, writes.others⟩, ?_⟩
  · unfold saveKeyLevelValue registerKeyLevelChildren
    refine Ends.then registered ?_
    refine Ends.then (storageGet_ends w₁ _) ?_
    simp only [itemAt, made, Prog.ret_ok_bind, valued.current traversalNow, o.given_eq]
    exact Ends.then (yieldItem_ends w₁ _) persisted
  · rw [written, KeySaved]
    unfold World.writeRule
    by_cases changes : differs (w.read (joinKeys p)) (o.encode v) = true
    · rw [if_pos changes, if_pos changes]
      exact Function.update_self _ _ _
    · rw [if_neg changes, if_neg changes]

theorem SavedAll.changing_iff {w : World R} {base : List String} {tree : Tree T} {before st : Saving R}
    (saved : SavedAll o create base w.clock seconds (listing .lifo base tree)
      (rootTree o (w.read (joinKeys base))).slot before st)
    (wellFormed : tree.wellFormed = true) (unchanged : before.changed = false) :
    st.changed = true ↔ Changing o w base tree := by
  have listed := mem_listing .lifo base tree wellFormed
  rw [saved.changed, unchanged]
  constructor
  · intro either
    rcases either with before | ⟨p, node, v, member, valued, changes⟩
    · cases before
    · obtain ⟨q, rfl, found⟩ := (listed p node).mp member
      rw [List.drop_left] at changes
      exact ⟨q, node, v, found, valued, changes⟩
  · intro found
    obtain ⟨q, node, v, found, valued, changes⟩ := found
    refine Or.inr ⟨base ++ q, node, v, (listed _ _).mpr ⟨q, rfl, found⟩, valued, ?_⟩
    rw [List.drop_left]
    exact changes

theorem SavedAll.persisted {w : World R} {base : List String} {tree : Tree T} {before st : Saving R}
    (saved : SavedAll o create base w.clock seconds (listing .lifo base tree)
      (rootTree o (w.read (joinKeys base))).slot before st)
    (wellFormed : tree.wellFormed = true) (untimed : before.maxTtl = none) :
    Persisted o create seconds w base tree (st.memory none) st.maxTtl := by
  have listed := mem_listing .lifo base tree wellFormed
  refine ⟨saved.wellFormed, ?_, ?_, ?_, ?_⟩
  · intro q node v found valued
    have slot := saved.saved (base ++ q) node v ((listed _ _).mpr ⟨q, rfl, found⟩) valued
    rw [List.drop_left] at slot
    rw [Tree.labelAt_eq_slot, slot, Option.getD_some]
    rfl
  · intro q absent
    rw [Tree.labelAt_eq_slot, saved.kept q, ← Tree.labelAt_eq_slot]
    intro node member same
    obtain ⟨q', path, found⟩ := (listed node.1 node.2).mp member
    rw [path, List.drop_left] at same
    rw [same, absent] at found
    cases found
  · intro counting
    obtain ⟨q, node, v, found, valued, counts⟩ := counting
    refine saved.timed ⟨base ++ q, node, v, (listed _ _).mpr ⟨q, rfl, found⟩, valued, ?_⟩
    rw [List.drop_left]
    exact counts
  · intro quiet
    rw [← untimed]
    apply saved.untimed
    intro p node v member valued counts
    obtain ⟨q, rfl, found⟩ := (listed p node).mp member
    rw [List.drop_left] at counts
    exact quiet ⟨q, node, v, found, valued, counts⟩

theorem saveFullTreeValue_ends (positive : ∀ s, seconds = some s → 0 < s) (traversalNow : ℚ)
    (base : List String) (nonempty : base ≠ []) (tree : Tree T) (input : Input tree) (v : T)
    (valued : Valued tree v) (w : World R) (decodes : DecodesRoot o (w.read (joinKeys base))) :
    ∃ w', (saveFullTreeValue o.toOptions (itemAt traversalNow (base, tree)) (joinKeys base)
        (fun ref => .ok (create ref)) (secondsTtl seconds)).Wp (alone unedited) (Ends w' (.ok ())) w ∧
      Writes (joinKeys base) w w' ∧ TreeSaved o create seconds w w' base tree := by
  obtain ⟨st, ended, saved⟩ := saveItems_listing o create base w.clock seconds positive w.clock tree
    input v valued nonempty (rootTree o (w.read (joinKeys base))) (rootTree_wellFormed o _) w
  have level : (nodeRefOf base).level = base.length := nodeRefOf_level base nonempty
  have items : treePreOrderDepthFirstSearch w.clock tree (some (nodeRefOf base)) =
      (listing .lifo base tree).map (itemAt w.clock) :=
    treePreOrderTraversal_below .lifo w.clock base tree nonempty
  have changing := saved.changing_iff o create seconds input.wellFormed rfl
  have persisted := saved.persisted o create seconds input.wellFormed rfl
  have nonzero : ∀ t, st.maxTtl = some t → t ≠ 0 := by
    intro t found
    by_cases counting : Counting o create w base tree
    · rw [persisted.timed counting] at found
      exact ne_of_gt (positive t found)
    · rw [persisted.untimed counting] at found
      cases found
  have write := persistTree_alone o (unedited : FullSetItem T R → Option T) (joinKeys base) st.maxTtl
    (st.memory none) nonzero w
  have loop : ∀ post : World R → Except Err Unit → Prop,
      (if st.changed then persistTree o.toOptions (joinKeys base) st.maxTtl (st.memory none)
        else pure () : Prog (FullSetItem T R) T R Unit).Wp (alone unedited) post w →
      (saveFullTreeValue o.toOptions (itemAt traversalNow (base, tree)) (joinKeys base)
        (fun ref => .ok (create ref)) (secondsTtl seconds)).Wp (alone unedited) post w := by
    intro post last
    unfold saveFullTreeValue
    intro now after answered
    obtain ⟨rfl, rfl⟩ := answered
    refine Ends.then (p := storageGet (joinKeys base)) (storageGet_ends after _) ?_
    rw [DecodesRoot.eq o decodes, itemAt]
    simp only [Prog.ret_ok_bind, level]
    intro now again answered
    obtain ⟨rfl, rfl⟩ := answered
    rw [← items] at ended
    exact Ends.then (p := saveItems _ _ _ _ _ _ _) ended last
  by_cases changes : st.changed = true
  · refine ⟨w.writeRule (joinKeys base) (some (o.encodeTree (st.memory none), ttlRule st.maxTtl)), ?_,
      writeRule_writes w _ _, Or.inr ⟨changing.mp changes, _, _, persisted, ?_⟩⟩
    · apply loop
      rw [if_pos changes]
      exact write
    · exact Function.update_self _ _ _
  · refine ⟨w, ?_, ⟨rfl, fun _ _ => rfl⟩, Or.inl ⟨fun found => changes (changing.mpr found), rfl⟩⟩
    apply loop
    rw [if_neg changes]
    exact ⟨rfl, rfl⟩

/-! ## All keys -/

/-- What becomes of the entry of a node down to the tree level. -/
structure NodeSaved (w w' : World R) (p : List String) (tree : Tree T) : Prop where
  above : p.length < o.keyLevelNodes → ∀ v, Valued tree v → KeySaved o seconds w w' p v
  tree : p.length = o.keyLevelNodes → TreeSaved o create seconds w w' p tree

theorem NodeSaved.congr {w w' u u' : World R} {p : List String} {tree : Tree T}
    (saved : NodeSaved o create seconds w w' p tree)
    (before : u.store (joinKeys p) = w.store (joinKeys p)) (clock : u.clock = w.clock)
    (after : u'.store (joinKeys p) = w'.store (joinKeys p)) :
    NodeSaved o create seconds u u' p tree := by
  have read := World.read_congr u w (joinKeys p) before clock
  have ttl := World.currentTtl_congr u w (joinKeys p) before clock
  have expiry : ∀ rule, expiryAfter u (joinKeys p) rule = expiryAfter w (joinKeys p) rule := by
    intro rule
    rw [expiryAfter, expiryAfter, ttl, clock]
  constructor
  · intro short v valued
    have kept := saved.above short v valued
    rw [KeySaved] at kept ⊢
    rw [after, kept, read, expiry, before]
  · intro level
    have changing : Changing o u p tree ↔ Changing o w p tree := by
      rw [Changing, Changing, read, clock]
    have counting : Counting o create u p tree ↔ Counting o create w p tree := by
      rw [Counting, Counting, read, clock]
    rcases saved.tree level with ⟨same, kept⟩ | ⟨changes, saving, ttl', persisted, stored⟩
    · exact Or.inl ⟨fun found => same (changing.mp found), by rw [after, kept, before]⟩
    · refine Or.inr ⟨changing.mpr changes, saving, ttl', ⟨persisted.wellFormed, ?_, ?_, ?_, ?_⟩, ?_⟩
      · rw [read, clock]
        exact persisted.saved
      · rw [read]
        exact persisted.kept
      · exact fun found => persisted.timed (counting.mp found)
      · exact fun quiet => persisted.untimed fun found => quiet (counting.mpr found)
      · rw [after, stored, expiry]

/-- A node of the input, as `fullTreeSet` meets it. -/
structure InputNode (p : List String) (tree : Tree T) : Prop where
  nonempty : p ≠ []
  colonFree : ∀ key ∈ p, ColonFree key
  input : Input tree
  valued : ∃ v, Valued tree v

theorem fullTreeSetNode_ends (positive : ∀ s, seconds = some s → 0 < s) (traversalNow : ℚ)
    (minLevelSemaphore : Nat) (p : List String) (tree : Tree T) (node : InputNode p tree) (w : World R)
    (decodes : p.length = o.keyLevelNodes → DecodesRoot o (w.read (joinKeys p))) :
    ∃ w', (fullTreeSetNode o.toOptions (fun ref => .ok (create ref)) minLevelSemaphore
        (secondsTtl seconds) (itemAt traversalNow (p, tree))).Wp (alone unedited) (Ends w' (.ok ())) w ∧
      Writes (joinKeys p) w w' ∧ NodeSaved o create seconds w w' p tree := by
  obtain ⟨v, valued⟩ := node.valued
  have key : buildKey (itemAt traversalNow (p, tree)).ref = joinKeys p :=
    buildKey_nodeRefOf p node.nonempty
  have level : (itemAt traversalNow (p, tree)).ref.level = p.length :=
    nodeRefOf_level p node.nonempty
  unfold fullTreeSetNode
  rw [key, level]
  by_cases deep : p.length = o.keyLevelNodes
  · obtain ⟨w', ended, writes, saved⟩ := saveFullTreeValue_ends o create seconds positive traversalNow
      p node.nonempty tree node.input v valued w (decodes deep)
    refine ⟨w', ?_, writes, fun above => absurd deep (by omega), fun _ => saved⟩
    simp only [if_pos deep]
    exact lockedSection_alone _ _ ended
  · obtain ⟨w', ended, writes, saved⟩ := saveKeyLevelValue_ends o create seconds traversalNow p tree v
      valued w
    refine ⟨w', ?_, writes, fun _ v' valued' => ?_, fun level => absurd level deep⟩
    · simp only [if_neg deep]
      exact lockedSection_alone _ _ ended
    · obtain rfl : v' = v := Option.some.inj (valued'.1.symm.trans valued.1)
      exact saved

theorem fullTreeSetNodes_ends (positive : ∀ s, seconds = some s → 0 < s) (traversalNow : ℚ)
    (minLevelSemaphore : Nat) : ∀ (nodes : List (List String × Tree T)) (w : World R),
      nodes.Pairwise (fun a b => a.1.length ≤ b.1.length) → (nodes.map Prod.fst).Nodup →
      (∀ node ∈ nodes, InputNode node.1 node.2) →
      (∀ node ∈ nodes, node.1.length = o.keyLevelNodes → DecodesRoot o (w.read (joinKeys node.1))) →
        ∃ w', (fullTreeSetNodes o.toOptions (fun ref => .ok (create ref)) minLevelSemaphore
            (secondsTtl seconds) (nodes.map (itemAt traversalNow))).Wp (alone unedited)
              (Ends w' (.ok ())) w ∧
          w'.clock = w.clock ∧
          (∀ key, (∀ node ∈ nodes, node.1.length ≤ o.keyLevelNodes → joinKeys node.1 ≠ key) →
            w'.store key = w.store key) ∧
          ∀ node ∈ nodes, node.1.length ≤ o.keyLevelNodes →
            NodeSaved o create seconds w w' node.1 node.2 := by
  intro nodes
  induction nodes with
  | nil =>
      intro w _ _ _ _
      exact ⟨w, ⟨rfl, rfl⟩, rfl, fun _ _ => rfl, fun _ listed => (nomatch listed)⟩
  | cons node nodes ih =>
      intro w sorted distinct inputs decodes
      obtain ⟨p, tree⟩ := node
      have inputHere := inputs (p, tree) List.mem_cons_self
      have level : (itemAt traversalNow (p, tree)).ref.level = p.length :=
        nodeRefOf_level p inputHere.nonempty
      rw [List.pairwise_cons] at sorted
      rw [List.map_cons, List.nodup_cons] at distinct
      rw [List.map_cons, fullTreeSetNodes, level]
      by_cases below : o.keyLevelNodes < p.length
      · rw [if_pos below]
        have none : ∀ node ∈ (p, tree) :: nodes, ¬ node.1.length ≤ o.keyLevelNodes := by
          intro node listed
          rcases List.mem_cons.mp listed with rfl | later
          · exact Nat.not_le_of_lt below
          · have longer := sorted.1 node later
            change p.length ≤ node.1.length at longer
            omega
        exact ⟨w, ⟨rfl, rfl⟩, rfl, fun _ _ => rfl,
          fun node listed short => absurd short (none node listed)⟩
      · rw [if_neg below]
        obtain ⟨w₁, ended, writes, saved⟩ := fullTreeSetNode_ends o create seconds positive
          traversalNow minLevelSemaphore p tree inputHere w
          (decodes (p, tree) List.mem_cons_self)
        have apart : ∀ node ∈ nodes, joinKeys node.1 ≠ joinKeys p := by
          intro node listed same
          have inputThere := inputs node (List.mem_cons_of_mem _ listed)
          have paths := joinKeys_injective node.1 p inputThere.nonempty inputHere.nonempty
            inputThere.colonFree inputHere.colonFree same
          exact distinct.1 (List.mem_map.mpr ⟨node, listed, paths⟩)
        have untouched : ∀ node ∈ nodes, w₁.store (joinKeys node.1) = w.store (joinKeys node.1) :=
          fun node listed => writes.others _ (apart node listed)
        obtain ⟨w', rest, clock, others, savedRest⟩ := ih w₁ sorted.2 distinct.2
          (fun node listed => inputs node (List.mem_cons_of_mem _ listed)) (by
            intro node listed tree
            rw [World.read_congr w₁ w _ (untouched node listed) writes.clock]
            exact decodes node (List.mem_cons_of_mem _ listed) tree)
        refine ⟨w', Ends.then ended rest, clock.trans writes.clock, ?_, ?_⟩
        · intro key free
          rw [others key fun node listed => free node (List.mem_cons_of_mem _ listed),
            writes.others key]
          exact Ne.symm (free (p, tree) List.mem_cons_self (Nat.not_lt.mp below))
        · intro node listed short
          rcases List.mem_cons.mp listed with rfl | later
          · apply saved.congr o create seconds rfl rfl
            exact others _ fun other member _ => apart other member
          · exact (savedRest node later short).congr o create seconds (untouched node later).symm
              writes.clock.symm rfl

/-- An input of `fullTreeSet`: every node but the root has a value and no deadline, and is
reached by plain keys. -/
structure InputTree (tree : Tree T) : Prop where
  wellFormed : tree.wellFormed = true
  valued : ∀ p node, tree.sub p = some node → p ≠ [] → ∃ v, Valued node v
  plain : ∀ p node, tree.sub p = some node → PlainPath p

omit [SerializedForm R] in
theorem InputTree.node {tree : Tree T} (input : InputTree tree) {p : List String} {node : Tree T}
    (found : tree.sub p = some node) (nonempty : p ≠ []) : InputNode p node := by
  have below : ∀ q lower, node.sub q = some lower → tree.sub (p ++ q) = some lower := by
    intro q lower there
    rw [Tree.sub_append, found]
    exact there
  refine ⟨nonempty, fun key member => (input.plain p node found key member).colonFree, ⟨?_, ?_, ?_⟩,
    input.valued p node found nonempty⟩
  · exact Tree.wellFormed_sub p tree node input.wellFormed found
  · intro q lower there notHere
    exact input.valued _ _ (below q lower there) (List.append_ne_nil_of_right_ne_nil _ notHere)
  · intro q lower there key member
    exact (input.plain _ _ (below q lower there) key (List.mem_append_right _ member)).notInherited

def DecodesBelow (w : World R) (tree : Tree T) : Prop :=
  ∀ p node, tree.sub p = some node → p.length = o.keyLevelNodes → DecodesRoot o (w.read (joinKeys p))

theorem fullTreeSet_ends (positive : ∀ s, seconds = some s → 0 < s) (minLevelSemaphore : Nat)
    (tree : Tree T) (input : InputTree tree) (w : World R) (decodes : DecodesBelow o w tree) :
    ∃ w', (fullTreeSet o.toOptions tree (fun ref => .ok (create ref)) minLevelSemaphore
        (secondsTtl seconds)).Wp (alone unedited) (Ends w' (.ok ())) w ∧
      w'.clock = w.clock ∧
      (∀ key, (∀ p node, tree.sub p = some node → p ≠ [] → p.length ≤ o.keyLevelNodes →
        joinKeys p ≠ key) → w'.store key = w.store key) ∧
      ∀ p node, tree.sub p = some node → p ≠ [] → p.length ≤ o.keyLevelNodes →
        NodeSaved o create seconds w w' p node := by
  obtain ⟨below, listed, long, _⟩ := listing_cons .fifo [] tree
  have sorted := listing_fifo_sorted [] tree
  have distinct := listing_nodup .fifo [] tree input.wellFormed
  rw [listed, List.pairwise_cons] at sorted
  rw [listed, List.map_cons, List.nodup_cons] at distinct
  have nonempty : ∀ node ∈ below, node.1 ≠ [] := by
    intro node member none
    have longer := long node member
    rw [none] at longer
    exact Nat.lt_irrefl _ longer
  have found : ∀ node ∈ below, tree.sub node.1 = some node.2 := by
    intro node member
    have inListing : (node.1, node.2) ∈ listing .fifo [] tree := by
      rw [listed]
      exact List.mem_cons_of_mem _ member
    obtain ⟨q, path, there⟩ := (mem_listing .fifo [] tree input.wellFormed _ _).mp inListing
    rw [path]
    exact there
  have member : ∀ p node, tree.sub p = some node → p ≠ [] → (p, node) ∈ below := by
    intro p node there notRoot
    have inListing := (mem_listing .fifo [] tree input.wellFormed p node).mpr ⟨p, rfl, there⟩
    rw [listed] at inListing
    rcases List.mem_cons.mp inListing with same | later
    · exact absurd (Prod.mk.inj same).1 notRoot
    · exact later
  obtain ⟨w', ended, clock, others, saved⟩ := fullTreeSetNodes_ends o create seconds positive w.clock
    minLevelSemaphore below w sorted.2 distinct.2
    (fun node listed => input.node (found node listed) (nonempty node listed))
    fun node listed level => decodes node.1 node.2 (found node listed) level
  have items : treePreOrderBreadthFirstSearch w.clock tree none = below.map (itemAt w.clock) := by
    rw [treePreOrderBreadthFirstSearch, treePreOrderTraversal_whole, listed, List.tail_cons]
  refine ⟨w', ?_, clock, ?_, ?_⟩
  · unfold fullTreeSet
    intro now after answered
    obtain ⟨rfl, rfl⟩ := answered
    rw [← items] at ended
    exact ended
  · intro key free
    exact others key fun node listed short =>
      free node.1 node.2 (found node listed) (nonempty node listed) short
  · intro p node there notRoot short
    exact saved (p, node) (member p node there notRoot) short

end TreeKeyCache
