import TreeKeyCache.SetSequences

/-! # `fullTreeSet` as the bulk form of `setNode`

Both write the same values to the same nodes.  Below the tree level `fullTreeSet` does not
touch deadlines: a node it changes keeps the deadline it had, where `setNode` gives it the
one of the ttl, or none.  The two can be told apart by reading, now or later, unless the
deadlines that differ do not show. -/
set_option autoImplicit false
namespace TreeKeyCache

variable {T R : Type} [SerializedForm R] (o : LawfulOptions T R) (create : ChainedObject → Option T)
  (seconds : Option ℚ)

/-- Each node of the input but the root is listed once, with its value. -/
structure ListsNodes (order : List (List String × T)) (tree : Tree T) : Prop where
  once : (order.map Prod.fst).Nodup
  nodes : ∀ p v, (p, v) ∈ order ↔ p ≠ [] ∧ ∃ node, tree.sub p = some node ∧ node.value = some v

omit [SerializedForm R] in
theorem InputTree.valued_of_value {tree node : Tree T} (input : InputTree tree) {p : List String}
    (found : tree.sub p = some node) (nonempty : p ≠ []) {v : T} (value : node.value = some v) :
    Valued node v := by
  obtain ⟨v', valued⟩ := input.valued p node found nonempty
  obtain rfl : v' = v := Option.some.inj (valued.1.symm.trans value)
  exact valued

theorem setNodes_state (twoLevels : 2 ≤ o.keyLevelNodes)
    (positive : ∀ s, seconds = some s → 0 < s) {w₀ : World R} {tree : Tree T} (input : InputTree tree)
    (decodes : DecodesBelow o w₀ tree) : ∀ (order : List (List String × T)) (w : World R)
      (done : List String → Prop), SequenceState o seconds w₀ w tree done →
      (∀ p v, (p, v) ∈ order → p ≠ [] ∧ ∃ node, tree.sub p = some node ∧ node.value = some v) →
        (setNodes o seconds order w).1 = .ok () ∧
          SequenceState o seconds w₀ (setNodes o seconds order w).2 tree
            fun p => done p ∨ p ∈ order.map Prod.fst := by
  intro order
  induction order with
  | nil =>
      intro w done state _
      refine ⟨rfl, ?_⟩
      simp only [List.map_nil, List.not_mem_nil, or_false]
      exact state
  | cons call order ih =>
      intro w done state nodes
      obtain ⟨path, v⟩ := call
      obtain ⟨nonempty, node, found, value⟩ := nodes path v List.mem_cons_self
      obtain ⟨ok, stepped⟩ := state.step o seconds twoLevels positive input decodes path node v found
        nonempty (input.valued_of_value found nonempty value)
      obtain ⟨rest, last⟩ := ih _ _ stepped fun p v' listed => nodes p v' (List.mem_cons_of_mem _ listed)
      rw [setNodes]
      rw [ok]
      refine ⟨rest, ?_⟩
      simp only [List.map_cons, List.mem_cons, ← or_assoc]
      exact last

theorem sequenceState_start (w : World R) (tree : Tree T) :
    SequenceState o seconds w w tree fun _ => False := by
  refine ⟨rfl, fun _ _ => rfl, ?_, ?_⟩
  · intro p node v _ _ _ _
    exact Or.inl ⟨rfl, fun ended => ended.elim⟩
  · intro p node _ _
    exact Or.inl ⟨rfl, fun _ _ _ _ _ ended => ended.elim⟩

theorem setNodes_all (twoLevels : 2 ≤ o.keyLevelNodes) (positive : ∀ s, seconds = some s → 0 < s)
    {w : World R} {tree : Tree T} (input : InputTree tree) (decodes : DecodesBelow o w tree)
    (order : List (List String × T)) (lists : ListsNodes order tree) :
    (setNodes o seconds order w).1 = .ok () ∧
      SequenceState o seconds w (setNodes o seconds order w).2 tree
        fun p => p ≠ [] ∧ ∃ node, tree.sub p = some node := by
  obtain ⟨ok, state⟩ := setNodes_state o seconds twoLevels positive input decodes order w _
    (sequenceState_start o seconds w tree) fun p v listed => (lists.nodes p v).mp listed
  have done : (fun p => False ∨ p ∈ order.map Prod.fst) =
      fun p => p ≠ [] ∧ ∃ node, tree.sub p = some node := by
    funext p
    rw [false_or, eq_iff_iff]
    constructor
    · intro listed
      obtain ⟨⟨p', v⟩, member, rfl⟩ := List.mem_map.mp listed
      obtain ⟨nonempty, node, found, _⟩ := (lists.nodes p' v).mp member
      exact ⟨nonempty, node, found⟩
    · intro inside
      obtain ⟨nonempty, node, found⟩ := inside
      obtain ⟨v, valued⟩ := input.valued p node found nonempty
      exact List.mem_map.mpr ⟨(p, v), (lists.nodes p v).mpr ⟨nonempty, node, found, valued.1⟩, rfl⟩
  rw [done] at state
  exact ⟨ok, state⟩

/-! ## What is read -/

/-- The serialized value shown for the node at `q` of the tree under a key. -/
def shown (w : World R) (t : ℚ) (key : String) (q : List String) : Option R :=
  ((rootTree o (w.readAt t key)).labelAt q).live t

theorem getNode_deep (w : World R) (t : ℚ) (q : List String) (positive : 1 ≤ o.keyLevelNodes)
    (deep : o.keyLevelNodes ≤ q.length) :
    getNode o.toOptions (w.readAt t) t q = .ok ((truthy? (shown o w t
      (joinKeys (q.take o.keyLevelNodes)) (q.drop o.keyLevelNodes))).map (stepFor o.toOptions q)) := by
  have nonempty : q ≠ [] := by
    intro none
    rw [none, List.length_nil] at deep
    omega
  rw [getNode_eq o.toOptions _ t q positive nonempty, serializedAt_eq_live o _ t q deep, nodeLabel,
    if_neg (by omega)]
  rfl

theorem getNode_short (w : World R) (t : ℚ) (q : List String) (positive : 1 ≤ o.keyLevelNodes)
    (nonempty : q ≠ []) (short : q.length < o.keyLevelNodes) :
    getNode o.toOptions (w.readAt t) t q =
      .ok ((truthy? (w.readAt t (joinKeys q))).map (stepFor o.toOptions q)) := by
  rw [getNode_eq o.toOptions _ t q positive nonempty, serializedAt, if_pos short, truthy?_truthy?]

theorem shown_stored (w : World R) (t : ℚ) (key : String) (q : List String) (tree : Tree R)
    (wellFormed : tree.wellFormed = true) (expiry : Option ℚ)
    (stored : w.store key = some ⟨o.encodeTree tree, expiry⟩) :
    shown o w t key q = if (⟨o.encodeTree tree, expiry⟩ : Entry R).liveAt t then
      (tree.labelAt q).live t else none := by
  rw [shown, World.readAt, stored]
  dsimp only
  split
  · rw [labelAt_encodeTree o tree wellFormed]
  · change ((Tree.empty : Tree R).labelAt q).live t = none
    rw [Tree.labelAt_empty]
    rfl

/-- `getNode` answers alike from `now` on.  A short path with a colon in one of its keys can
spell the key of a tree, whose text is then read as a value: such paths are left out. -/
def ReadAlike (now : ℚ) (w w' : World R) : Prop :=
  ∀ q t, now ≤ t →
    (q.length < o.keyLevelNodes → (splitKey (joinKeys q)).length < o.keyLevelNodes) →
      getNode o.toOptions (w.readAt t) t q = getNode o.toOptions (w'.readAt t) t q

/-! ## When the deadlines do not show -/

/-- A deadline that does not end before the ttl does. -/
def OutlivesTtl (now : ℚ) (deadline : Option ℚ) : Prop :=
  truthyNumber deadline = false ∨ ∃ s d, seconds = some s ∧ deadline = some d ∧ now + s * 1000 ≤ d

/-- The deadlines that `fullTreeSet` leaves in a tree, and the expiry it gives to the key, have the
effect of those of `setNode`. -/
structure DeadlinesAgree (w : World R) (base : List String) (tree : Tree T) : Prop where
  counted : seconds ≠ none → Counting o create w base tree
  key : ∀ s current, seconds = some s → w.currentTtl (joinKeys base) = some current → current ≤ s
  nodes : ∀ q node v, tree.sub q = some node → Valued node v →
    ChangesTo o w.clock v ((rootTree o (w.read (joinKeys base))).slot q) →
      OutlivesTtl seconds w.clock ((rootTree o (w.read (joinKeys base))).labelAt q).deadline

def DeadlinesDoNotShow (w : World R) (tree : Tree T) : Prop :=
  ∀ base sub, tree.sub base = some sub → base.length = o.keyLevelNodes →
    Changing o w base sub → DeadlinesAgree o create seconds w base sub

omit [SerializedForm R] in
theorem FreshDeadline.outlives {now : ℚ} {deadline : Option ℚ}
    (fresh : FreshDeadline seconds now deadline) : OutlivesTtl seconds now deadline := by
  rcases fresh with none | ⟨s, timed, rfl⟩
  · exact Or.inl none
  · exact Or.inr ⟨s, _, timed, rfl, le_refl _⟩

omit [SerializedForm R] in
theorem OutlivesTtl.live {now t : ℚ} {deadline : Option ℚ} (outlives : OutlivesTtl seconds now deadline)
    (within : ∀ s, seconds = some s → t < now + s * 1000) (r : R) :
    (⟨some r, deadline⟩ : Label R).live t = some r := by
  rcases outlives with none | ⟨s, d, timed, rfl, longer⟩
  · cases deadline with
    | none => rfl
    | some d =>
        have zero : d = 0 := by
          by_contra nonzero
          simp [truthyNumber, nonzero] at none
        simp [Label.live, zero]
  · have alive : t < d := lt_of_lt_of_le (within s timed) longer
    simp [Label.live, alive]

omit [SerializedForm R] in
theorem expiryAfter_exact {w : World R} {key : String} {s : ℚ}
    (short : ∀ current, w.currentTtl key = some current → current ≤ s) :
    expiryAfter w key (ttlRule (some s)) = some (w.clock + s * 1000) := by
  unfold expiryAfter ttlRule TtlRule.ttl
  cases found : w.currentTtl key with
  | none => rfl
  | some current => exact congrArg (fun m => some (w.clock + m * 1000)) (max_eq_right (short current found))

theorem Persisted.ttl_eq {w : World R} {base : List String} {tree : Tree T} {after : Tree R}
    {ttl : Option ℚ} (persisted : Persisted o create seconds w base tree after ttl)
    (counted : seconds ≠ none → Counting o create w base tree) : ttl = seconds := by
  by_cases counting : Counting o create w base tree
  · exact persisted.timed counting
  · rw [persisted.untimed counting]
    by_contra timed
    exact counting (counted (Ne.symm timed))

/-- What the calls leave of a tree that changes. -/
structure TreeSet (w w' : World R) (base : List String) (tree : Tree T) (after : Tree R) : Prop where
  stored : w'.store (joinKeys base) =
    some ⟨o.encodeTree after, expiryAfter w (joinKeys base) (ttlRule seconds)⟩
  wellFormed : after.wellFormed = true
  nodes : ∀ q node v, tree.sub q = some node → Valued node v →
    NodeState o seconds w.clock ((rootTree o (w.read (joinKeys base))).labelAt q) v True
      (after.labelAt q)
  kept : ∀ q, tree.sub q = none → after.labelAt q = (rootTree o (w.read (joinKeys base))).labelAt q

theorem TreeState.set {w w' : World R} {base : List String} {tree : Tree T}
    {done : List String → Prop} (state : TreeState o seconds w w' base tree done)
    (all : ∀ q node, tree.sub q = some node → done q) :
    (¬ Changing o w base tree ∧ w'.store (joinKeys base) = w.store (joinKeys base)) ∨
      (Changing o w base tree ∧ ∃ after, TreeSet o seconds w w' base tree after) := by
  rcases state with ⟨stored, settled⟩ | ⟨changing, after, stored, wellFormed, nodes, kept⟩
  · refine Or.inl ⟨?_, stored⟩
    intro changing
    obtain ⟨q, node, v, found, valued, changes⟩ := changing
    rw [ChangesTo, ← Tree.labelAt_eq_slot, settled q node v found valued (all q node found)] at changes
    cases changes
  · refine Or.inr ⟨changing, after, stored, wellFormed, ?_, kept⟩
    intro q node v found valued
    have state := nodes q node v found valued
    rw [eq_true (all q node found)] at state
    exact state

theorem shown_alike {w w₁ w₂ : World R} {base : List String} {tree : Tree T}
    (valued : ∀ q node, tree.sub q = some node → ∃ v, Valued node v)
    (agree : DeadlinesAgree o create seconds w base tree) {bulk after : Tree R} {ttl : Option ℚ}
    (persisted : Persisted o create seconds w base tree bulk ttl)
    (stored : w₁.store (joinKeys base) =
      some ⟨o.encodeTree bulk, expiryAfter w (joinKeys base) (ttlRule ttl)⟩)
    (set : TreeSet o seconds w w₂ base tree after) (t : ℚ) (q : List String) :
    shown o w₁ t (joinKeys base) q = shown o w₂ t (joinKeys base) q := by
  rw [persisted.ttl_eq o create seconds agree.counted] at stored
  rw [shown_stored o w₁ t _ q bulk persisted.wellFormed _ stored,
    shown_stored o w₂ t _ q after set.wellFormed _ set.stored]
  by_cases live : (⟨o.encodeTree bulk, expiryAfter w (joinKeys base) (ttlRule seconds)⟩ :
      Entry R).liveAt t
  · have within : ∀ s, seconds = some s → t < w.clock + s * 1000 := by
      intro s timed
      rw [timed, expiryAfter_exact fun current found => agree.key s current timed found] at live
      exact live
    have alsoLive : (⟨o.encodeTree after, expiryAfter w (joinKeys base) (ttlRule seconds)⟩ :
        Entry R).liveAt t := live
    rw [if_pos live, if_pos alsoLive]
    cases found : tree.sub q with
    | none => rw [persisted.kept q found, set.kept q found]
    | some node =>
        obtain ⟨v, holds⟩ := valued q node found
        rw [persisted.saved q node v found holds, savedLabel]
        rcases set.nodes q node v found holds with ⟨same, settled⟩ | ⟨changes, u, d, same, fresh, settled⟩
        · rw [same, settled trivial]
          rfl
        · have outlives := agree.nodes q node v found holds
            (by rw [ChangesTo, ← Tree.labelAt_eq_slot]; exact changes)
          rw [same, settled trivial, if_pos changes, outlives.live seconds within,
            (fresh.outlives seconds).live seconds within]
  · have alsoDead : ¬ (⟨o.encodeTree after, expiryAfter w (joinKeys base) (ttlRule seconds)⟩ :
        Entry R).liveAt t := live
    rw [if_neg live, if_neg alsoDead]

/-! ## Both ways of writing a tree -/

/-- What `fullTreeSet` leaves in the storage. -/
structure BulkState (w w' : World R) (tree : Tree T) : Prop where
  others : ∀ key, (∀ p node, tree.sub p = some node → p ≠ [] → p.length ≤ o.keyLevelNodes →
    joinKeys p ≠ key) → w'.store key = w.store key
  saved : ∀ p node, tree.sub p = some node → p ≠ [] → p.length ≤ o.keyLevelNodes →
    NodeSaved o create seconds w w' p node

theorem KeySaved.eq {w w₁ w₂ : World R} {p : List String} {v : T} {done : Prop}
    (saved : KeySaved o seconds w w₁ p v) (state : KeyState o seconds w w₂ p v done) (ended : done) :
    w₁.store (joinKeys p) = w₂.store (joinKeys p) := by
  rw [saved]
  rcases state with ⟨stored, settled⟩ | ⟨changes, u, stored, settled⟩
  · rw [settled ended, stored]
    rfl
  · rw [if_pos changes, stored, settled ended]

theorem tree_compared {w w₁ w₂ : World R} {tree sub : Tree T} {base : List String}
    (found : tree.sub base = some sub) (nonempty : base ≠ []) (level : base.length = o.keyLevelNodes)
    (bulk : BulkState o create seconds w w₁ tree)
    (state : SequenceState o seconds w w₂ tree fun p => p ≠ [] ∧ ∃ node, tree.sub p = some node) :
    (¬ Changing o w base sub ∧ w₁.store (joinKeys base) = w₂.store (joinKeys base)) ∨
      (Changing o w base sub ∧ ∃ left ttl right, Persisted o create seconds w base sub left ttl ∧
        w₁.store (joinKeys base) =
          some ⟨o.encodeTree left, expiryAfter w (joinKeys base) (ttlRule ttl)⟩ ∧
        TreeSet o seconds w w₂ base sub right) := by
  have set := (state.trees base sub found level).set o seconds (by
    intro q node there
    refine ⟨List.append_ne_nil_of_left_ne_nil nonempty _, node, ?_⟩
    rw [Tree.sub_append, found]
    exact there)
  rcases (bulk.saved base sub found nonempty (le_of_eq level)).tree level with
    ⟨same, stored⟩ | ⟨changing, left, ttl, persisted, stored⟩
  · rcases set with ⟨_, kept⟩ | ⟨changing, _⟩
    · exact Or.inl ⟨same, stored.trans kept.symm⟩
    · exact absurd changing same
  · rcases set with ⟨same, _⟩ | ⟨_, right, set⟩
    · exact absurd changing same
    · exact Or.inr ⟨changing, left, ttl, right, persisted, stored, set⟩

theorem readAlike_of_agree {w w₁ w₂ : World R} {tree : Tree T} (input : InputTree tree)
    (positive : 1 ≤ o.keyLevelNodes) (agree : DeadlinesDoNotShow o create seconds w tree)
    (bulk : BulkState o create seconds w w₁ tree)
    (state : SequenceState o seconds w w₂ tree fun p => p ≠ [] ∧ ∃ node, tree.sub p = some node) :
    ReadAlike o w.clock w₁ w₂ := by
  -- the entry of a key is the same, or it is a tree whose nodes are shown alike
  have keys : ∀ key, w₁.store key = w₂.store key ∨
      ((splitKey key).length = o.keyLevelNodes ∧ ∀ t q, shown o w₁ t key q = shown o w₂ t key q) := by
    intro key
    by_cases listed : ∃ p node, tree.sub p = some node ∧ p ≠ [] ∧ p.length ≤ o.keyLevelNodes ∧
        joinKeys p = key
    · obtain ⟨p, node, found, nonempty, short, rfl⟩ := listed
      obtain ⟨v, valued⟩ := input.valued p node found nonempty
      rcases Nat.lt_or_eq_of_le short with above | level
      · left
        have saved := (bulk.saved p node found nonempty short).above above v valued
        exact saved.eq o seconds (state.above p node v found nonempty above valued)
          ⟨nonempty, node, found⟩
      · rcases tree_compared o create seconds found nonempty level bulk state with
          ⟨_, same⟩ | ⟨changing, left, ttl, right, persisted, stored, set⟩
        · exact Or.inl same
        · right
          have components := splitKey_joinKeys p nonempty fun k member =>
            (input.plain p node found k member).colonFree
          rw [components]
          refine ⟨level, fun t q => ?_⟩
          apply shown_alike o create seconds _ (agree p node found level changing) persisted stored set
          intro q lower there
          apply input.valued (p ++ q) lower _ (List.append_ne_nil_of_left_ne_nil nonempty _)
          rw [Tree.sub_append, found]
          exact there
    · left
      have free : ∀ p node, tree.sub p = some node → p ≠ [] → p.length ≤ o.keyLevelNodes →
          joinKeys p ≠ key := fun p node found nonempty short same =>
        listed ⟨p, node, found, nonempty, short, same⟩
      rw [bulk.others key free, state.others key free]
  intro q t _ ordinary
  by_cases nonempty : q = []
  · rw [nonempty, getNode_nil, getNode_nil]
  by_cases short : q.length < o.keyLevelNodes
  · rw [getNode_short o w₁ t q positive nonempty short, getNode_short o w₂ t q positive nonempty short]
    rcases keys (joinKeys q) with same | ⟨level, _⟩
    · rw [World.readAt, World.readAt, same]
    · exact absurd level (Nat.ne_of_lt (ordinary short))
  · have deep : o.keyLevelNodes ≤ q.length := Nat.not_lt.mp short
    rw [getNode_deep o w₁ t q positive deep, getNode_deep o w₂ t q positive deep]
    rcases keys (joinKeys (q.take o.keyLevelNodes)) with same | ⟨_, alike⟩
    · rw [shown, shown, World.readAt, World.readAt, same]
    · rw [alike]

end TreeKeyCache
