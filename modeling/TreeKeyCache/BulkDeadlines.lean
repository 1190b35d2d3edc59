import TreeKeyCache.Ancestors
import TreeKeyCache.BulkForm

/-! # When `fullTreeSet` is the bulk form of `setNode`

The condition on the deadlines is also necessary.  Each way it can fail has an instant at
which one of the two ways of writing a tree shows a node and the other does not.  Where the
ttl of the key outlasts the ttl of the call, the orders of the calls differ among
themselves, and one of them has to be chosen: the node is set first when its value compares
equal to itself, and last otherwise. -/
set_option autoImplicit false
namespace TreeKeyCache

variable {T R : Type} [SerializedForm R] (o : LawfulOptions T R) (create : ChainedObject → Option T)
  (seconds : Option ℚ)

/-! ## Orders -/

omit [SerializedForm R] in
theorem ListsNodes.perm {order other : List (List String × T)} {tree : Tree T}
    (lists : ListsNodes order tree) (same : order.Perm other) : ListsNodes other tree := by
  constructor
  · exact (same.map Prod.fst).nodup_iff.mp lists.once
  · intro p v
    rw [← same.mem_iff]
    exact lists.nodes p v

def callFor (node : List String × Tree T) : Option (List String × T) :=
  if node.1 = [] then none else node.2.value.map fun v => (node.1, v)

omit [SerializedForm R] in
theorem callFor_eq_some {node : List String × Tree T} {call : List String × T} :
    callFor node = some call ↔ call.1 ≠ [] ∧ node.1 = call.1 ∧ node.2.value = some call.2 := by
  obtain ⟨p, tree⟩ := node
  obtain ⟨p', v⟩ := call
  rw [callFor]
  by_cases root : p = []
  · simp only [root, if_true]
    constructor
    · intro none
      cases none
    · intro all
      exact absurd all.2.1.symm all.1
  · rw [if_neg root, Option.map_eq_some_iff]
    constructor
    · intro found
      obtain ⟨v', value, same⟩ := found
      obtain ⟨rfl, rfl⟩ := Prod.mk.inj same
      exact ⟨root, rfl, value⟩
    · intro all
      exact ⟨v, all.2.2, by rw [all.2.1]⟩

omit [SerializedForm R] in
theorem listsNodes_listing {tree : Tree T} (input : InputTree tree) :
    ListsNodes ((listing .fifo [] tree).filterMap callFor) tree := by
  constructor
  · have distinct := listing_nodup .fifo [] tree input.wellFormed
    rw [List.Nodup, List.pairwise_map] at distinct ⊢
    apply distinct.filterMap
    intro a b apart call here other there
    rw [callFor_eq_some] at here there
    rw [← here.2.1, ← there.2.1]
    exact apart
  · intro p v
    rw [List.mem_filterMap]
    constructor
    · intro found
      obtain ⟨⟨p', node⟩, listed, call⟩ := found
      obtain ⟨nonempty, path, value⟩ := callFor_eq_some.mp call
      obtain ⟨q, below, there⟩ := (mem_listing .fifo [] tree input.wellFormed p' node).mp listed
      rw [List.nil_append] at below
      obtain rfl : p' = p := path
      rw [← below] at there
      exact ⟨nonempty, node, there, value⟩
    · intro found
      obtain ⟨nonempty, node, there, value⟩ := found
      refine ⟨(p, node), (mem_listing .fifo [] tree input.wellFormed p node).mpr ⟨p, rfl, there⟩, ?_⟩
      exact callFor_eq_some.mpr ⟨nonempty, rfl, value⟩

omit [SerializedForm R] in
theorem exists_orders {tree node : Tree T} (input : InputTree tree) {p : List String} {v : T}
    (found : tree.sub p = some node) (nonempty : p ≠ []) (value : node.value = some v) :
    ∃ rest, ListsNodes ((p, v) :: rest) tree ∧ ListsNodes (rest ++ [(p, v)]) tree := by
  have lists := listsNodes_listing input
  have listed := (lists.nodes p v).mpr ⟨nonempty, node, found, value⟩
  obtain ⟨before, after, split⟩ := List.append_of_mem listed
  rw [split] at lists
  have first : (before ++ (p, v) :: after).Perm ((p, v) :: (before ++ after)) := List.perm_middle
  refine ⟨before ++ after, lists.perm first, lists.perm (first.trans ?_)⟩
  exact (List.perm_append_singleton (p, v) (before ++ after)).symm

theorem setNodes_append : ∀ (order more : List (List String × T)) (w : World R),
    (setNodes o seconds order w).1 = .ok () →
      setNodes o seconds (order ++ more) w = setNodes o seconds more (setNodes o seconds order w).2 := by
  intro order
  induction order with
  | nil => exact fun more w _ => rfl
  | cons call order ih =>
      intro more w ok
      obtain ⟨path, v⟩ := call
      rw [List.cons_append, setNodes, setNodes]
      rw [setNodes] at ok
      cases result : ((setNode o.toOptions path (some (.value v)) (secondsTtl seconds)).run
          Step.value w).result with
      | error e =>
          rw [result] at ok
          cases ok
      | ok _ =>
          rw [result] at ok
          exact ih more _ ok

/-! ## The deadline of the last call -/

theorem setNode_deadline (twoLevels : 2 ≤ o.keyLevelNodes) {s : ℚ} (positive : 0 < s)
    {w : World R} {tree : Tree T} (input : InputTree tree) (decodes : DecodesBelow o w tree)
    {base q : List String} {sub node : Tree T} {v : T} (found : tree.sub base = some sub)
    (level : base.length = o.keyLevelNodes) (there : sub.sub q = some node)
    (changes : differs (((rootTree o (w.read (joinKeys base))).labelAt q).live w.clock)
      (o.encode v) = true) :
    let w' := ((setNode o.toOptions (base ++ q) (some (.value v)) (secondsTtl (some s))).run
      Step.value w).world
    w'.clock = w.clock ∧ (rootTree o (w'.read (joinKeys base))).labelAt q =
      ⟨some (o.encode v), some (w.clock + s * 1000)⟩ := by
  have nonempty : base ≠ [] := by
    intro none
    rw [none, List.length_nil] at level
    omega
  have whole : tree.sub (base ++ q) = some node := by
    rw [Tree.sub_append, found]
    exact there
  have always : ∀ s', some s = some s' → 0 < s' := by
    intro s' same
    rw [← Option.some.inj same]
    exact positive
  have taken : (base ++ q).take o.keyLevelNodes = base := by
    rw [← level]
    exact List.take_left
  obtain ⟨_, leaves⟩ := setNode_leaves o (some s) twoLevels (base ++ q) (input.plain _ _ whole) v w
    (by
      intro _
      rw [taken]
      exact decodes base sub found level)
  intro w'
  have assigns := setEdit_last o (base ++ q) v (List.append_ne_nil_of_left_ne_nil nonempty _)
    (((rootTree o (w.read (joinKeys base))).labelAt q).live w.clock)
  have changed : (setWalk o (some s) base q v w.clock (w.read (joinKeys base))).changed = true :=
    walk_changed_of_last o _ _ _ w.clock v q base _ nonempty assigns changes
  have ttl : (setWalk o (some s) base q v w.clock (w.read (joinKeys base))).ttl = some s :=
    walk_ttl_secondsTtl o (some s) w.clock always _ _ q (nodeRefOf base) _
  have wellFormed : (setWalk o (some s) base q v w.clock (w.read (joinKeys base))).tree.wellFormed =
      true := walk_wellFormed o _ _ _ w.clock q _ _ (rootTree_wellFormed o _)
  have stored := leaves.tree base q rfl level
  rw [if_pos changed, ttl] at stored
  have read : w'.read (joinKeys base) =
      some (o.encodeTree (setWalk o (some s) base q v w.clock (w.read (joinKeys base))).tree) := by
    rw [World.read, World.readAt, stored, leaves.clock]
    exact if_pos (expiryAfter_tree_live (some s) always w (joinKeys base) _)
  refine ⟨leaves.clock, ?_⟩
  rw [read, labelAt_encodeTree o _ wellFormed, setWalk,
    walk_labelAt_prefix o _ _ _ w.clock q q base _ nonempty (List.prefix_refl q), Label.visited,
    Label.enriched]
  have value : (editStep (setEdit (base ++ q).length v) (present o.toOptions (some fun _ => none)
      (nodeRefOf (base ++ q)) (((rootTree o (w.read (joinKeys base))).labelAt q).live w.clock))).value =
        some v := assigns
  rw [value]
  dsimp only
  rw [if_pos changes]
  simp [stepTtl, secondsTtl, truthyNumber, ne_of_gt positive]

/-! ## What is seen -/

omit [SerializedForm R] in
theorem World.readAt_later (w : World R) {t : ℚ} (later : w.clock ≤ t) (key : String) :
    w.readAt t key = none ∨ w.readAt t key = w.read key := by
  rw [World.read, World.readAt, World.readAt]
  cases w.store key with
  | none => exact Or.inl rfl
  | some entry =>
      by_cases live : entry.liveAt t
      · have before : entry.liveAt w.clock := by
          obtain ⟨content, expiry⟩ := entry
          cases expiry with
          | none => exact trivial
          | some e => exact lt_of_le_of_lt later live
        exact Or.inr ((if_pos live).trans (if_pos before).symm)
      · exact Or.inl (if_neg live)

theorem shown_at_deadline {w : World R} {key : String} {q : List String} {r : R} {d : ℚ}
    (label : (rootTree o (w.read key)).labelAt q = ⟨some r, some d⟩) (nonzero : d ≠ 0)
    (later : w.clock ≤ d) : shown o w d key q = none := by
  rw [shown]
  rcases w.readAt_later later key with gone | same
  · rw [gone]
    change ((Tree.empty : Tree R).labelAt q).live d = none
    rw [Tree.labelAt_empty]
    rfl
  · rw [same, label]
    simp [Label.live, nonzero]

theorem ReadAlike.shown {now t : ℚ} {w w' : World R} (alike : ReadAlike o now w w')
    (positive : 1 ≤ o.keyLevelNodes) (later : now ≤ t) {base : List String}
    (level : base.length = o.keyLevelNodes) (q : List String) {v : T}
    (here : shown o w t (joinKeys base) q = some (o.encode v)) :
    shown o w' t (joinKeys base) q ≠ none := by
  intro gone
  have deep : o.keyLevelNodes ≤ (base ++ q).length := by
    rw [List.length_append]
    omega
  have same := alike (base ++ q) t later fun short => absurd short (Nat.not_lt.mpr deep)
  have taken : (base ++ q).take o.keyLevelNodes = base := by
    rw [← level]
    exact List.take_left
  have dropped : (base ++ q).drop o.keyLevelNodes = q := by
    rw [← level]
    exact List.drop_left
  rw [getNode_deep o w t _ positive deep, getNode_deep o w' t _ positive deep, taken, dropped, here,
    gone, truthy?_encode] at same
  cases same

theorem ReadAlike.symm {now : ℚ} {w w' : World R} (alike : ReadAlike o now w w') :
    ReadAlike o now w' w :=
  fun q t later ordinary => (alike q t later ordinary).symm

/-! ## The condition is necessary -/

section
variable {o create seconds} {w w₁ w₂ : World R} {base : List String} {tree : Tree T}
  {left right : Tree R} {ttl : Option ℚ} (twoLevels : 2 ≤ o.keyLevelNodes)
  (level : base.length = o.keyLevelNodes)
  (persisted : Persisted o create seconds w base tree left ttl)
  (stored : w₁.store (joinKeys base) =
    some ⟨o.encodeTree left, expiryAfter w (joinKeys base) (ttlRule ttl)⟩)
include twoLevels level persisted stored

theorem counting_of_alike (positive : ∀ s, seconds = some s → 0 < s)
    (changing : Changing o w base tree) (set : TreeSet o seconds w w₂ base tree right)
    (alike : ReadAlike o w.clock w₁ w₂) (timed : seconds ≠ none) : Counting o create w base tree := by
  obtain ⟨s, rfl⟩ := Option.ne_none_iff_exists'.mp timed
  by_contra quiet
  obtain ⟨q, node, v, found, valued, changes⟩ := changing
  have bare : (rootTree o (w.read (joinKeys base))).labelAt q = Label.none := by
    rw [Tree.labelAt_eq_slot]
    cases slot : (rootTree o (w.read (joinKeys base))).slot q with
    | none => rfl
    | some label =>
        refine absurd ⟨q, node, v, found, valued, ?_⟩ quiet
        rw [slot] at changes ⊢
        exact changes
  obtain ⟨m, longer, expiry, _⟩ := expiryAfter_ttl w (joinKeys base) s
  have later := positive s rfl
  have saved := persisted.saved q node v found valued
  rw [bare] at saved
  rw [persisted.untimed quiet] at stored
  have here : shown o w₁ (w.clock + m * 1000) (joinKeys base) q = some (o.encode v) := by
    rw [shown_stored o w₁ _ _ q left persisted.wellFormed _ stored, saved]
    rfl
  have gone : shown o w₂ (w.clock + m * 1000) (joinKeys base) q = none := by
    rw [shown_stored o w₂ _ _ q right set.wellFormed _ set.stored, expiry]
    exact if_neg (lt_irrefl (w.clock + m * 1000))
  exact alike.shown o (by omega) (by linarith) level q here gone

theorem outlives_of_alike (positive : ∀ s, seconds = some s → 0 < s)
    (set : TreeSet o seconds w w₂ base tree right) (alike : ReadAlike o w.clock w₁ w₂)
    (q : List String) (node : Tree T) (v : T) (found : tree.sub q = some node) (valued : Valued node v)
    (changes : ChangesTo o w.clock v ((rootTree o (w.read (joinKeys base))).slot q)) :
    OutlivesTtl seconds w.clock ((rootTree o (w.read (joinKeys base))).labelAt q).deadline := by
  rw [ChangesTo, ← Tree.labelAt_eq_slot] at changes
  have saved := persisted.saved q node v found valued
  rw [savedLabel, if_pos changes] at saved
  by_contra ends
  rw [OutlivesTtl, not_or] at ends
  obtain ⟨truthy, early⟩ := ends
  obtain ⟨d, deadline⟩ : ∃ d, ((rootTree o (w.read (joinKeys base))).labelAt q).deadline = some d := by
    cases deadline : ((rootTree o (w.read (joinKeys base))).labelAt q).deadline with
    | none => exact absurd (by rw [deadline]; rfl) truthy
    | some d => exact ⟨d, rfl⟩
  rw [deadline] at truthy early saved
  have nonzero : d ≠ 0 := by
    intro zero
    exact truthy (by rw [zero]; rfl)
  have within : ∀ s, seconds = some s → max w.clock d < w.clock + s * 1000 := by
    intro s timed
    have later := positive s timed
    have before : d < w.clock + s * 1000 := by
      by_contra long
      exact early ⟨s, d, timed, rfl, not_lt.mp long⟩
    exact max_lt (by linarith) before
  have gone : shown o w₁ (max w.clock d) (joinKeys base) q = none := by
    rw [shown_stored o w₁ _ _ q left persisted.wellFormed _ stored, saved]
    split
    · simp [Label.live, nonzero]
    · rfl
  have live : (⟨o.encodeTree right, expiryAfter w (joinKeys base) (ttlRule seconds)⟩ :
      Entry R).liveAt (max w.clock d) := by
    cases seconds with
    | none => exact trivial
    | some s =>
        obtain ⟨m, longer, expiry, _⟩ := expiryAfter_ttl w (joinKeys base) s
        have before := within s rfl
        rw [expiry]
        change max w.clock d < w.clock + m * 1000
        linarith
  have here : shown o w₂ (max w.clock d) (joinKeys base) q = some (o.encode v) := by
    rw [shown_stored o w₂ _ _ q right set.wellFormed _ set.stored, if_pos live]
    rcases set.nodes q node v found valued with ⟨_, settled⟩ | ⟨_, u, fresh, same, isFresh, settled⟩
    · rw [settled trivial] at changes
      cases changes
    · rw [same, settled trivial]
      exact (isFresh.outlives seconds).live seconds within _
  exact (alike.symm o).shown o (by omega) (le_max_left _ _) level q here gone

end

theorem exists_order_deadline (twoLevels : 2 ≤ o.keyLevelNodes) {s : ℚ} (positive : 0 < s)
    {w : World R} {tree : Tree T} (input : InputTree tree) (decodes : DecodesBelow o w tree)
    {base q : List String} {sub node : Tree T} {v : T} (found : tree.sub base = some sub)
    (level : base.length = o.keyLevelNodes) (there : sub.sub q = some node) (valued : Valued node v)
    (changes : differs (((rootTree o (w.read (joinKeys base))).labelAt q).live w.clock)
      (o.encode v) = true) :
    ∃ order, ListsNodes order tree ∧ (setNodes o (some s) order w).2.clock = w.clock ∧
      (rootTree o ((setNodes o (some s) order w).2.read (joinKeys base))).labelAt q =
        ⟨some (o.encode v), some (w.clock + s * 1000)⟩ := by
  have nonempty : base ++ q ≠ [] := by
    intro none
    rw [(List.append_eq_nil_iff.mp none).1, List.length_nil] at level
    omega
  have whole : tree.sub (base ++ q) = some node := by
    rw [Tree.sub_append, found]
    exact there
  have always : ∀ s', some s = some s' → 0 < s' := by
    intro s' same
    rw [← Option.some.inj same]
    exact positive
  obtain ⟨rest, first, last⟩ := exists_orders input whole nonempty valued.1
  have start := sequenceState_start o (some s) w tree
  by_cases reflexive : differs (some (o.encode v)) (o.encode v) = false
  · -- set first: the value compares equal from then on, so that the node is left alone
    refine ⟨(base ++ q, v) :: rest, first, ?_⟩
    obtain ⟨ok, stepped⟩ := start.step o (some s) twoLevels always input decodes (base ++ q) node v
      whole nonempty valued
    obtain ⟨clock, label⟩ := setNode_deadline o twoLevels positive input decodes found level there changes
    have again := stepped.decodes o (some s) always decodes
    rw [setNodes, ok]
    dsimp only
    generalize ((setNode o.toOptions (base ++ q) (some (.value v)) (secondsTtl (some s))).run
      Step.value w).world = w₁ at clock label again
    obtain ⟨_, state⟩ := setNodes_state o (some s) twoLevels always input again rest w₁ _
      (sequenceState_start o (some s) w₁ tree)
      fun p v' listed => (first.nodes p v').mp (List.mem_cons_of_mem _ listed)
    obtain ⟨nodes, _, _⟩ := (state.trees base sub found level).found o (some s) always state.clock
    refine ⟨state.clock.trans clock, ?_⟩
    rw [← label]
    rcases nodes q node v there valued with ⟨same, _⟩ | ⟨differ, _⟩
    · exact same
    · have alive : w₁.clock < w.clock + s * 1000 := by
        rw [clock]
        linarith
      have live : (⟨some (o.encode v), some (w.clock + s * 1000)⟩ : Label R).live w₁.clock =
          some (o.encode v) := by
        simp [Label.live, alive]
      rw [label, live, reflexive] at differ
      cases differ
  · -- set last: whatever the node holds by then does not compare equal
    rw [Bool.not_eq_false] at reflexive
    refine ⟨rest ++ [(base ++ q, v)], last, ?_⟩
    obtain ⟨ok, state⟩ := setNodes_state o (some s) twoLevels always input decodes rest w _ start
      fun p v' listed => (first.nodes p v').mp (List.mem_cons_of_mem _ listed)
    obtain ⟨nodes, _, _⟩ := (state.trees base sub found level).found o (some s) always state.clock
    have differ : differs (((rootTree o ((setNodes o (some s) rest w).2.read
        (joinKeys base))).labelAt q).live w.clock) (o.encode v) = true := by
      rcases nodes q node v there valued with ⟨same, _⟩ | ⟨_, u, deadline, same, fresh, _⟩
      · rw [same]
        exact changes
      · rw [same, live_of_fresh (some s) w.clock always _ deadline fresh]
        by_contra equal
        rw [Bool.not_eq_true] at equal
        have form : o.encode u = o.encode v := Option.some.inj (differs_eq_false equal)
        rw [form, reflexive] at equal
        cases equal
    rw [← state.clock] at differ
    obtain ⟨clock, label⟩ := setNode_deadline o twoLevels positive input
      (state.decodes o (some s) always decodes) found level there differ
    obtain ⟨lastOk, _⟩ := state.step o (some s) twoLevels always input decodes (base ++ q) node v whole
      nonempty valued
    rw [setNodes_append o (some s) rest _ w ok, setNodes, lastOk]
    rw [state.clock] at clock label
    exact ⟨clock, label⟩

/-- No node that changes had, by chance, the deadline that the ttl would give it now. -/
def NoCoincidence (w : World R) (base : List String) (tree : Tree T) : Prop :=
  ∀ q node v s, tree.sub q = some node → Valued node v →
    ChangesTo o w.clock v ((rootTree o (w.read (joinKeys base))).slot q) → seconds = some s →
      ((rootTree o (w.read (joinKeys base))).labelAt q).deadline ≠ some (w.clock + s * 1000)

/-- Where the ttl of the key is the longer one, a node that changes outlives the ttl of the call. -/
theorem currentTtl_le_of_alike (twoLevels : 2 ≤ o.keyLevelNodes)
    (positive : ∀ s, seconds = some s → 0 < s) {w w₁ : World R} {tree sub : Tree T}
    (input : InputTree tree) (decodes : DecodesBelow o w tree) (epoch : 0 ≤ w.clock)
    {base : List String} (found : tree.sub base = some sub) (level : base.length = o.keyLevelNodes)
    (chance : NoCoincidence o seconds w base sub) {left : Tree R} {ttl : Option ℚ}
    (persisted : Persisted o create seconds w base sub left ttl)
    (stored : w₁.store (joinKeys base) =
      some ⟨o.encodeTree left, expiryAfter w (joinKeys base) (ttlRule ttl)⟩)
    (changing : Changing o w base sub) (counted : seconds ≠ none → Counting o create w base sub)
    (outlive : ∀ q node v, sub.sub q = some node → Valued node v →
      ChangesTo o w.clock v ((rootTree o (w.read (joinKeys base))).slot q) →
        OutlivesTtl seconds w.clock ((rootTree o (w.read (joinKeys base))).labelAt q).deadline)
    (alike : ∀ order, ListsNodes order tree →
      ReadAlike o w.clock w₁ (setNodes o seconds order w).2)
    (s current : ℚ) (timed : seconds = some s)
    (remaining : w.currentTtl (joinKeys base) = some current) : current ≤ s := by
  by_contra longer
  rw [not_le] at longer
  subst timed
  have later := positive s rfl
  obtain ⟨q, node, v, there, valued, changes⟩ := changing
  have outlives := outlive q node v there valued changes
  have apart := chance q node v s there valued changes rfl
  rw [ChangesTo, ← Tree.labelAt_eq_slot] at changes
  obtain ⟨order, lists, clock, label⟩ := exists_order_deadline o twoLevels later input decodes found
    level there valued changes
  have gone : shown o (setNodes o (some s) order w).2 (w.clock + s * 1000) (joinKeys base) q = none := by
    apply shown_at_deadline o label
    · exact ne_of_gt (by linarith)
    · rw [clock]
      linarith
  have here : shown o w₁ (w.clock + s * 1000) (joinKeys base) q = some (o.encode v) := by
    obtain ⟨m, _, expiry, limit⟩ := expiryAfter_ttl w (joinKeys base) s
    rw [persisted.ttl_eq o create (some s) counted, expiry, limit current remaining,
      max_eq_left (le_of_lt longer)] at stored
    have live : (⟨o.encodeTree left, some (w.clock + current * 1000)⟩ : Entry R).liveAt
        (w.clock + s * 1000) := by
      change w.clock + s * 1000 < w.clock + current * 1000
      linarith
    rw [shown_stored o w₁ _ _ q left persisted.wellFormed _ stored, if_pos live,
      persisted.saved q node v there valued, savedLabel, if_pos changes]
    rcases outlives with untimed | ⟨s', d, same, deadline, long⟩
    · have forever : OutlivesTtl none w.clock
          ((rootTree o (w.read (joinKeys base))).labelAt q).deadline := Or.inl untimed
      apply forever.live none
      intro _ none
      cases none
    · obtain rfl := Option.some.inj same
      rw [deadline] at apart ⊢
      have after : w.clock + s * 1000 < d := by
        apply lt_of_le_of_ne long
        intro equal
        exact apart (congrArg some equal.symm)
      simp [Label.live, after]
  exact (alike order lists).shown o (by omega) (by linarith) level q here gone

/-- `fullTreeSet`, consumed without edits and run alone. -/
def fullTreeSetAlone (minLevelSemaphore : Nat) (tree : Tree T) (w : World R) :
    Outcome (FullSetItem T R) R Unit :=
  (fullTreeSet o.toOptions tree (fun ref => .ok (create ref)) minLevelSemaphore
    (secondsTtl seconds)).run unedited w

omit [SerializedForm R] in
theorem inputTree_of_listing {tree : Tree T} (wellFormed : tree.wellFormed = true)
    (nodes : ∀ node ∈ listing .fifo [] tree,
      (node.1 ≠ [] → ∃ v, Valued node.2 v) ∧ PlainPath node.1) : InputTree tree := by
  have listed : ∀ p node, tree.sub p = some node → (p, node) ∈ listing .fifo [] tree :=
    fun p node found => (mem_listing .fifo [] tree wellFormed p node).mpr ⟨p, rfl, found⟩
  exact ⟨wellFormed, fun p node found => (nodes (p, node) (listed p node found)).1,
    fun p node found => (nodes (p, node) (listed p node found)).2⟩

/-- `fullTreeSet` and the calls of `setNode`, in whatever order, leave a storage that reads alike
from then on exactly when the deadlines do not show. -/
theorem fullTreeSet_bulk_form (twoLevels : 2 ≤ o.keyLevelNodes)
    (positive : ∀ s, seconds = some s → 0 < s) (minLevelSemaphore : Nat) (tree : Tree T)
    (input : InputTree tree) (w : World R) (decodes : DecodesBelow o w tree) :
    (fullTreeSetAlone o create seconds minLevelSemaphore tree w).result = .ok () ∧
    (∀ order, ListsNodes order tree → (setNodes o seconds order w).1 = .ok ()) ∧
    (DeadlinesDoNotShow o create seconds w tree → ∀ order, ListsNodes order tree →
      ReadAlike o w.clock (fullTreeSetAlone o create seconds minLevelSemaphore tree w).world
        (setNodes o seconds order w).2) ∧
    (0 ≤ w.clock → (∀ base sub, tree.sub base = some sub → base.length = o.keyLevelNodes →
        NoCoincidence o seconds w base sub) →
      (∀ order, ListsNodes order tree →
        ReadAlike o w.clock (fullTreeSetAlone o create seconds minLevelSemaphore tree w).world
          (setNodes o seconds order w).2) →
      DeadlinesDoNotShow o create seconds w tree) := by
  obtain ⟨w₁, ended, _, others, saved⟩ := fullTreeSet_ends o create seconds positive minLevelSemaphore
    tree input w decodes
  obtain ⟨world, ok⟩ := ended.run
  change (fullTreeSetAlone o create seconds minLevelSemaphore tree w).world = w₁ at world
  change (fullTreeSetAlone o create seconds minLevelSemaphore tree w).result = .ok () at ok
  have bulk : BulkState o create seconds w w₁ tree := ⟨others, saved⟩
  have sequence := setNodes_all o seconds twoLevels positive input decodes
  rw [world]
  refine ⟨ok, fun order lists => (sequence order lists).1, ?_, ?_⟩
  · intro agree order lists
    exact readAlike_of_agree o create seconds input (by omega) agree bulk (sequence order lists).2
  · intro epoch chance alike base sub found level changing
    have nonempty : base ≠ [] := by
      intro none
      rw [none, List.length_nil] at level
      omega
    have lists := listsNodes_listing input
    rcases tree_compared o create seconds found nonempty level bulk (sequence _ lists).2 with
      ⟨same, _⟩ | ⟨_, left, ttl, right, persisted, stored, set⟩
    · exact absurd changing same
    · have counted := counting_of_alike twoLevels level persisted stored positive changing set
        (alike _ lists)
      have outlive := outlives_of_alike twoLevels level persisted stored positive set (alike _ lists)
      refine ⟨counted, ?_, outlive⟩
      exact currentTtl_le_of_alike o create seconds twoLevels positive input decodes epoch found level
        (chance base sub found level) persisted stored changing counted outlive alike

/-- The node `["a", "b"]` and the one above it. -/
def twoNodes : Tree Nat :=
  .mk none none (some [("a", some (.mk (some 0) none (some [("b", some (.mk (some 3) none none))])))])

theorem listing_twoNodes : listing .fifo [] twoNodes = [([], twoNodes),
    (["a"], .mk (some 0) none (some [("b", some (.mk (some 3) none none))])),
    (["a", "b"], .mk (some 3) none none)] := rfl

theorem inputTree_twoNodes : InputTree twoNodes := by
  apply inputTree_of_listing rfl
  rw [listing_twoNodes]
  simp only [List.forall_mem_cons]
  refine ⟨⟨fun root => absurd rfl root, ?_⟩, ⟨fun _ => ⟨0, rfl, rfl⟩, ?_⟩, ⟨fun _ => ⟨3, rfl, rfl⟩, ?_⟩, ?_⟩
  · decide
  · decide
  · decide
  · exact fun _ none => (nomatch none)

/-- Without a ttl `setNode` drops the deadline of the node it changes; `fullTreeSet` keeps it, and
the new value is gone when it comes. -/
theorem fullTreeSet_keeps_old_deadline :
    ¬ ∀ order, ListsNodes order twoNodes →
      ReadAlike (Text.options 2) 0
        (fullTreeSetAlone (Text.options 2) (fun _ => none) none 0 twoNodes datedTree).world
        (setNodes (Text.options 2) none order datedTree).2 := by
  intro alike
  have lists := listsNodes_listing inputTree_twoNodes
  have same := alike _ lists ["a", "b"] 5 (by decide) (by decide)
  revert same
  decide +kernel

theorem twoNodes_on_treeLevel {base : List String} {sub : Tree Nat}
    (found : twoNodes.sub base = some sub) (level : base.length = 2) :
    base = ["a", "b"] ∧ sub = .mk (some 3) none none := by
  have listed := (mem_listing .fifo [] twoNodes rfl base sub).mpr ⟨base, rfl, found⟩
  rw [listing_twoNodes] at listed
  simp only [List.mem_cons, Prod.mk.injEq, List.not_mem_nil, or_false] at listed
  rcases listed with ⟨rfl, _⟩ | ⟨rfl, _⟩ | last
  · cases level
  · cases level
  · exact last

/-- A ttl of one millisecond is over before the old deadline. -/
theorem fullTreeSet_bulk_form_short_ttl :
    ReadAlike (Text.options 2) 0
      (fullTreeSetAlone (Text.options 2) (fun _ => none) (some (1 / 1000)) 0 twoNodes datedTree).world
      (setNodes (Text.options 2) (some (1 / 1000)) [(["a"], 0), (["a", "b"], 3)] datedTree).2 := by
  have positive : ∀ s, some (1 / 1000 : ℚ) = some s → 0 < s := by
    intro s same
    rw [← Option.some.inj same]
    norm_num
  have decodes : DecodesBelow (Text.options 2) datedTree twoNodes := by
    intro base sub found level
    obtain ⟨rfl, _⟩ := twoNodes_on_treeLevel found level
    exact (decodes_encodeTree (Text.options 2) (.mk (some (Text.encodeNat 2)) (some 5) none) rfl _
      rfl).imp fun _ => And.left
  refine (fullTreeSet_bulk_form (Text.options 2) (fun _ => none) (some (1 / 1000)) (by decide) positive 0
    twoNodes inputTree_twoNodes datedTree decodes).2.2.1 ?_ _ (listsNodes_listing inputTree_twoNodes)
  intro base sub found level _
  obtain ⟨rfl, rfl⟩ := twoNodes_on_treeLevel found level
  constructor
  · intro _
    refine ⟨[], .mk (some 3) none none, 3, rfl, ⟨rfl, rfl⟩, ?_⟩
    change CountsAsChanged _ _ _ _ _ ((rootTree (Text.options 2) (datedTree.read "a:b")).slot [])
    rw [rootTree_datedTree, CountsAsChanged]
    decide +kernel
  · intro s current _ none
    cases none
  · intro q node v inside _ _
    change OutlivesTtl _ _ ((rootTree (Text.options 2) (datedTree.read "a:b")).labelAt q).deadline
    rw [rootTree_datedTree]
    cases q with
    | nil =>
        refine Or.inr ⟨1 / 1000, 5, rfl, rfl, ?_⟩
        change (0 : ℚ) + 1 / 1000 * 1000 ≤ 5
        norm_num
    | cons key q => cases inside

end TreeKeyCache
