import TreeKeyCache.BulkWrites

/-! # Setting the nodes of a tree one by one

`setNode` once for each node of an input, in any order and at one instant.  A call also
presents the nodes above its own, and may write them again in another form.  Whatever the
order, a node that held something else ends up with the value of the input, and a node that
held that value already is left alone. -/
set_option autoImplicit false
namespace TreeKeyCache

variable {T R : Type} [SerializedForm R] (o : LawfulOptions T R) (seconds : Option ℚ)

/-- The calls, one after another, up to the first that throws. -/
def setNodes : List (List String × T) → World R → Except Err Unit × World R
  | [], w => (.ok (), w)
  | (path, v) :: rest, w =>
      let outcome := (setNode o.toOptions path (some (.value v)) (secondsTtl seconds)).run Step.value w
      match outcome.result with
      | .error e => (.error e, outcome.world)
      | .ok _ => setNodes rest outcome.world

theorem encode_injective {u v : T} (same : o.encode u = o.encode v) : u = v := by
  have decoded := o.deserialize_value u
  rw [same, o.deserialize_value v] at decoded
  exact (Option.some.inj (Except.ok.inj decoded)).symm

omit o in
theorem differs_eq_false {current : Option R} {r : R} (same : differs current r = false) :
    current = some r := by
  cases current with
  | none => cases same
  | some c =>
      rw [differs, Bool.not_eq_false'] at same
      rw [SerializedForm.same_eq c r same]

/-- What is presented as `u` and written again was not in the form of any other value. -/
theorem differs_of_rewritten {r : R} {u : T} (decoded : deserializeValue o.toOptions r = some u)
    (rewritten : differs (some r) (o.encode u) = true) (v : T) :
    differs (some r) (o.encode v) = true := by
  by_contra same
  rw [Bool.not_eq_true] at same
  have form : r = o.encode v := Option.some.inj (differs_eq_false same)
  rw [form, deserializeValue_encode] at decoded
  rw [← Option.some.inj decoded, same] at rewritten
  cases rewritten

/-! ## Above the tree level -/

/-- The entry of a node that is to hold `v`: as it was, or written again; when the node was set,
with `v`. -/
def KeyState (w₀ w : World R) (p : List String) (v : T) (done : Prop) : Prop :=
  (w.store (joinKeys p) = w₀.store (joinKeys p) ∧
      (done → differs (w₀.read (joinKeys p)) (o.encode v) = false)) ∨
    (differs (w₀.read (joinKeys p)) (o.encode v) = true ∧ ∃ u,
      w.store (joinKeys p) = some ⟨o.encode u, expiryAfter w₀ (joinKeys p) (.exactly seconds)⟩ ∧
        (done → u = v))

/-- What is assigned to a node on the way to `path`, or at its end. -/
def assigned (path p : List String) (v : T) (current : Option R) : Option T :=
  if p = path then some v else current.bind (deserializeValue o.toOptions)

theorem setEdit_assigned (path p : List String) (v : T) (current : Option R) (nonempty : p ≠ [])
    (onPath : p <+: path) :
    setEdit path.length v (present o.toOptions (some fun _ => none) (nodeRefOf p) current) =
      assigned o path p v current := by
  unfold assigned
  by_cases last : p = path
  · rw [if_pos last, last]
    rw [last] at nonempty
    exact setEdit_last o path v nonempty current
  · have shorter : p.length ≠ path.length := fun same => last (onPath.eq_of_length same)
    rw [if_neg last]
    exact setEdit_above o v p current nonempty shorter

omit [SerializedForm R] in
theorem expiryAfter_live (positive : ∀ s, seconds = some s → 0 < s) (w : World R) (key : String)
    (r : R) : (⟨r, expiryAfter w key (.exactly seconds)⟩ : Entry R).liveAt w.clock := by
  cases seconds with
  | none => exact trivial
  | some s =>
      have later := positive s rfl
      change w.clock < w.clock + s * 1000
      linarith

theorem KeyState.step (positive : ∀ s, seconds = some s → 0 < s) {w₀ w w' : World R}
    {p path : List String} {v v' : T} {done : Prop} (state : KeyState o seconds w₀ w p v done)
    (clock : w.clock = w₀.clock) (own : p = path → v' = v)
    (after : w'.store (joinKeys p) = match assigned o path p v' (w.read (joinKeys p)) with
      | none => w.store (joinKeys p)
      | some u => if differs (w.read (joinKeys p)) (o.encode u) then
          some ⟨o.encode u, expiryAfter w₀ (joinKeys p) (.exactly seconds)⟩
        else w.store (joinKeys p)) :
    KeyState o seconds w₀ w' p v (done ∨ p = path) := by
  rcases state with ⟨stored, settled⟩ | ⟨changes, u, stored, settled⟩
  · have read := World.read_congr w w₀ (joinKeys p) stored clock
    rw [read] at after
    by_cases last : p = path
    · obtain rfl := own last
      rw [assigned, if_pos last] at after
      dsimp only at after
      cases differ : differs (w₀.read (joinKeys p)) (o.encode v') with
      | true =>
          rw [if_pos differ] at after
          exact Or.inr ⟨differ, v', after, fun _ => rfl⟩
      | false =>
          rw [if_neg (by rw [differ]; exact Bool.false_ne_true)] at after
          exact Or.inl ⟨after.trans stored, fun _ => differ⟩
    · have still : done ∨ p = path ↔ done := or_iff_left last
      rw [assigned, if_neg last] at after
      rw [KeyState, still]
      cases found : w₀.read (joinKeys p) with
      | none =>
          rw [found] at after settled
          exact Or.inl ⟨after.trans stored, settled⟩
      | some r =>
          rw [found] at after settled
          rw [Option.bind_some] at after
          cases decoded : deserializeValue o.toOptions r with
          | none =>
              rw [decoded] at after
              exact Or.inl ⟨after.trans stored, settled⟩
          | some u =>
              rw [decoded] at after
              dsimp only at after
              by_cases rewritten : differs (some r) (o.encode u) = true
              · have changes := differs_of_rewritten o decoded rewritten v
                rw [if_pos rewritten] at after
                refine Or.inr ⟨changes, u, after, fun ended => ?_⟩
                rw [settled ended] at changes
                cases changes
              · rw [if_neg rewritten] at after
                exact Or.inl ⟨after.trans stored, settled⟩
  · have live := expiryAfter_live seconds positive w₀ (joinKeys p) (o.encode u)
    have read : w.read (joinKeys p) = some (o.encode u) := by
      rw [World.read, World.readAt, stored, clock]
      exact if_pos live
    rw [read, stored] at after
    by_cases last : p = path
    · obtain rfl := own last
      rw [assigned, if_pos last] at after
      dsimp only at after
      by_cases differ : differs (some (o.encode u)) (o.encode v') = true
      · rw [if_pos differ] at after
        exact Or.inr ⟨changes, v', after, fun _ => rfl⟩
      · rw [if_neg differ] at after
        rw [Bool.not_eq_true] at differ
        have same := encode_injective o (Option.some.inj (differs_eq_false differ))
        exact Or.inr ⟨changes, u, after, fun _ => same⟩
    · have still : done ∨ p = path ↔ done := or_iff_left last
      rw [assigned, if_neg last, Option.bind_some, deserializeValue_encode] at after
      dsimp only at after
      rw [ite_self] at after
      rw [KeyState, still]
      exact Or.inr ⟨changes, u, after, settled⟩

/-! ## In the tree -/

section
variable (now : ℚ)

/-- The deadline of a node that was written: none, or the one of the ttl. -/
def FreshDeadline (deadline : Option ℚ) : Prop :=
  truthyNumber deadline = false ∨ ∃ s, seconds = some s ∧ deadline = some (now + s * 1000)

omit [SerializedForm R] in
theorem live_of_fresh (positive : ∀ s, seconds = some s → 0 < s) (r : R) (deadline : Option ℚ)
    (fresh : FreshDeadline seconds now deadline) : (⟨some r, deadline⟩ : Label R).live now = some r := by
  rcases fresh with none | ⟨s, timed, rfl⟩
  · cases deadline with
    | none => rfl
    | some d =>
        have zero : d = 0 := by
          by_contra nonzero
          simp [truthyNumber, nonzero] at none
        simp [Label.live, zero]
  · have later := positive s timed
    have alive : now < now + s * 1000 := by linarith
    simp [Label.live, alive]

/-- The label of a node that is to hold `v`, after some of the calls. -/
def NodeState (before : Label R) (v : T) (done : Prop) (label : Label R) : Prop :=
  (label = before ∧ (done → differs (before.live now) (o.encode v) = false)) ∨
    (differs (before.live now) (o.encode v) = true ∧ ∃ u deadline,
      label = ⟨some (o.encode u), deadline⟩ ∧ FreshDeadline seconds now deadline ∧ (done → u = v))

theorem enriched_fresh (step : Step T) (last : Bool) (label : Label R) (u : T)
    (value : step.value = some u) (differ : differs (label.live now) (o.encode u) = true) :
    ∃ deadline, FreshDeadline seconds now deadline ∧
      label.enriched o step (if last then stepTtl (secondsTtl seconds) step else none) now =
        ⟨some (o.encode u), deadline⟩ := by
  have untimed : ∀ deadline : Option ℚ, FreshDeadline seconds now
      (if truthyNumber deadline then none else deadline) := by
    intro deadline
    left
    cases truthy : truthyNumber deadline with
    | true => rfl
    | false => exact truthy
  rw [Label.enriched, value]
  dsimp only
  rw [if_pos differ]
  refine ⟨_, ?_, rfl⟩
  cases last with
  | false => exact untimed label.deadline
  | true =>
      have ttl : stepTtl (secondsTtl seconds : Option (StepTtl T)) step = seconds := by
        cases seconds <;> rfl
      rw [ttl]
      by_cases truthy : truthyNumber seconds = true
      · obtain ⟨s, timed⟩ : ∃ s, seconds = some s := by
          cases seconds with
          | none => cases truthy
          | some s => exact ⟨s, rfl⟩
        rw [if_pos rfl, if_pos truthy]
        exact Or.inr ⟨s, timed, by rw [timed, Option.map_some]⟩
      · simp only [if_true, truthy, Bool.false_eq_true, if_false]
        exact untimed label.deadline

theorem visited_cases (label : Label R) {p path : List String} (v : T) (nonempty : p ≠ [])
    (onPath : p <+: path) :
    (label.visited o (some fun _ => none) (setEdit path.length v) (secondsTtl seconds) p
          (decide (p = path)) now = label ∧
        ∀ u, assigned o path p v (label.live now) = some u →
          differs (label.live now) (o.encode u) = false) ∨
      ∃ u deadline, assigned o path p v (label.live now) = some u ∧
        differs (label.live now) (o.encode u) = true ∧ FreshDeadline seconds now deadline ∧
        label.visited o (some fun _ => none) (setEdit path.length v) (secondsTtl seconds) p
          (decide (p = path)) now = ⟨some (o.encode u), deadline⟩ := by
  rw [Label.visited]
  generalize made : editStep (setEdit path.length v)
    (present o.toOptions (some fun _ => none) (nodeRefOf p) (label.live now)) = step
  have value : step.value = assigned o path p v (label.live now) := by
    rw [← made]
    exact setEdit_assigned o path p v (label.live now) nonempty onPath
  rw [← value]
  cases assigns : step.value with
  | none =>
      refine Or.inl ⟨?_, fun u found => (by cases found)⟩
      rw [Label.enriched, assigns]
  | some u =>
      cases differ : differs (label.live now) (o.encode u) with
      | false =>
          refine Or.inl ⟨?_, ?_⟩
          · rw [Label.enriched, assigns]
            dsimp only
            rw [if_neg (by rw [differ]; exact Bool.false_ne_true)]
          · intro u' same
            obtain rfl := Option.some.inj same
            exact differ
      | true =>
          obtain ⟨deadline, fresh, enriched⟩ :=
            enriched_fresh o seconds now step (decide (p = path)) label u assigns differ
          exact Or.inr ⟨u, deadline, rfl, differ, fresh, enriched⟩

theorem NodeState.step (positive : ∀ s, seconds = some s → 0 < s) {before label : Label R}
    {p path : List String} {v v' : T} {done : Prop}
    (state : NodeState o seconds now before v done label) (nonempty : p ≠ []) (onPath : p <+: path)
    (own : p = path → v' = v) :
    NodeState o seconds now before v (done ∨ p = path)
      (label.visited o (some fun _ => none) (setEdit path.length v') (secondsTtl seconds) p
        (decide (p = path)) now) := by
  have visit := visited_cases o seconds now label v' nonempty onPath
  by_cases last : p = path
  · obtain rfl := own last
    have assigns : assigned o path p v' (label.live now) = some v' := by
      rw [assigned, if_pos last]
    rcases visit with ⟨kept, same⟩ | ⟨u, deadline, assigns', differ, fresh, written⟩
    · have holds := same v' assigns
      rw [kept]
      rcases state with ⟨old, _⟩ | ⟨changes, u, deadline, old, fresh, _⟩
      · rw [old] at holds
        exact Or.inl ⟨old, fun _ => holds⟩
      · rw [old, live_of_fresh seconds now positive _ deadline fresh] at holds
        have equal := encode_injective o (Option.some.inj (differs_eq_false holds))
        exact Or.inr ⟨changes, u, deadline, old, fresh, fun _ => equal⟩
    · obtain rfl := Option.some.inj (assigns.symm.trans assigns')
      have changes : differs (before.live now) (o.encode v') = true := by
        rcases state with ⟨old, _⟩ | ⟨changes, _⟩
        · rw [← old]
          exact differ
        · exact changes
      rw [written]
      exact Or.inr ⟨changes, v', deadline, rfl, fresh, fun _ => rfl⟩
  · rw [NodeState, or_iff_left last]
    rcases visit with ⟨kept, _⟩ | ⟨u, deadline, assigns, differ, fresh, written⟩
    · rw [kept]
      exact state
    · rw [assigned, if_neg last] at assigns
      obtain ⟨r, live, decoded⟩ := Option.bind_eq_some_iff.mp assigns
      rw [written]
      rcases state with ⟨old, settled⟩ | ⟨changes, u', deadline', old, fresh', settled⟩
      · rw [live] at differ
        have changes := differs_of_rewritten o decoded differ v
        rw [← live, old] at changes
        refine Or.inr ⟨changes, u, deadline, rfl, fresh, fun ended => ?_⟩
        rw [settled ended] at changes
        cases changes
      · rw [old, live_of_fresh seconds now positive _ deadline' fresh'] at live
        obtain rfl := Option.some.inj live
        rw [deserializeValue_encode] at decoded
        obtain rfl := Option.some.inj decoded
        exact Or.inr ⟨changes, u', deadline, rfl, fresh, settled⟩

omit [SerializedForm R] in
theorem labelAt_missing {tree : Tree R} {key : String} (missing : tree.child key = none)
    (q : List String) : tree.labelAt (key :: q) = Label.none := by
  rw [Tree.labelAt_cons, missing]
  exact Tree.labelAt_empty q

/-- A walk that changes the tree comes to a node that holds nothing, or that it writes. -/
theorem walk_changed (create : Option (ChainedObject → Option T)) (edit : Step T → Option T)
    (ttl : Option (StepTtl T)) : ∀ (rest base : List String) (tree : Tree R), base ≠ [] →
      (walk o create edit ttl now (nodeRefOf base) tree rest).changed = true →
        ∃ q, q <+: rest ∧ ((tree.labelAt q).live now = none ∨ ∃ u,
          edit (present o.toOptions create (nodeRefOf (base ++ q)) ((tree.labelAt q).live now)) =
              some u ∧ differs ((tree.labelAt q).live now) (o.encode u) = true) := by
  have here : ∀ (base : List String) (tree : Tree R) (seconds : Option ℚ),
      (enriched o (editStep edit (present o.toOptions create (nodeRefOf base)
        (getTreeCurrentSerializedValue tree now))) (getTreeCurrentSerializedValue tree now) tree
          seconds now).2 = true → ∃ u,
        edit (present o.toOptions create (nodeRefOf base) (tree.label.live now)) = some u ∧
          differs (tree.label.live now) (o.encode u) = true := by
    intro base tree seconds changed
    unfold enriched at changed
    rw [Tree.getTreeCurrentSerializedValue_eq] at changed
    split at changed
    · cases changed
    · rename_i u value
      refine ⟨u, value, ?_⟩
      split at changed
      · assumption
      · cases changed
  intro rest
  induction rest with
  | nil =>
      intro base tree _ changed
      refine ⟨[], List.prefix_refl [], Or.inr ?_⟩
      rw [List.append_nil]
      exact here base tree _ changed
  | cons key rest ih =>
      intro base tree nonempty changed
      rw [walk] at changed
      dsimp only at changed
      rw [Bool.or_eq_true, Bool.or_eq_true] at changed
      rcases changed with (enriched | missing) | below
      · refine ⟨[], List.nil_prefix, Or.inr ?_⟩
        rw [List.append_nil]
        exact here base tree _ enriched
      · refine ⟨[key], ⟨rest, rfl⟩, Or.inl ?_⟩
        rw [labelAt_missing (Option.isNone_iff_eq_none.mp missing)]
        rfl
      · rw [nodeRefOf_below base key nonempty] at below
        obtain ⟨q, onRest, found⟩ := ih (base ++ [key]) _ (by simp) below
        refine ⟨key :: q, List.cons_prefix_cons.mpr ⟨rfl, onRest⟩, ?_⟩
        rw [Tree.labelAt_cons, ← List.singleton_append, ← List.append_assoc]
        exact found

theorem walk_ttl_secondsTtl (positive : ∀ s, seconds = some s → 0 < s)
    (create : Option (ChainedObject → Option T)) (edit : Step T → Option T) :
    ∀ (rest : List String) (nodeRef : ChainedObject) (tree : Tree R),
      (walk o create edit (secondsTtl seconds) now nodeRef tree rest).ttl = seconds := by
  intro rest
  induction rest with
  | nil =>
      intro nodeRef tree
      cases seconds with
      | none => rfl
      | some s => exact if_neg (ne_of_gt (positive s rfl))
  | cons key rest ih => exact fun nodeRef tree => ih _ _

end

omit [SerializedForm R] in
/-- A key that was written with the ttl keeps its expiry when it is written again. -/
theorem expiryAfter_again (positive : ∀ s, seconds = some s → 0 < s) {w₀ w : World R} {key : String}
    {r : R} (clock : w.clock = w₀.clock)
    (stored : w.store key = some ⟨r, expiryAfter w₀ key (ttlRule seconds)⟩) :
    expiryAfter w key (ttlRule seconds) = expiryAfter w₀ key (ttlRule seconds) := by
  cases seconds with
  | none => rfl
  | some s =>
      have later := positive s rfl
      obtain ⟨m, longer, expiry, -⟩ := expiryAfter_ttl w₀ key s
      rw [expiry] at stored ⊢
      have live : (⟨r, some (w₀.clock + m * 1000)⟩ : Entry R).liveAt w.clock := by
        change w.clock < w₀.clock + m * 1000
        rw [clock]
        linarith
      have current : w.currentTtl key = some m := by
        rw [World.currentTtl, stored]
        dsimp only
        rw [if_pos live, Option.map_some, clock]
        congr 1
        ring
      rw [expiryAfter, current, clock]
      change some (w₀.clock + max m s * 1000) = _
      rw [max_eq_left longer]

omit [SerializedForm R] in
theorem expiryAfter_tree_live (positive : ∀ s, seconds = some s → 0 < s) (w : World R) (key : String)
    (r : R) : (⟨r, expiryAfter w key (ttlRule seconds)⟩ : Entry R).liveAt w.clock := by
  cases seconds with
  | none => exact trivial
  | some s =>
      have later := positive s rfl
      obtain ⟨m, longer, expiry, -⟩ := expiryAfter_ttl w key s
      rw [expiry]
      change w.clock < w.clock + m * 1000
      linarith

/-- The entry of a tree after some of the calls. -/
def TreeState (w₀ w : World R) (base : List String) (tree : Tree T) (done : List String → Prop) :
    Prop :=
  (w.store (joinKeys base) = w₀.store (joinKeys base) ∧
      ∀ q node v, tree.sub q = some node → Valued node v → done q →
        differs (((rootTree o (w₀.read (joinKeys base))).labelAt q).live w₀.clock) (o.encode v) =
          false) ∨
    (Changing o w₀ base tree ∧ ∃ after,
      w.store (joinKeys base) =
        some ⟨o.encodeTree after, expiryAfter w₀ (joinKeys base) (ttlRule seconds)⟩ ∧
      after.wellFormed = true ∧
      (∀ q node v, tree.sub q = some node → Valued node v →
        NodeState o seconds w₀.clock ((rootTree o (w₀.read (joinKeys base))).labelAt q) v (done q)
          (after.labelAt q)) ∧
      ∀ q, tree.sub q = none →
        after.labelAt q = (rootTree o (w₀.read (joinKeys base))).labelAt q)

theorem TreeState.found (positive : ∀ s, seconds = some s → 0 < s) {w₀ w : World R}
    {base : List String} {tree : Tree T} {done : List String → Prop}
    (state : TreeState o seconds w₀ w base tree done) (clock : w.clock = w₀.clock) :
    (∀ q node v, tree.sub q = some node → Valued node v →
      NodeState o seconds w₀.clock ((rootTree o (w₀.read (joinKeys base))).labelAt q) v (done q)
        ((rootTree o (w.read (joinKeys base))).labelAt q)) ∧
    (∀ q, tree.sub q = none → (rootTree o (w.read (joinKeys base))).labelAt q =
      (rootTree o (w₀.read (joinKeys base))).labelAt q) ∧
    expiryAfter w (joinKeys base) (ttlRule seconds) =
      expiryAfter w₀ (joinKeys base) (ttlRule seconds) := by
  rcases state with ⟨stored, settled⟩ | ⟨_, after, stored, wellFormed, nodes, others⟩
  · rw [World.read_congr w w₀ _ stored clock, expiryAfter,
      World.currentTtl_congr w w₀ _ stored clock, clock]
    exact ⟨fun q node v there valued => Or.inl ⟨rfl, settled q node v there valued⟩,
      fun _ _ => rfl, rfl⟩
  · have read : w.read (joinKeys base) = some (o.encodeTree after) := by
      rw [World.read, World.readAt, stored, clock]
      exact if_pos (expiryAfter_tree_live seconds positive w₀ (joinKeys base) (o.encodeTree after))
    simp only [read, labelAt_encodeTree o after wellFormed]
    exact ⟨nodes, others, expiryAfter_again seconds positive clock stored⟩

omit [SerializedForm R] in
theorem sub_of_prefix {tree node : Tree T} {p q : List String} (onPath : q <+: p)
    (found : tree.sub p = some node) : ∃ above, tree.sub q = some above := by
  obtain ⟨rest, rfl⟩ := onPath
  rw [Tree.sub_append, Option.bind_eq_some_iff] at found
  obtain ⟨above, there, _⟩ := found
  exact ⟨above, there⟩

/-- The walk of a call through the tree at `base`. -/
def setWalk (base rest : List String) (v : T) (now : ℚ) (content : Option R) : Walked T R :=
  walk o (some fun _ => none) (setEdit (base ++ rest).length v) (secondsTtl seconds) now
    (nodeRefOf base) (rootTree o content) rest

omit [SerializedForm R] in
theorem value_of_call {tree last : Tree T} {rest : List String} {v : T}
    (there : tree.sub rest = some last) (holds : Valued last v) {node : Tree T} {v' : T}
    (found : tree.sub rest = some node) (valued : Valued node v') : v = v' := by
  rw [there] at found
  obtain rfl := Option.some.inj found
  exact Option.some.inj (holds.1.symm.trans valued.1)

theorem TreeState.labels_step (positive : ∀ s, seconds = some s → 0 < s) {w₀ w : World R}
    {base : List String} {tree : Tree T} {done : List String → Prop}
    (state : TreeState o seconds w₀ w base tree done) (clock : w.clock = w₀.clock)
    (nonempty : base ≠ []) {rest : List String} {last : Tree T} {v : T}
    (there : tree.sub rest = some last) (holds : Valued last v) (q : List String) (node : Tree T)
    (v' : T) (found : tree.sub q = some node) (valued : Valued node v') :
    NodeState o seconds w₀.clock ((rootTree o (w₀.read (joinKeys base))).labelAt q) v'
      (done q ∨ q = rest)
      ((setWalk o seconds base rest v w₀.clock (w.read (joinKeys base))).tree.labelAt q) := by
  have before := (state.found o seconds positive clock).1 q node v' found valued
  by_cases onPath : q <+: rest
  · rw [setWalk, walk_labelAt_prefix o _ _ _ w₀.clock q rest base _ nonempty onPath]
    have visited : NodeState o seconds w₀.clock
        ((rootTree o (w₀.read (joinKeys base))).labelAt q) v' (done q ∨ base ++ q = base ++ rest)
        (((rootTree o (w.read (joinKeys base))).labelAt q).visited o (some fun _ => none)
          (setEdit (base ++ rest).length v) (secondsTtl seconds) (base ++ q)
          (decide (base ++ q = base ++ rest)) w₀.clock) := by
      apply before.step o seconds w₀.clock positive (List.append_ne_nil_of_left_ne_nil nonempty _)
        ((List.prefix_append_right_inj base).mpr onPath)
      intro same
      obtain rfl := List.append_cancel_left same
      exact value_of_call there holds found valued
    have same : (base ++ q = base ++ rest) ↔ q = rest := List.append_right_inj base
    simp only [same] at visited
    exact visited
  · have apart : q ≠ rest := fun same => onPath (same ▸ List.prefix_refl q)
    rw [setWalk, walk_labelAt_of_not_prefix o _ _ _ w₀.clock q rest _ _ onPath, or_iff_left apart]
    exact before

theorem changing_of_walk {w₀ : World R} {base : List String} {tree : Tree T} (nonempty : base ≠ [])
    (valued : ∀ q node, tree.sub q = some node → ∃ v, Valued node v) {rest : List String}
    {last : Tree T} {v : T} (there : tree.sub rest = some last) (holds : Valued last v)
    (changed : (setWalk o seconds base rest v w₀.clock (w₀.read (joinKeys base))).changed = true) :
    Changing o w₀ base tree := by
  obtain ⟨q, onPath, found⟩ := walk_changed o w₀.clock _ _ _ rest base _ nonempty changed
  obtain ⟨node, here⟩ := sub_of_prefix onPath there
  obtain ⟨v', valued'⟩ := valued q node here
  refine ⟨q, node, v', here, valued', ?_⟩
  rw [ChangesTo, ← Tree.labelAt_eq_slot]
  rcases found with nothing | ⟨u, assigns, differ⟩
  · rw [nothing]
    rfl
  · rw [setEdit_assigned o _ _ v _ (List.append_ne_nil_of_left_ne_nil nonempty _)
      ((List.prefix_append_right_inj base).mpr onPath), assigned] at assigns
    by_cases ends : base ++ q = base ++ rest
    · rw [if_pos ends] at assigns
      obtain rfl := List.append_cancel_left ends
      rw [← value_of_call there holds here valued', Option.some.inj assigns]
      exact differ
    · rw [if_neg ends] at assigns
      obtain ⟨r, live, decoded⟩ := Option.bind_eq_some_iff.mp assigns
      rw [live] at differ ⊢
      exact differs_of_rewritten o decoded differ v'

theorem holds_of_unchanged {base : List String} (nonempty : base ≠ []) (rest : List String) (v : T)
    (now : ℚ) (content : Option R) (unchanged : (setWalk o seconds base rest v now content).changed =
      false) :
    differs (((rootTree o content).labelAt rest).live now) (o.encode v) = false := by
  by_contra differ
  rw [Bool.not_eq_false] at differ
  have changes := walk_changed_of_last o (some fun _ => none) (setEdit (base ++ rest).length v)
    (secondsTtl seconds) now v rest base _ nonempty
    (setEdit_last o (base ++ rest) v (List.append_ne_nil_of_left_ne_nil nonempty _) _) differ
  rw [setWalk, changes] at unchanged
  cases unchanged

theorem TreeState.step (positive : ∀ s, seconds = some s → 0 < s) {w₀ w w' : World R}
    {base : List String} {tree : Tree T} {done : List String → Prop}
    (state : TreeState o seconds w₀ w base tree done) (clock : w.clock = w₀.clock)
    (nonempty : base ≠ []) (valued : ∀ q node, tree.sub q = some node → ∃ v, Valued node v)
    (rest : List String) (last : Tree T) (v : T) (there : tree.sub rest = some last)
    (holds : Valued last v)
    (after : w'.store (joinKeys base) =
      if (setWalk o seconds base rest v w₀.clock (w.read (joinKeys base))).changed then
        some ⟨o.encodeTree (setWalk o seconds base rest v w₀.clock (w.read (joinKeys base))).tree,
          expiryAfter w (joinKeys base)
            (ttlRule (setWalk o seconds base rest v w₀.clock (w.read (joinKeys base))).ttl)⟩
      else w.store (joinKeys base)) :
    TreeState o seconds w₀ w' base tree fun q => done q ∨ q = rest := by
  obtain ⟨_, others, expiry⟩ := state.found o seconds positive clock
  have labels := state.labels_step o seconds positive clock nonempty there holds
  by_cases changed : (setWalk o seconds base rest v w₀.clock (w.read (joinKeys base))).changed = true
  · have ttl : (setWalk o seconds base rest v w₀.clock (w.read (joinKeys base))).ttl = seconds :=
      walk_ttl_secondsTtl o seconds w₀.clock positive _ _ rest (nodeRefOf base) _
    rw [if_pos changed, ttl, expiry] at after
    have wellFormed := walk_wellFormed o (some fun _ => none) (setEdit (base ++ rest).length v)
      (secondsTtl seconds) w₀.clock rest (nodeRefOf base) _
      (rootTree_wellFormed o (w.read (joinKeys base)))
    have kept : ∀ q, tree.sub q = none →
        (setWalk o seconds base rest v w₀.clock (w.read (joinKeys base))).tree.labelAt q =
          (rootTree o (w₀.read (joinKeys base))).labelAt q := by
      intro q absent
      have aside : ¬ q <+: rest := by
        intro onPath
        obtain ⟨above, found⟩ := sub_of_prefix onPath there
        rw [absent] at found
        cases found
      rw [setWalk, walk_labelAt_of_not_prefix o _ _ _ w₀.clock q rest _ _ aside]
      exact others q absent
    refine Or.inr ⟨?_, _, after, wellFormed, labels, kept⟩
    rcases state with ⟨stored, _⟩ | ⟨changing, _⟩
    · rw [World.read_congr w w₀ _ stored clock] at changed
      exact changing_of_walk o seconds nonempty valued there holds changed
    · exact changing
  · rw [if_neg changed] at after
    rw [Bool.not_eq_true] at changed
    have same : (setWalk o seconds base rest v w₀.clock (w.read (joinKeys base))).tree =
        rootTree o (w.read (joinKeys base)) := walk_unchanged o _ _ _ w₀.clock rest _ _ changed
    rcases state with ⟨stored, settled⟩ | ⟨changing, tree', stored, wellFormed', _, others'⟩
    · refine Or.inl ⟨after.trans stored, ?_⟩
      intro q node v' found valued' ended
      rcases ended with before | rfl
      · exact settled q node v' found valued' before
      · rw [← value_of_call there holds found valued', ← World.read_congr w w₀ _ stored clock]
        exact holds_of_unchanged o seconds nonempty q v w₀.clock _ changed
    · have read : w.read (joinKeys base) = some (o.encodeTree tree') := by
        rw [World.read, World.readAt, stored, clock]
        exact if_pos (expiryAfter_tree_live seconds positive w₀ (joinKeys base) (o.encodeTree tree'))
      rw [read] at same
      simp only [read, same, labelAt_encodeTree o tree' wellFormed'] at labels
      exact Or.inr ⟨changing, tree', after.trans stored, wellFormed', labels, others'⟩

/-! ## One call -/

theorem readsAll_setSections (positive : 1 ≤ o.keyLevelNodes) (path : List String)
    (plain : PlainPath path) (v : T) (w : World R)
    (decodes : o.keyLevelNodes ≤ path.length →
      DecodesRoot o (w.read (joinKeys (path.take o.keyLevelNodes)))) :
    Stage.Reads.ReadsAll (TreeEntry o) w (setSections o path v (secondsTtl seconds) w.clock) := by
  apply readsAll_of_nodup
  · exact setSections_nodup o (secondsTtl seconds) path plain v w.clock positive
  · intro s listed
    have key : s.key ∈ (deepPrefixes o path).map joinKeys := by
      rw [← setSections_keys o (secondsTtl seconds) path v w.clock positive]
      exact List.mem_map_of_mem listed
    obtain ⟨p, member, same⟩ := List.mem_map.mp key
    obtain ⟨onPath, nonempty, short⟩ := (mem_deepPrefixes o path p).mp member
    rw [← same]
    intro _ components serialized truthy
    rw [splitKey_joinKeys p nonempty fun k inside =>
      (plain k (onPath.subset inside)).colonFree] at components
    have long := onPath.length_le
    have taken : path.take o.keyLevelNodes = p := by
      obtain ⟨rest, rfl⟩ := onPath
      rw [← components]
      exact List.take_left
    have decoded := decodes (by omega)
    rw [taken] at decoded
    obtain ⟨tree, root⟩ := decoded
    rw [decodeRoot, truthy] at root
    exact ⟨tree, root⟩

theorem keySection_writes (path : List String) (n : Nat) (bound : n < path.length) (v : T)
    (content : Option R) :
    (keySection o (some fun _ => none) (setEdit path.length v) (secondsTtl seconds) path path.length
      n).writes content = match assigned o path (path.take (n + 1)) v content with
        | none => none
        | some u => if differs content (o.encode u) then some (o.encode u, .exactly seconds)
          else none := by
  have value := setEdit_assigned o path (path.take (n + 1)) v content (take_ne_nil path n bound)
    (List.take_prefix _ _)
  have ttl : ∀ step : Step T, stepTtl (secondsTtl seconds) step = seconds := by
    intro step
    cases seconds <;> rfl
  change stepWrites o (secondsTtl seconds) _ content = _
  rewrite [stepWrites, ttl, ← value]
  rfl

structure CallLeaves (w w' : World R) (path : List String) (v : T) : Prop where
  clock : w'.clock = w.clock
  others : ∀ key, (∀ p, p <+: path → p ≠ [] → p.length ≤ o.keyLevelNodes → joinKeys p ≠ key) →
    w'.store key = w.store key
  above : ∀ p, p <+: path → p ≠ [] → p.length < o.keyLevelNodes →
    w'.store (joinKeys p) = match assigned o path p v (w.read (joinKeys p)) with
      | none => w.store (joinKeys p)
      | some u => if differs (w.read (joinKeys p)) (o.encode u) then
          some ⟨o.encode u, expiryAfter w (joinKeys p) (.exactly seconds)⟩
        else w.store (joinKeys p)
  tree : ∀ base rest, path = base ++ rest → base.length = o.keyLevelNodes →
    w'.store (joinKeys base) =
      if (setWalk o seconds base rest v w.clock (w.read (joinKeys base))).changed then
        some ⟨o.encodeTree (setWalk o seconds base rest v w.clock (w.read (joinKeys base))).tree,
          expiryAfter w (joinKeys base)
            (ttlRule (setWalk o seconds base rest v w.clock (w.read (joinKeys base))).ttl)⟩
      else w.store (joinKeys base)

theorem setSections_above (positive : 1 ≤ o.keyLevelNodes) (path : List String)
    (plain : PlainPath path) (v : T) (w : World R) (p : List String) (onPath : p <+: path)
    (nonempty : p ≠ []) (short : p.length < o.keyLevelNodes) :
    (performAll w (setSections o path v (secondsTtl seconds) w.clock)).store (joinKeys p) =
      match assigned o path p v (w.read (joinKeys p)) with
      | none => w.store (joinKeys p)
      | some u => if differs (w.read (joinKeys p)) (o.encode u) then
          some ⟨o.encode u, expiryAfter w (joinKeys p) (.exactly seconds)⟩
        else w.store (joinKeys p) := by
  obtain ⟨n, length⟩ := Nat.exists_eq_succ_of_ne_zero (List.length_pos_iff.mpr nonempty).ne'
  have long := onPath.length_le
  have taken : path.take (n + 1) = p := by
    obtain ⟨rest, rfl⟩ := onPath
    rw [← Nat.succ_eq_add_one, ← length]
    exact List.take_left
  let s := keySection o (some fun _ => none) (setEdit path.length v) (secondsTtl seconds) path
    path.length n
  have listed : s.silent ∈ setSections o path v (secondsTtl seconds) w.clock :=
    List.mem_map_of_mem (keySection_mem o _ _ _ (by omega) (by omega) path.length w.clock)
  have key : s.silent.key = joinKeys p := congrArg joinKeys taken
  have silent : s.silent.writes = s.writes := rfl
  have stored := performAll_entry _ _ w
    (setSections_nodup o (secondsTtl seconds) path plain v w.clock positive) listed
  have writes := keySection_writes o seconds path n (by omega) v (w.read (joinKeys p))
  rw [taken] at writes
  rw [key, silent, writes] at stored
  rw [stored]
  cases assigned o path p v (w.read (joinKeys p)) with
  | none => rfl
  | some u =>
      dsimp only
      by_cases differ : differs (w.read (joinKeys p)) (o.encode u) = true
      · rw [if_pos differ, if_pos differ]
        rfl
      · rw [if_neg differ, if_neg differ]

theorem setSections_tree (positive : 1 ≤ o.keyLevelNodes) (base rest : List String)
    (plain : PlainPath (base ++ rest)) (v : T) (w : World R) (level : base.length = o.keyLevelNodes) :
    (performAll w (setSections o (base ++ rest) v (secondsTtl seconds) w.clock)).store
        (joinKeys base) =
      if (setWalk o seconds base rest v w.clock (w.read (joinKeys base))).changed then
        some ⟨o.encodeTree (setWalk o seconds base rest v w.clock (w.read (joinKeys base))).tree,
          expiryAfter w (joinKeys base)
            (ttlRule (setWalk o seconds base rest v w.clock (w.read (joinKeys base))).ttl)⟩
      else w.store (joinKeys base) := by
  have taken : (base ++ rest).take o.keyLevelNodes = base := by
    rw [← level]
    exact List.take_left
  have dropped : (base ++ rest).drop o.keyLevelNodes = rest := by
    rw [← level]
    exact List.drop_left
  have deep : o.keyLevelNodes ≤ (base ++ rest).length := by
    rw [List.length_append]
    omega
  let s := treeSection o (some fun _ => none) (setEdit (base ++ rest).length v) (secondsTtl seconds)
    (base ++ rest) (base ++ rest).length w.clock
  have listed : s.silent ∈ setSections o (base ++ rest) v (secondsTtl seconds) w.clock :=
    List.mem_map_of_mem (treeSection_mem o _ _ _ deep (base ++ rest).length w.clock)
  have key : s.silent.key = joinKeys base := congrArg joinKeys taken
  have stored := performAll_entry _ _ w
    (setSections_nodup o (secondsTtl seconds) (base ++ rest) plain v w.clock positive) listed
  have walked : treeWalk o (some fun _ => none) (setEdit (base ++ rest).length v)
      (secondsTtl seconds) (base ++ rest) w.clock (w.read (joinKeys base)) =
        setWalk o seconds base rest v w.clock (w.read (joinKeys base)) := by
    rw [treeWalk, taken, dropped, setWalk]
  have writes : s.silent.writes (w.read (joinKeys base)) =
      if (setWalk o seconds base rest v w.clock (w.read (joinKeys base))).changed then
        some (o.encodeTree (setWalk o seconds base rest v w.clock (w.read (joinKeys base))).tree,
          ttlRule (setWalk o seconds base rest v w.clock (w.read (joinKeys base))).ttl)
      else none := by
    rw [← walked]
    rfl
  rw [key, writes] at stored
  rw [stored]
  by_cases changed : (setWalk o seconds base rest v w.clock (w.read (joinKeys base))).changed = true
  · rw [if_pos changed, if_pos changed]
    rfl
  · rw [if_neg changed, if_neg changed]

theorem setNode_leaves (twoLevels : 2 ≤ o.keyLevelNodes) (path : List String) (plain : PlainPath path)
    (v : T) (w : World R)
    (decodes : o.keyLevelNodes ≤ path.length →
      DecodesRoot o (w.read (joinKeys (path.take o.keyLevelNodes)))) :
    ((setNode o.toOptions path (some (.value v)) (secondsTtl seconds)).run Step.value w).result =
        .ok () ∧
      CallLeaves o seconds w
        ((setNode o.toOptions path (some (.value v)) (secondsTtl seconds)).run Step.value w).world
        path v := by
  have reads := readsAll_setSections o seconds (by omega) path plain v w decodes
  have ran := (setNode_starts o Step.value path v (secondsTtl seconds) twoLevels plain).run_eq
    _ _ _ _ w reads
  rw [ran]
  refine ⟨rfl, performAll_clock _ _, ?_, ?_, ?_⟩
  · intro key free
    apply performAll_store_of_not_mem
    rw [setSections_keys o (secondsTtl seconds) path v w.clock (by omega)]
    intro listed
    obtain ⟨p, member, same⟩ := List.mem_map.mp listed
    obtain ⟨onPath, nonempty, short⟩ := (mem_deepPrefixes o path p).mp member
    exact free p onPath nonempty short same
  · intro p onPath nonempty short
    exact setSections_above o seconds (by omega) path plain v w p onPath nonempty short
  · rintro base rest rfl level
    exact setSections_tree o seconds (by omega) base rest plain v w level

/-! ## All calls -/

/-- The storage after the calls for the nodes that are done. -/
structure SequenceState (w₀ w : World R) (tree : Tree T) (done : List String → Prop) : Prop where
  clock : w.clock = w₀.clock
  others : ∀ key, (∀ p node, tree.sub p = some node → p ≠ [] → p.length ≤ o.keyLevelNodes →
    joinKeys p ≠ key) → w.store key = w₀.store key
  above : ∀ p node v, tree.sub p = some node → p ≠ [] → p.length < o.keyLevelNodes →
    Valued node v → KeyState o seconds w₀ w p v (done p)
  trees : ∀ p node, tree.sub p = some node → p.length = o.keyLevelNodes →
    TreeState o seconds w₀ w p node fun q => done (p ++ q)

theorem SequenceState.decodes (positive : ∀ s, seconds = some s → 0 < s) {w₀ w : World R}
    {tree : Tree T} {done : List String → Prop} (state : SequenceState o seconds w₀ w tree done)
    (start : DecodesBelow o w₀ tree) : DecodesBelow o w tree := by
  intro p node found level
  rcases state.trees p node found level with ⟨stored, _⟩ | ⟨_, after, stored, wellFormed, _⟩
  · rw [World.read_congr w w₀ _ stored state.clock]
    exact start p node found level
  · have read : w.read (joinKeys p) = some (o.encodeTree after) := by
      rw [World.read, World.readAt, stored, state.clock]
      exact if_pos (expiryAfter_tree_live seconds positive w₀ (joinKeys p) (o.encodeTree after))
    rw [read, DecodesRoot, decodeRoot]
    cases truthy : truthy? (some (o.encodeTree after)) with
    | none => exact ⟨Tree.empty, rfl⟩
    | some r => exact (decodes_encodeTree o after wellFormed r truthy).imp fun _ => And.left

theorem SequenceState.step (twoLevels : 2 ≤ o.keyLevelNodes)
    (positive : ∀ s, seconds = some s → 0 < s) {w₀ w : World R} {tree : Tree T}
    (input : InputTree tree) {done : List String → Prop}
    (state : SequenceState o seconds w₀ w tree done) (decodes : DecodesBelow o w₀ tree)
    (path : List String) (node : Tree T) (v : T) (found : tree.sub path = some node)
    (nonempty : path ≠ []) (valued : Valued node v) :
    ((setNode o.toOptions path (some (.value v)) (secondsTtl seconds)).run Step.value w).result =
        .ok () ∧
      SequenceState o seconds w₀
        ((setNode o.toOptions path (some (.value v)) (secondsTtl seconds)).run Step.value w).world
        tree fun p => done p ∨ p = path := by
  have plain := input.plain path node found
  have decodesNow : o.keyLevelNodes ≤ path.length →
      DecodesRoot o (w.read (joinKeys (path.take o.keyLevelNodes))) := by
    intro deep
    obtain ⟨above, there⟩ := sub_of_prefix (List.take_prefix o.keyLevelNodes path) found
    exact state.decodes o seconds positive decodes _ above there (List.length_take_of_le deep)
  obtain ⟨ok, leaves⟩ := setNode_leaves o seconds twoLevels path plain v w decodesNow
  generalize ((setNode o.toOptions path (some (.value v)) (secondsTtl seconds)).run Step.value
    w).world = w' at leaves ⊢
  refine ⟨ok, leaves.clock.trans state.clock, ?_, ?_, ?_⟩
  · intro key free
    rw [leaves.others key, state.others key free]
    intro p onPath notRoot short
    obtain ⟨above, there⟩ := sub_of_prefix onPath found
    exact free p above there notRoot short
  · intro p other v' there notRoot short valued'
    have before := state.above p other v' there notRoot short valued'
    by_cases onPath : p <+: path
    · have after := leaves.above p onPath notRoot short
      have expiry : expiryAfter w (joinKeys p) (.exactly seconds) =
          expiryAfter w₀ (joinKeys p) (.exactly seconds) := by
        unfold expiryAfter TtlRule.ttl
        rw [state.clock]
      rw [expiry] at after
      refine before.step o seconds positive state.clock ?_ after
      rintro rfl
      rw [found] at there
      obtain rfl := Option.some.inj there
      exact Option.some.inj (valued.1.symm.trans valued'.1)
    · have apart : p ≠ path := fun same => onPath (same ▸ List.prefix_refl p)
      have untouched : w'.store (joinKeys p) = w.store (joinKeys p) := by
        apply leaves.others
        intro p' onPath' notRoot' _ same
        have equal := (joinKeys_eq_iff p' p (plain.above onPath') (input.plain p other there) notRoot'
          notRoot).mp same
        exact onPath (equal ▸ onPath')
      rw [or_iff_left apart, KeyState, untouched]
      exact before
  · intro base sub there level
    have before := state.trees base sub there level
    have baseNonempty : base ≠ [] := by
      intro none
      rw [none, List.length_nil] at level
      omega
    by_cases onPath : base <+: path
    · obtain ⟨rest, rfl⟩ := onPath
      have after := leaves.tree base rest rfl level
      rw [state.clock] at after
      have last : sub.sub rest = some node := by
        rw [Tree.sub_append, there] at found
        exact found
      have stepped := before.step o seconds positive state.clock baseNonempty (fun q lower inside =>
        input.valued (base ++ q) lower (by rw [Tree.sub_append, there]; exact inside)
          (List.append_ne_nil_of_left_ne_nil baseNonempty _)) rest node v last valued after
      simp only [List.append_right_inj]
      exact stepped
    · have untouched : w'.store (joinKeys base) = w.store (joinKeys base) := by
        apply leaves.others
        intro p' onPath' notRoot' _ same
        have equal := (joinKeys_eq_iff p' base (plain.above onPath') (input.plain base sub there)
          notRoot' baseNonempty).mp same
        exact onPath (equal ▸ onPath')
      have apart : ∀ q, base ++ q ≠ path := by
        intro q same
        exact onPath ⟨q, same⟩
      simp only [apart, or_false]
      rw [TreeState, untouched]
      exact before

end TreeKeyCache
