import TreeKeyCache.Labels
import TreeKeyCache.PathMap

/-! # The nodes of one storage key

The node at a path is held by the storage key of its first `keyLevelNodes` keys.
`Sound` contents are those a cache without ttls produces from decodable ones; on
them a section of a run along a path edits exactly the nodes of its key that are
prefixes of the path. -/
set_option autoImplicit false
namespace TreeKeyCache

variable {T R : Type} [SerializedForm R]

section
variable (o : LawfulOptions T R)

/-- The storage key that holds the node at `path`. -/
def nodeKey (path : List String) : String := joinKeys (path.take o.keyLevelNodes)

/-- What the content of that key says about the node. -/
def nodeLabel (content : Option R) (path : List String) : Label R :=
  if path.length < o.keyLevelNodes then ⟨content, none⟩
  else (rootTree o content).labelAt (path.drop o.keyLevelNodes)

theorem serializedAt_eq_live (get : String → Option R) (now : ℚ) (path : List String)
    (deep : o.keyLevelNodes ≤ path.length) :
    serializedAt o.toOptions get now path = (nodeLabel o (get (nodeKey o path)) path).live now := by
  rw [serializedAt, if_neg (by omega), nodeLabel, if_neg (by omega), treeAt, rootTree, nodeKey]
  cases (truthy? (get (joinKeys (path.take o.keyLevelNodes)))).bind (deserializeTree o.toOptions) with
  | none => rw [Option.getD_none, Tree.labelAt_empty]; rfl
  | some tree => rw [Option.bind_some, Option.getD_some, Tree.valueAt_eq_live]

/-! ## Sound contents -/

/-- A serialized value that is truthy and decodes. -/
def GoodValue (r : R) : Prop :=
  SerializedForm.truthy r = true ∧ ∃ v, o.valueSerializer.deserialize r = .ok (some v)

structure GoodLabel (label : Label R) : Prop where
  undated : label.deadline = none
  decodes : ∀ r, label.value = some r → GoodValue o r

def Label.held (label : Label R) : Option T := label.value.bind (deserializeValue o.toOptions)

/-- A content of the key `prefixPath` stands for that decodes, without deadlines. -/
structure Sound (prefixPath : List String) (content : Option R) : Prop where
  tree : prefixPath.length = o.keyLevelNodes → ∀ r, truthy? content = some r →
    ∃ tree, o.treeSerializer.deserialize r = .ok tree
  labels : ∀ path, path.take o.keyLevelNodes = prefixPath → GoodLabel o (nodeLabel o content path)

theorem goodValue_encode (v : T) : GoodValue o (o.encode v) :=
  ⟨o.truthy_value v, v, o.deserialize_value v⟩

theorem deserializeValue_encode (v : T) : deserializeValue o.toOptions (o.encode v) = some v := by
  rw [deserializeValue, o.deserialize_value]

variable {o}

theorem GoodLabel.live_eq {label : Label R} (good : GoodLabel o label) (now : ℚ) :
    label.live now = label.value := label.live_of_no_deadline now good.undated

theorem GoodLabel.present_eq {label : Label R} (good : GoodLabel o label)
    (create : Option (ChainedObject → Option T)) (path : List String) (now : ℚ) :
    present o.toOptions create (nodeRefOf path) (label.live now) =
      offered create path (label.held o) := by
  rw [good.live_eq]
  unfold present offered Label.held
  cases hvalue : label.value with
  | none => rfl
  | some r =>
      obtain ⟨_, v, decoded⟩ := good.decodes r hvalue
      have : deserializeValue o.toOptions r = some v := by rw [deserializeValue, decoded]
      simp [this]

variable (o)

theorem goodLabel_none : GoodLabel o (Label.none : Label R) :=
  ⟨rfl, fun _ h => by cases h⟩

theorem sound_none (prefixPath : List String) : Sound o prefixPath (none : Option R) := by
  refine ⟨fun _ r stored => by simp [truthy?] at stored, fun path _ => ?_⟩
  unfold nodeLabel
  split
  · exact goodLabel_none o
  · rw [show rootTree o (none : Option R) = Tree.empty from rfl, Tree.labelAt_empty]
    exact goodLabel_none o

variable (create : Option (ChainedObject → Option T)) (edit : Step T → Option T)

theorem GoodLabel.visited {o : LawfulOptions T R} {label : Label R} (good : GoodLabel o label)
    (path : List String) (last : Bool) (now : ℚ) :
    GoodLabel o (label.visited o create edit none path last now) := by
  unfold Label.visited Label.enriched
  simp only [stepTtl, ite_self]
  cases (editStep edit (present o.toOptions create (nodeRefOf path) (label.live now))).value with
  | none => exact good
  | some v =>
      simp only [good.undated, truthyNumber_none, Bool.false_eq_true, if_false]
      split
      · exact ⟨rfl, fun r h => Option.some.inj h ▸ goodValue_encode o v⟩
      · exact good

theorem Label.value_visited (o : LawfulOptions T R) (ttl : Option (StepTtl T)) (label : Label R)
    (path : List String) (last : Bool) (now : ℚ) (r : R)
    (stored : (label.visited o create edit ttl path last now).value = some r) :
    label.value = some r ∨ ∃ v, r = o.encode v := by
  unfold Label.visited Label.enriched at stored
  simp only at stored
  split at stored
  · exact Or.inl stored
  · split at stored
    · exact Or.inr ⟨_, (Option.some.inj stored).symm⟩
    · exact Or.inl stored

/-- What a visit without ttl stores is the edit of what it found. -/
theorem GoodLabel.held_visited {o : LawfulOptions T R} {label : Label R} (good : GoodLabel o label)
    (path : List String) (last : Bool) (now : ℚ) :
    (label.visited o create edit none path last now).held o =
      applyEdit create edit path (label.held o) := by
  have edited : (editStep edit (present o.toOptions create (nodeRefOf path) (label.live now))).value =
      edit (offered create path (label.held o)) := by
    rw [editStep, good.present_eq]
  unfold Label.visited Label.enriched applyEdit
  simp only [stepTtl, ite_self, edited]
  cases edit (offered create path (label.held o)) with
  | none => rfl
  | some v =>
      simp only [good.undated, truthyNumber_none, Bool.false_eq_true, if_false, good.live_eq]
      split
      · simp [Label.held, deserializeValue_encode]
      · rename_i same
        -- an unchanged serialized value is the serialized value of `v`
        unfold differs at same
        cases hvalue : label.value with
        | none => simp [hvalue] at same
        | some r =>
            simp only [hvalue, Bool.not_eq_true, Bool.not_eq_false'] at same
            have equal := SerializedForm.same_eq r (o.encode v) same
            simp [Label.held, hvalue, equal, deserializeValue_encode]

end

/-! ## The effect of a section -/

/-- The content of the key after the section. -/
def Section.after {Y : Type} (s : Section Y R) (content : Option R) : Option R :=
  match s.writes content with
  | none => content
  | some (r, _) => some r

section
variable (o : LawfulOptions T R) (create : Option (ChainedObject → Option T))
  (edit : Step T → Option T)

/-- What a section of a run along `path` without ttl does at the key of `prefixPath`. -/
structure Visits {Y : Type} (path prefixPath : List String) (s : Section Y R) : Prop where
  key : s.key = joinKeys prefixPath
  untimed : ∀ content r rule, s.writes content = some (r, rule) → rule = .exactly none
  sound : ∀ content, Sound o prefixPath content → Sound o prefixPath (s.after content)
  held : ∀ content, Sound o prefixPath content → ∀ q, q.take o.keyLevelNodes = prefixPath →
    (nodeLabel o (s.after content) q).held o =
      if q <+: path then applyEdit create edit q ((nodeLabel o content q).held o)
      else (nodeLabel o content q).held o
  values : ∀ content q r, q.take o.keyLevelNodes = prefixPath →
    (nodeLabel o (s.after content) q).value = some r →
      (nodeLabel o content q).value = some r ∨ ∃ v, r = o.encode v

theorem Visits.silent {path prefixPath : List String} {s : Section (Step T) R}
    (visits : Visits o create edit path prefixPath s) :
    Visits o create edit path prefixPath s.silent :=
  ⟨visits.key, visits.untimed, visits.sound, visits.held, visits.values⟩

theorem keySection_after (path : List String) (minLevelSemaphore n : Nat) (content : Option R)
    (now : ℚ) :
    (⟨(keySection o create edit none path minLevelSemaphore n).after content, none⟩ : Label R) =
      (⟨content, none⟩ : Label R).visited o create edit none (path.take (n + 1)) false now := by
  unfold Section.after keySection stepWrites Label.visited Label.enriched
  simp only [Bool.false_eq_true, if_false]
  rw [show (⟨content, none⟩ : Label R).live now = content from rfl]
  cases (editStep edit (present o.toOptions create (nodeRefOf (path.take (n + 1))) content)).value with
  | none => rfl
  | some v =>
      simp only [truthyNumber_none, Bool.false_eq_true, if_false]
      split
      · rename_i written
        split at written
        · cases written
        · rename_i same
          rw [if_neg same]
      · rename_i r rule written
        split at written
        · rename_i changed
          cases written
          rw [if_pos changed]
        · cases written

theorem eq_of_take_eq_of_lt (q prefixPath : List String) (n : Nat) (same : q.take n = prefixPath)
    (short : prefixPath.length < n) : q = prefixPath := by
  have length := congrArg List.length same
  rw [List.length_take] at length
  rw [← same, List.take_of_length_le (by omega)]

theorem keySection_visits (path : List String) (minLevelSemaphore n : Nat)
    (keyLevel : n + 1 < o.keyLevelNodes) (bound : n < path.length) :
    Visits o create edit path (path.take (n + 1))
      (keySection o create edit none path minLevelSemaphore n) := by
  have length : (path.take (n + 1)).length = n + 1 := List.length_take_of_le (by omega)
  have own : ∀ q, q.take o.keyLevelNodes = path.take (n + 1) → q = path.take (n + 1) :=
    fun q same => eq_of_take_eq_of_lt q _ _ same (by omega)
  have label : ∀ content : Option R, nodeLabel o content (path.take (n + 1)) = ⟨content, none⟩ :=
    fun content => by rw [nodeLabel, if_pos (by omega)]
  refine ⟨rfl, ?_, ?_, ?_, ?_⟩
  · intro content r rule written
    simp only [keySection, stepWrites] at written
    split at written
    · cases written
    · split at written
      · cases written
        rfl
      · cases written
  · intro content sound
    refine ⟨fun atTree => absurd atTree (by omega), fun q same => ?_⟩
    obtain rfl := own q same
    have good := sound.labels _ same
    rw [label] at good ⊢
    rw [keySection_after o create edit path minLevelSemaphore n content 0]
    exact good.visited create edit _ _ 0
  · intro content sound q same
    obtain rfl := own q same
    have good := sound.labels _ same
    rw [label] at good
    rw [if_pos ( List.take_prefix _ _), label, label,
      keySection_after o create edit path minLevelSemaphore n content 0]
    exact good.held_visited create edit _ _ 0
  · intro content q r same stored
    obtain rfl := own q same
    rw [label, keySection_after o create edit path minLevelSemaphore n content 0] at stored
    rw [label]
    exact Label.value_visited create edit o none _ _ _ 0 r stored

/-! ## The tree level -/

variable (ttl : Option (StepTtl T))

theorem rootTree_wellFormed (content : Option R) : (rootTree o content).wellFormed = true := by
  unfold rootTree
  cases truthy? content with
  | none => rfl
  | some r =>
      rw [Option.bind_some, deserializeTree]
      cases decoded : o.treeSerializer.deserialize r with
      | error e => rfl
      | ok tree => exact o.treeSerializer.deserialize_wellFormed r tree decoded

theorem decodes_encodeTree (tree : Tree R) (wellFormed : tree.wellFormed = true) (r : R)
    (stored : truthy? (some (o.encodeTree tree)) = some r) :
    ∃ read, o.treeSerializer.deserialize r = .ok read ∧ read.SameNodes tree := by
  have same : o.encodeTree tree = r := by
    simp only [truthy?, Option.filter_eq_some_iff, Option.some.injEq] at stored
    exact stored.1
  rw [← same]
  exact o.deserialize_tree tree wellFormed

/-- A falsy serialized tree is read as `{}`, which it is. -/
theorem rootTree_encodeTree (tree : Tree R) (wellFormed : tree.wellFormed = true) :
    (rootTree o (some (o.encodeTree tree))).SameNodes tree := by
  cases form : SerializedForm.truthy (o.encodeTree tree) with
  | true =>
      obtain ⟨read, decoded, same⟩ := o.deserialize_tree tree wellFormed
      rw [rootTree, truthy?, Option.filter_some_pos form, Option.bind_some, deserializeTree, decoded]
      exact same
  | false =>
      rw [o.truthy_tree tree form, rootTree, truthy?]
      rw [o.truthy_tree tree form] at form
      rw [Option.filter_some_neg (by simp [form])]
      exact Tree.SameNodes.refl _

theorem labelAt_encodeTree (tree : Tree R) (wellFormed : tree.wellFormed = true) (q : List String) :
    (rootTree o (some (o.encodeTree tree))).labelAt q = tree.labelAt q :=
  (rootTree_encodeTree o tree wellFormed).labelAt q

/-- The content a tree section leaves stands for the tree it walked. -/
theorem treeSection_rootTree (path : List String) (minLevelSemaphore : Nat) (now : ℚ)
    (content : Option R) :
    (rootTree o ((treeSection o create edit ttl path minLevelSemaphore now).after
      content)).SameNodes (treeWalk o create edit ttl path now content).tree := by
  unfold Section.after treeSection
  simp only
  by_cases changed : (treeWalk o create edit ttl path now content).changed = true
  · rw [if_pos changed]
    exact rootTree_encodeTree o _
      (walk_wellFormed o create edit ttl now _ _ _ (rootTree_wellFormed o content))
  · rw [if_neg changed]
    rw [treeWalk, walk_unchanged o create edit ttl now _ _ _ ((Bool.not_eq_true _).mp changed)]
    exact Tree.SameNodes.refl _

theorem prefix_iff_of_take_eq (q path : List String) (n : Nat) (same : q.take n = path.take n) :
    q <+: path ↔ q.drop n <+: path.drop n := by
  constructor
  · rintro ⟨rest, rfl⟩
    by_cases short : q.length ≤ n
    · rw [List.drop_eq_nil_of_le short]
      exact List.nil_prefix
    · rw [List.drop_append_of_le_length (by omega)]
      exact List.prefix_append _ _
  · rintro ⟨rest, h⟩
    refine ⟨rest, ?_⟩
    rw [← List.take_append_drop n path, ← h, ← same, ← List.append_assoc, List.take_append_drop]

theorem eq_iff_of_take_eq (q path : List String) (n : Nat) (same : q.take n = path.take n) :
    q = path ↔ q.drop n = path.drop n := by
  constructor
  · intro h
    rw [h]
  · intro h
    rw [← List.take_append_drop n q, same, h, List.take_append_drop]

theorem treeSection_label (path : List String) (minLevelSemaphore : Nat) (now : ℚ)
    (content : Option R) (positive : 1 ≤ o.keyLevelNodes) (deep : o.keyLevelNodes ≤ path.length)
    (q : List String) (same : q.take o.keyLevelNodes = path.take o.keyLevelNodes) :
    nodeLabel o ((treeSection o create edit ttl path minLevelSemaphore now).after content) q =
      if q <+: path then
        (nodeLabel o content q).visited o create edit ttl q (decide (q = path)) now
      else nodeLabel o content q := by
  have lengths := congrArg List.length same
  rw [List.length_take, List.length_take] at lengths
  have base : path.take o.keyLevelNodes ≠ [] := by
    intro h
    rw [List.take_eq_nil_iff] at h
    rcases h with h | h
    · omega
    · simp [h] at deep
      omega
  have whole : path.take o.keyLevelNodes ++ q.drop o.keyLevelNodes = q := by
    rw [← same, List.take_append_drop]
  have deepNode : ¬ q.length < o.keyLevelNodes := by omega
  simp only [nodeLabel, if_neg deepNode,
    (treeSection_rootTree o create edit ttl path minLevelSemaphore now content).labelAt, treeWalk]
  have iff := prefix_iff_of_take_eq q path o.keyLevelNodes same
  by_cases onPath : q <+: path
  · rw [if_pos onPath, walk_labelAt_prefix o create edit ttl now _ _ _ _ base (iff.mp onPath), whole]
    simp only [eq_iff_of_take_eq q path o.keyLevelNodes same]
  · rw [if_neg onPath]
    exact walk_labelAt_of_not_prefix o create edit ttl now _ _ _ _ fun h => onPath (iff.mpr h)

theorem treeSection_visits (path : List String) (minLevelSemaphore : Nat) (now : ℚ)
    (positive : 1 ≤ o.keyLevelNodes) (deep : o.keyLevelNodes ≤ path.length) :
    Visits o create edit path (path.take o.keyLevelNodes)
      (treeSection o create edit none path minLevelSemaphore now) := by
  have relabel := treeSection_label o create edit none path minLevelSemaphore now
  refine ⟨rfl, ?_, ?_, ?_, ?_⟩
  · intro content r rule written
    have untimed : ∀ (rest : List String) (nodeRef : ChainedObject) (tree : Tree R),
        (walk o create edit none now nodeRef tree rest).ttl = none := by
      intro rest
      induction rest with
      | nil => intro nodeRef tree; rfl
      | cons key rest ih => intro nodeRef tree; exact ih _ _
    simp only [treeSection, treeWalk, untimed, ttlRule] at written
    split at written
    · cases written
      rfl
    · cases written
  · intro content sound
    refine ⟨fun _ r stored => ?_, fun q same => ?_⟩
    · unfold Section.after treeSection at stored
      simp only at stored
      by_cases changed : (treeWalk o create edit none path now content).changed = true
      · rw [if_pos changed] at stored
        exact (decodes_encodeTree o _ (walk_wellFormed o create edit none now _ _ _
          (rootTree_wellFormed o content)) r stored).imp fun _ => And.left
      · rw [if_neg changed] at stored
        exact sound.tree (List.length_take_of_le deep) r stored
    · rw [relabel content positive deep q same]
      split
      · exact (sound.labels q same).visited create edit _ _ now
      · exact sound.labels q same
  · intro content sound q same
    rw [relabel content positive deep q same]
    split
    · exact (sound.labels q same).held_visited create edit _ _ now
    · rfl
  · intro content q r same stored
    rw [relabel content positive deep q same] at stored
    split at stored
    · exact Label.value_visited create edit o none _ _ _ now r stored
    · exact Or.inl stored

end

end TreeKeyCache
