import TreeKeyCache.BulkOrder
import TreeKeyCache.HeldEntries
import TreeKeyCache.TypedStorage

/-! # Nodes that nobody writes

With the default `minLevelSemaphore` and without a ttl, calls of `deepTreeSet` and `fullTreeSet`
write under the semaphore of the key, and leave the nodes they do not address as they find them.
So once the calls that address a node are over, the node stands, whatever else goes on and
whatever fails. -/
set_option autoImplicit false
namespace TreeKeyCache

open Prog

variable {Y T R A : Type}

/-! ## Trees -/

namespace Tree

theorem labelAt_congr {tree other : Tree R} (children : other.children = tree.children) {q : List String}
    (below : q ≠ []) : other.labelAt q = tree.labelAt q := by
  cases q with
  | nil => exact absurd rfl below
  | cons key rest =>
      rw [labelAt_cons, labelAt_cons, child_eq_lookup, child_eq_lookup, children]

theorem labelAt_put (tree below : Tree R) (key other : String) (rest : List String) :
    (tree.withChildren (some (Entries.put key (some below) (tree.children.getD [])))).labelAt
        (other :: rest) = if other = key then below.labelAt rest else tree.labelAt (other :: rest) := by
  rw [labelAt_cons, child_withChildren_put]
  split
  · rfl
  · rw [← child_eq_lookup, ← labelAt_cons]

theorem labelAt_opened (tree : Tree R) (q : List String) :
    (tree.withChildren (some (tree.children.getD []))).labelAt q = tree.labelAt q := by
  cases q with
  | nil => rw [labelAt_nil, labelAt_nil, label_withChildren]
  | cons key rest =>
      rw [labelAt_cons, labelAt_cons, child_eq_lookup, child_eq_lookup, withChildren_children]
      rfl

theorem wellFormed_congr {tree other : Tree R} (children : other.children = tree.children) :
    other.wellFormed = true ↔ tree.wellFormed = true := by
  rw [wellFormed_iff, wellFormed_iff, children]

theorem wellFormed_opened {tree top : Tree R} (wellFormed : tree.wellFormed = true) :
    (top.withChildren (some (tree.children.getD []))).wellFormed = true := by
  rw [wellFormed_iff]
  intro entries listed
  rw [withChildren_children, Option.some.injEq] at listed
  subst listed
  cases children : tree.children with
  | none => exact ⟨List.nodup_nil, fun _ _ member => (List.not_mem_nil member).elim⟩
  | some entries => exact (wellFormed_iff tree).mp wellFormed entries children

theorem labelAt_modifyAt (f : Tree R → Tree R) : ∀ (p : List String) (tree : Tree R) (q : List String),
    (∀ node r, tree.sub p = some node → q = p ++ r → (f node).labelAt r = node.labelAt r) →
      (tree.modifyAt f p).labelAt q = tree.labelAt q := by
  intro p
  induction p with
  | nil => exact fun tree q keeps => keeps tree q rfl rfl
  | cons key rest ih =>
      intro tree q keeps
      rw [modifyAt]
      cases found : tree.child key with
      | none => rfl
      | some child =>
          dsimp only
          cases q with
          | nil => rw [labelAt_nil, labelAt_nil, label_withChildren]
          | cons other more =>
              rw [labelAt_put]
              split
              · rename_i same
                subst same
                rw [labelAt_cons, found]
                refine ih child more fun node r there same => keeps node r ?_ (by rw [same]; rfl)
                rw [sub_cons, found]
                exact there
              · rfl

end Tree

theorem lookup_of_missing {entries : TreeChildren R} {key : String}
    (missing : readChild entries key = .missing) : (entries.lookup key).join = none := by
  unfold readChild at missing
  split at missing
  · cases missing
  · rename_i found
    rw [found]
    rfl
  · rename_i found
    rw [found]
    rfl

/-! ## Along a path -/

section
variable [SerializedForm R] {o : LawfulOptions T R}

theorem enrichTree_untimed {step : Step T} {current : Option R} {tree : Tree R} {now : ℚ}
    {result : Enriched R} (enriches : enrichTree o.toOptions step current tree none now none = .ok result) :
    result.tree.children = tree.children ∧ result.maxTtl = none := by
  unfold enrichTree at enriches
  rw [o.given_eq] at enriches
  cases value : step.value with
  | none =>
      simp only [value] at enriches
      obtain rfl := Except.ok.inj enriches
      exact ⟨rfl, rfl⟩
  | some v =>
      simp only [value, o.serialize_value, getTtl, stepTtl, Bind.bind, Except.bind, pure, Except.pure,
        truthyNumber_none, Bool.false_eq_true, if_false] at enriches
      split at enriches
      · split at enriches
        · obtain rfl := Except.ok.inj enriches
          exact ⟨(Tree.withDeadline_children _ _).trans (Tree.withValue_children _ _), rfl⟩
        · obtain rfl := Except.ok.inj enriches
          exact ⟨Tree.withValue_children _ _, rfl⟩
      · obtain rfl := Except.ok.inj enriches
        exact ⟨rfl, rfl⟩

variable (path : List String) (createValue : Option (CreateValue T))

theorem treeLevels_spares (now : ℚ) : ∀ (n level : Nat) (key : String) (parentRef : Option ChainedObject)
    (tree : Tree R), tree.wellFormed = true →
      (treeLevels o.toOptions path createValue none now n level key parentRef tree none).Returns
        fun result => result.maxTtl = none ∧ result.tree.wellFormed = true ∧
          ∀ q, ¬ q <+: path.drop level → result.tree.labelAt q = tree.labelAt q := by
  intro n
  induction n with
  | zero =>
      intro level key parentRef tree wellFormed
      unfold treeLevels
      refine Returns.bind returns_any fun found _ => ?_
      refine returns_ret fun result enriches => ?_
      obtain ⟨children, untimed⟩ := enrichTree_untimed enriches
      exact ⟨untimed, (Tree.wellFormed_congr children).mpr wellFormed,
        fun q off => Tree.labelAt_congr children fun none => off (none ▸ List.nil_prefix)⟩
  | succ n ih =>
      intro level key parentRef tree wellFormed
      unfold treeLevels
      refine Returns.bind returns_any fun found _ => ?_
      refine Returns.bind (P := fun here => here.tree.children = tree.children ∧ here.maxTtl = none)
        (returns_ret fun result enriches => enrichTree_untimed enriches) ?_
      rintro here ⟨children, untimed⟩
      refine Returns.bind (P := fun nextKey => path[level]? = some nextKey)
        (returns_ret fun nextKey found => ?_) fun nextKey found => ?_
      · rw [getKey] at found
        split at found
        · rename_i listed
          rw [listed, Except.ok.inj found]
        · cases found
      obtain ⟨bound, rfl⟩ := List.getElem?_eq_some_iff.mp found
      have onPath : path.drop level = path[level] :: path.drop (level + 1) :=
        List.drop_eq_getElem_cons bound
      -- what is put back under the next key shows on the path only
      have put : ∀ (below next : Tree R), (∀ q, ¬ q <+: path.drop (level + 1) →
          below.labelAt q = next.labelAt q) →
          (∀ rest, next.labelAt rest = tree.labelAt (path[level] :: rest)) → ∀ q, ¬ q <+: path.drop level →
            (here.tree.withChildren (some (Entries.put path[level] (some below)
              (here.tree.children.getD [])))).labelAt q = tree.labelAt q := by
        intro below next spares same q off
        cases q with
        | nil => exact absurd List.nil_prefix off
        | cons other rest =>
            rw [Tree.labelAt_put]
            split
            · rename_i equal
              subst equal
              rw [← same]
              refine spares rest fun onWay => off ?_
              rw [onPath]
              exact (List.prefix_cons_inj _).mpr onWay
            · exact Tree.labelAt_congr children (List.cons_ne_nil _ _)
      have above : ∀ rest, here.tree.labelAt (path[level] :: rest) = tree.labelAt (path[level] :: rest) :=
        fun rest => Tree.labelAt_congr children (List.cons_ne_nil _ _)
      have wellFormedHere := (Tree.wellFormed_congr children).mpr wellFormed
      dsimp only
      rw [untimed]
      split
      · rename_i next own
        have child : here.tree.child path[level] = some next := by
          rw [Tree.child_eq_lookup, lookup_of_readChild own]
          rfl
        refine Returns.bind (ih _ _ _ next (here.tree.wellFormed_child _ _ wellFormedHere child)) ?_
        rintro below ⟨untimedBelow, wellFormedBelow, spares⟩
        refine returns_ret fun result same => ?_
        obtain rfl := Except.ok.inj same
        refine ⟨untimedBelow, here.tree.wellFormed_withChildren_put _ _ _ wellFormedHere wellFormedBelow,
          put _ next spares fun rest => ?_⟩
        rw [← above, Tree.labelAt_cons, child]
        rfl
      · rename_i missing
        refine Returns.bind (ih _ _ _ _ Tree.wellFormed_empty) ?_
        rintro below ⟨untimedBelow, wellFormedBelow, spares⟩
        refine returns_ret fun result same => ?_
        obtain rfl := Except.ok.inj same
        refine ⟨untimedBelow, here.tree.wellFormed_withChildren_put _ _ _ wellFormedHere wellFormedBelow,
          put _ _ spares fun rest => ?_⟩
        rw [← above, Tree.labelAt_cons, Tree.child_eq_lookup, lookup_of_missing missing]
        rfl
      · refine Returns.bind (ih _ _ _ _ Tree.wellFormed_empty) ?_
        rintro below ⟨untimedBelow, _, _⟩
        refine returns_ret fun result same => ?_
        obtain rfl := Except.ok.inj same
        refine ⟨untimedBelow, Tree.wellFormed_opened wellFormedHere, fun q off => ?_⟩
        show (here.tree.withChildren _).labelAt q = _
        rw [Tree.labelAt_opened]
        exact Tree.labelAt_congr children fun none => off (none ▸ List.nil_prefix)

/-! ## The writes of a call -/

/-- A write that leaves the node at `p` as it is, unless this node is addressed. -/
def SparesNode (o : LawfulOptions T R) (p : List String) (addressed : Prop) : Change R :=
  fun key old new => ¬ addressed → key = nodeKey o p → nodeLabel o (some new) p = nodeLabel o old p

variable {path}

theorem sparesNode_tree {p : List String} {old : Option R} {decodedTree tree : Tree R}
    (decoded : decodeRoot o.toOptions old = .ok decodedTree) (wellFormed : tree.wellFormed = true)
    (deep : o.keyLevelNodes ≤ p.length)
    (same : tree.labelAt (p.drop o.keyLevelNodes) = decodedTree.labelAt (p.drop o.keyLevelNodes)) :
    nodeLabel o (some (o.encodeTree tree)) p = nodeLabel o old p := by
  have root : rootTree o old = decodedTree :=
    Except.ok.inj ((DecodesRoot.eq o ⟨decodedTree, decoded⟩).symm.trans decoded)
  rw [nodeLabel, nodeLabel, if_neg (by omega), if_neg (by omega), labelAt_encodeTree o tree wellFormed,
    root, same]

theorem decodeRoot_wellFormed {content : Option R} {tree : Tree R}
    (decoded : decodeRoot o.toOptions content = .ok tree) : tree.wellFormed = true := by
  rw [← Except.ok.inj ((DecodesRoot.eq o ⟨tree, decoded⟩).symm.trans decoded)]
  exact rootTree_wellFormed o content

theorem persistStep_sound {change : Change R} (step : Step T) (current : Option R) {key : String}
    {known : Option R} (permitted : ∀ v, change key known (o.encode v)) :
    (persistStep o.toOptions step current key none : Prog Y T R Unit).SoundInside change key known := by
  unfold persistStep
  rw [o.given_eq]
  cases step.value with
  | none => exact soundInside_ret _ _ _
  | some value =>
      simp only [o.serialize_value, Prog.ret_ok_bind]
      split
      · exact soundInside_storageSet (permitted value)
      · exact soundInside_ret _ _ _

theorem persistTree_sound {change : Change R} {key : String} {known : Option R} {tree : Tree R}
    (permitted : change key known (o.encodeTree tree)) :
    (persistTree o.toOptions key none tree : Prog Y T R Unit).SoundInside change key known := by
  unfold persistTree
  simp only [truthyNumber_none, Bool.false_eq_true, if_false, o.serialize_tree, Prog.ret_ok_bind,
    Prog.pure_eq]
  exact soundInside_storageSet permitted

/-! ## `deepTreeSet` -/

section
variable {p : List String} (properNode : ∀ key ∈ p.take o.keyLevelNodes, ProperKey key)
  (nonempty : p ≠ []) (proper : ∀ key ∈ path, ProperKey key)
include properNode nonempty proper

/-- The node belongs to the key of the first `n + 1` keys of the path. -/
theorem take_eq_of_nodeKey (positive : 1 ≤ o.keyLevelNodes) {n : Nat} (bound : n < path.length)
    (same : joinKeys (path.take (n + 1)) = nodeKey o p) : path.take (n + 1) = p.take o.keyLevelNodes := by
  refine joinKeys_injective _ _ (take_ne_nil path n bound) ?_ ?_ ?_ same
  · intro none
    have length := congrArg List.length none
    rw [List.length_take, List.length_nil] at length
    have := List.length_pos_iff.mpr nonempty
    omega
  · exact fun key member => (proper key (List.mem_of_mem_take member)).2
  · exact fun key member => (properNode key member).2

theorem keyLevel_sound (n : Nat) (bound : n < path.length)
    (above : n + 1 < o.keyLevelNodes) (cursor : Cursor) (at_n : CursorAt path n cursor) :
    (keyLevel o.toOptions path createValue none 0 cursor).Sound (SparesNode o p (p <+: path))
      fun next => CursorAt path (n + 1) next := by
  have found : path[n]? = some path[n] := List.getElem?_eq_getElem bound
  have chained := getChainedKey_prefix path n path[n] (fun key member => (proper key member).1) found
  have spares : ∀ known v, SparesNode o p (p <+: path) (joinKeys (path.take (n + 1))) known (o.encode v) := by
    intro known v off same
    have keys := take_eq_of_nodeKey properNode nonempty proper (by omega) bound same
    refine absurd ?_ off
    have length := congrArg List.length keys
    rw [List.length_take, List.length_take] at length
    have all : p.take o.keyLevelNodes = p := List.take_of_length_le (by omega)
    rw [← all, ← keys]
    exact List.take_prefix _ _
  unfold keyLevel
  rw [at_n.level, at_n.chained, chained]
  simp only [Prog.ret_ok_bind, Nat.zero_le, decide_true, if_true]
  refine (sound_storageRegister _ _).bind fun _ _ => Sound.locked (fun known => ?_) ?_
  · refine soundInside_storageGet ((quiet_ret _).soundInside returns_any fun step _ => ?_)
    refine (quiet_yieldItem _).soundInside returns_any fun value _ => ?_
    exact (persistStep_sound _ _ (spares known)).andReturn
  · refine Returns.bind returns_any fun known _ => Returns.bind returns_any fun step _ => ?_
    refine Returns.bind returns_any fun value _ => ?_
    exact Returns.bind returns_any fun _ _ => returns_ret fun next same => Except.ok.inj same ▸ ⟨rfl, rfl⟩

theorem keyLevels_sound : ∀ (count n : Nat) (cursor : Cursor),
    n + count ≤ path.length → n + count < o.keyLevelNodes → CursorAt path n cursor →
      (keyLevels o.toOptions path createValue none 0 count cursor).Sound (SparesNode o p (p <+: path))
        fun next => CursorAt path (n + count) next := by
  intro count
  induction count with
  | zero => exact fun n cursor _ _ at_n => sound_ret fun next same => Except.ok.inj same ▸ at_n
  | succ count ih =>
      intro n cursor bound above at_n
      refine (keyLevel_sound createValue properNode nonempty proper n (by omega) (by omega) cursor
        at_n).bind fun next descended => ?_
      have rest := ih (n + 1) next (by omega) (by omega) descended
      rwa [Nat.add_right_comm, Nat.add_assoc] at rest

theorem treeLevel_sound (n : Nat) (bound : n < path.length)
    (level : n + 1 = o.keyLevelNodes) (now : ℚ) (cursor : Cursor) (at_n : CursorAt path n cursor) :
    (treeLevel o.toOptions path createValue none 0 now cursor).Sound (SparesNode o p (p <+: path))
      fun _ => True := by
  have found : path[n]? = some path[n] := List.getElem?_eq_getElem bound
  have chained := getChainedKey_prefix path n path[n] (fun key member => (proper key member).1) found
  unfold treeLevel
  rw [at_n.level, at_n.chained, chained]
  simp only [Prog.ret_ok_bind, Nat.zero_le, decide_true, if_true]
  refine Sound.locked (fun known => soundInside_storageGet ?_) returns_any
  refine (quiet_ret _).soundInside (returns_ret fun tree decoded => decoded) fun rootTree decoded => ?_
  refine (treeLevels_quiet o.toOptions createValue none now _ _ _ _ _ _).soundInside
    (treeLevels_spares path createValue now _ _ _ _ _ (decodeRoot_wellFormed decoded)) ?_
  rintro result ⟨untimed, wellFormed, spares⟩
  split
  · rw [untimed]
    refine persistTree_sound fun off same => ?_
    have keys := take_eq_of_nodeKey properNode nonempty proper (by omega) bound same
    have length := congrArg List.length keys
    rw [List.length_take, List.length_take] at length
    refine sparesNode_tree decoded wellFormed (by omega) (spares _ fun onWay => off ?_)
    rw [level] at onWay keys
    rw [← List.take_append_drop o.keyLevelNodes p, ← List.take_append_drop o.keyLevelNodes path, keys]
    exact (List.prefix_append_right_inj _).mpr onWay
  · exact soundInside_ret _ _ _

theorem deepTreeSet_sound (positive : 1 ≤ o.keyLevelNodes) :
    (deepTreeSet o.toOptions path createValue none [] 0).Sound (SparesNode o p (p <+: path))
      fun _ => True := by
  unfold deepTreeSet
  refine (quiet_now.sound returns_any).bind fun now _ => ?_
  have above : 0 + min (o.keyLevelNodes - 1) path.length < o.keyLevelNodes := by omega
  have levels := keyLevels_sound createValue properNode nonempty proper
    (min (o.keyLevelNodes - 1) path.length) 0 ⟨0, none, none⟩ (by omega) above ⟨rfl, rfl⟩
  rw [Nat.zero_add] at levels
  refine levels.bind fun cursor descended => ?_
  by_cases deep : cursor.currentLevel < path.length
  · rw [if_pos deep]
    rw [descended.level] at deep
    have level : min (o.keyLevelNodes - 1) path.length = o.keyLevelNodes - 1 := by omega
    rw [level] at descended
    split
    · exact sound_ret fun _ _ => trivial
    · exact treeLevel_sound createValue properNode nonempty proper (o.keyLevelNodes - 1)
        (by omega) (by omega) now cursor descended
  · rw [if_neg deep]
    exact sound_ret fun _ _ => trivial

end

/-! ## Writing a whole tree -/

omit [SerializedForm R] in
/-- A change in an inherited object, or at a node that it leaves alike, does not show. -/
theorem labelAt_modify (memory : Memory R) (place : Place) (f : Tree R → Tree R) (q : List String)
    (keeps : place.object = none → ∀ node r, (memory none).sub place.path = some node →
      q = place.path ++ r → (f node).labelAt r = node.labelAt r) :
    (memory.modify place f none).labelAt q = (memory none).labelAt q := by
  unfold Memory.modify
  by_cases root : place.object = none
  · rw [root, Function.update_self]
    exact Tree.labelAt_modifyAt f place.path _ q (keeps root)
  · rw [Function.update_of_ne (Ne.symm root)]

omit [SerializedForm R] in
theorem wellFormed_modify (memory : Memory R) (place : Place) (f : Tree R → Tree R)
    (wellFormed : (memory none).wellFormed = true)
    (keeps : place.object = none → ∀ tree, tree.wellFormed = true → (f tree).wellFormed = true) :
    (memory.modify place f none).wellFormed = true := by
  unfold Memory.modify
  by_cases root : place.object = none
  · rw [root, Function.update_self]
    exact Tree.wellFormed_modifyAt f (keeps root) place.path _ wellFormed
  · rw [Function.update_of_ne (Ne.symm root)]
    exact wellFormed

/-- The array holds the nodes on the way, where these are in the decoded tree. -/
structure StackFollows (base : List String) (stack : Nat → Option (List String)) (st : Saving R) : Prop where
  wellFormed : (st.memory none).wellFormed = true
  onWay : ∀ level place, st.stack level = some place → place.object = none →
    ∃ p, stack level = some p ∧ place.path = p.drop base.length
  untimed : st.maxTtl = none

/-- The node at hand, where it is in the decoded tree. -/
def ComesTo (q : List String) (st : Saving R) : Prop :=
  st.currentTree.object = none → st.currentTree.path = q

omit [SerializedForm R] in
theorem StackFollows.arrive {base : List String} {stack : Nat → Option (List String)} {st : Saving R}
    (follows : StackFollows base stack st) {p : List String} {memory : Memory R} {place : Place}
    (changed : Bool) (wellFormed : (memory none).wellFormed = true)
    (here : place.object = none → place.path = p.drop base.length) :
    StackFollows base (Function.update stack p.length (some p)) { st with
      memory := memory
      currentTree := place
      stack := Function.update st.stack p.length (some place)
      changed := changed } := by
  refine ⟨wellFormed, fun level other listed root => ?_, follows.untimed⟩
  by_cases same : level = p.length
  · simp only [same, Function.update_self, Option.some.injEq] at listed ⊢
    exact ⟨p, rfl, by rw [← listed] at root ⊢; exact here root⟩
  · simp only [Function.update_of_ne same] at listed ⊢
    exact follows.onWay level other listed root

/-- One step down the decoded tree, or into an inherited object. -/
theorem enterChild_spares {base parent : List String} {key : String} {stack : Nat → Option (List String)}
    {st next : Saving R} {create : CreateValue T} {item : TraversalItem T}
    (follows : StackFollows base stack st) (under : base <+: parent)
    (above : stack parent.length = some parent) (ref : item.ref = nodeRefOf (parent ++ [key]))
    (entered : enterChild o.toOptions create item st = .ok next) :
    StackFollows base (Function.update stack (parent ++ [key]).length (some (parent ++ [key]))) next ∧
      ComesTo ((parent ++ [key]).drop base.length) next ∧
        ∀ q, q ≠ (parent ++ [key]).drop base.length →
          (next.memory none).labelAt q = (st.memory none).labelAt q := by
  have level : item.ref.level = (parent ++ [key]).length := by
    rw [ref, nodeRefOf_level _ (by simp)]
  have itemKey : item.ref.key = key := by
    rw [ref, nodeRefOf_append_singleton, ChainedObject.key_ofParent]
  have below : (parent ++ [key]).drop base.length = parent.drop base.length ++ [key] :=
    List.drop_append_of_le_length under.length_le
  have shorter : (parent ++ [key]).length - 1 = parent.length := by
    rw [List.length_append, List.length_singleton, Nat.add_sub_cancel]
  unfold enterChild at entered
  simp only [level, shorter, itemKey] at entered
  cases found : st.stack parent.length with
  | none => simp [found] at entered
  | some place =>
      have atParent : place.object = none → place.path = parent.drop base.length := by
        intro root
        obtain ⟨p, listed, path⟩ := follows.onWay _ place found root
        obtain rfl := Option.some.inj (above.symm.trans listed)
        exact path
      have child : place.object = none →
          (place.child key).path = (parent ++ [key]).drop base.length := by
        intro root
        rw [below, ← atParent root]
        rfl
      -- the node at the place, when the place is in the decoded tree
      have node : ∀ found, place.object = none → (st.memory none).sub place.path = some found →
          st.memory.nodeAt place = found := by
        intro node root there
        rw [Memory.nodeAt, root, there, Option.getD_some]
      have nodeWellFormed : place.object = none → (st.memory.nodeAt place).wellFormed = true := by
        intro root
        rw [Memory.nodeAt, root]
        cases there : (st.memory none).sub place.path with
        | none => rfl
        | some node => exact Tree.wellFormed_sub _ _ _ follows.wellFormed there
      have opened : (st.memory.modify place (fun tree => tree.withChildren
          (some ((st.memory.nodeAt place).children.getD []))) none).wellFormed = true :=
        wellFormed_modify _ _ _ follows.wellFormed fun root _ _ =>
          Tree.wellFormed_opened (nodeWellFormed root)
      have openedLabels : ∀ q, (st.memory.modify place (fun tree => tree.withChildren
          (some ((st.memory.nodeAt place).children.getD []))) none).labelAt q =
            (st.memory none).labelAt q := by
        refine fun q => labelAt_modify _ _ _ q fun root there r sub _ => ?_
        rw [node there root sub]
        exact Tree.labelAt_opened there r
      simp only [found] at entered
      split at entered
      · obtain rfl := Except.ok.inj entered
        exact ⟨follows.arrive _ opened child, child, fun q _ => openedLabels q⟩
      · obtain rfl := Except.ok.inj entered
        have elsewhere : (some key : Option String) = none →
            ([] : List String) = (parent ++ [key]).drop base.length := fun impossible => by cases impossible
        exact ⟨follows.arrive _ opened elsewhere, elsewhere, fun q _ => openedLabels q⟩
      · rename_i missing
        cases value : create item.ref with
        | error e => simp [value, Bind.bind, Except.bind] at entered
        | ok v =>
            cases made : createNode o.toOptions v with
            | error e => simp [value, made, Bind.bind, Except.bind] at entered
            | ok leaf =>
                simp only [value, o.given_eq, made, Bind.bind, Except.bind, pure, Except.pure,
                  Except.ok.injEq] at entered
                subst entered
                have bare : leaf.children = none ∧ leaf.wellFormed = true := by
                  rw [createNode_eq] at made
                  obtain rfl := Except.ok.inj made
                  exact ⟨rfl, rfl⟩
                refine ⟨follows.arrive _ ?_ child, child, fun q apart => ?_⟩
                · refine wellFormed_modify _ _ _ follows.wellFormed fun root top _ => ?_
                  exact Tree.wellFormed_withChildren_put _ top leaf key (nodeWellFormed root) bare.2
                · refine labelAt_modify _ _ _ q fun root there r sub same => ?_
                  rw [node there root sub]
                  cases r with
                  | nil => rw [Tree.labelAt_nil, Tree.labelAt_nil, Tree.label_withChildren]
                  | cons other rest =>
                      rw [Tree.labelAt_put]
                      split
                      · rename_i equal
                        subst equal
                        rw [node there root sub] at missing
                        have absent : there.child other = none := by
                          rw [Tree.child_eq_lookup, lookup_of_missing missing]
                        have deeper : rest ≠ [] := by
                          rintro rfl
                          exact apart (same.trans (child root))
                        rw [Tree.labelAt_cons, absent, Option.getD_none]
                        exact Tree.labelAt_congr bare.1 deeper
                      · rfl

theorem saveItem_spares (base p : List String) (stack : Nat → Option (List String)) {st : Saving R}
    {create : CreateValue T} {item : TraversalItem T} (now : ℚ) (rootLevel : Nat)
    (reaches : ∀ next, (if item.ref.level = rootLevel then .ok st else
      enterChild o.toOptions create item st) = .ok next → StackFollows base stack next ∧
        ComesTo (p.drop base.length) next ∧ ∀ q, q ≠ p.drop base.length →
          (next.memory none).labelAt q = (st.memory none).labelAt q) :
    (saveItem o.toOptions create none now rootLevel item st).Returns fun next =>
      StackFollows base stack next ∧ ∀ q, q ≠ p.drop base.length →
        (next.memory none).labelAt q = (st.memory none).labelAt q := by
  unfold saveItem
  refine Returns.bind (returns_ret reaches) ?_
  rintro entered ⟨follows, here, spares⟩
  refine Returns.bind returns_any fun value _ => Returns.bind returns_any fun changed _ => ?_
  cases changed with
  | none => exact returns_ret fun next same => Except.ok.inj same ▸ ⟨follows, spares⟩
  | some serialized =>
      refine returns_ret fun next same => ?_
      obtain rfl := Except.ok.inj same
      refine ⟨⟨?_, follows.onWay, follows.untimed⟩, fun q apart => Eq.trans ?_ (spares q apart)⟩
      · refine wellFormed_modify _ _ _ follows.wellFormed fun _ tree wellFormed => ?_
        exact (Tree.wellFormed_congr (Tree.withValue_children _ _)).mpr wellFormed
      · refine labelAt_modify _ _ _ q fun root node r _ equal => ?_
        refine Tree.labelAt_congr (Tree.withValue_children _ _) fun none => apart ?_
        rw [equal, none, List.append_nil, here root]

theorem saveItems_spares {base : List String} {create : CreateValue T} (now traversalNow : ℚ) :
    ∀ (nodes : List (List String × Tree T)) (stack : Nat → Option (List String)) (st : Saving R),
      StackFollows base stack st → Threaded base stack nodes →
      (∀ node ∈ nodes, base <+: node.1 ∧ base.length < node.1.length) →
        (saveItems o.toOptions create none now base.length (nodes.map (itemAt traversalNow)) st).Returns
          fun next => next.maxTtl = none ∧ (next.memory none).wellFormed = true ∧
            ∀ q, (∀ node ∈ nodes, q ≠ node.1.drop base.length) →
              (next.memory none).labelAt q = (st.memory none).labelAt q := by
  intro nodes
  induction nodes with
  | nil =>
      intro stack st follows _ _
      refine returns_ret fun next same => ?_
      obtain rfl := Except.ok.inj same
      exact ⟨follows.untimed, follows.wellFormed, fun _ _ => rfl⟩
  | cons node rest ih =>
      rintro stack st follows ⟨threaded, threadedRest⟩ below
      obtain ⟨p, tree⟩ := node
      obtain ⟨under, longer⟩ := below (p, tree) List.mem_cons_self
      obtain ⟨parent, key, rfl⟩ := exists_append_singleton p
        (List.length_pos_iff.mp (Nat.lt_of_le_of_lt (Nat.zero_le _) longer))
      have notBase : parent ++ [key] ≠ base := fun same => Nat.lt_irrefl _ (same ▸ longer)
      have above := threaded notBase
      rw [List.length_append, List.length_singleton, Nat.add_sub_cancel, List.dropLast_concat] at above
      have underParent : base <+: parent :=
        (List.prefix_concat_iff.mp under).resolve_left (Ne.symm notBase)
      have level : (itemAt traversalNow (parent ++ [key], tree)).ref.level ≠ base.length := by
        rw [itemAt, nodeRefOf_level _ (by simp)]
        exact Nat.ne_of_gt longer
      have item : (saveItem o.toOptions create none now base.length
          (itemAt traversalNow (parent ++ [key], tree)) st).Returns fun next =>
            StackFollows base (Function.update stack (parent ++ [key]).length (some (parent ++ [key]))) next ∧
              ∀ q, q ≠ (parent ++ [key]).drop base.length →
                (next.memory none).labelAt q = (st.memory none).labelAt q := by
        refine saveItem_spares base _ _ now base.length fun next entered => ?_
        rw [if_neg level] at entered
        exact enterChild_spares follows underParent above rfl entered
      unfold saveItems
      refine Returns.bind item ?_
      rintro next ⟨followsNext, spares⟩
      refine Returns.mono ?_ (ih _ next followsNext threadedRest
        fun other listed => below other (List.mem_cons_of_mem _ listed))
      rintro last ⟨untimed, wellFormed, same⟩
      refine ⟨untimed, wellFormed, fun q apart => ?_⟩
      rw [same q fun other listed => apart other (List.mem_cons_of_mem _ listed)]
      exact spares q (apart _ List.mem_cons_self)

section
variable {p : List String} (properNode : ∀ key ∈ p.take o.keyLevelNodes, ProperKey key)
  (nonempty : p ≠ []) (create : CreateValue T)

omit [SerializedForm R] in
theorem follows_start {base : List String} {tree : Tree R} (wellFormed : tree.wellFormed = true) :
    StackFollows base (Function.update (fun _ => none) base.length (some base))
      (startSaving base.length tree) := by
  refine ⟨wellFormed, fun level place listed _ => ?_, rfl⟩
  by_cases same : level = base.length
  · simp only [same, startSaving, Function.update_self, Option.some.injEq] at listed ⊢
    refine ⟨base, rfl, ?_⟩
    rw [← listed, List.drop_length]
    rfl
  · simp [startSaving, Function.update_of_ne same] at listed

theorem saveItems_listing_spares {base : List String} {tree : Tree T} (notRoot : base ≠ [])
    (wellFormed : tree.wellFormed = true) (now again : ℚ) {rootTree : Tree R}
    (wellFormedRoot : rootTree.wellFormed = true) :
    (saveItems o.toOptions create none now base.length ((listing .lifo base tree).map (itemAt again))
        (startSaving base.length rootTree)).Returns fun last => last.maxTtl = none ∧
          (last.memory none).wellFormed = true ∧
            ∀ q, tree.sub q = none → (last.memory none).labelAt q = rootTree.labelAt q := by
  obtain ⟨below, listed, long, _⟩ := listing_cons .lifo base tree
  have inTree := mem_listing .lifo base tree wellFormed
  rw [listed, List.map_cons, saveItems]
  refine Returns.bind (saveItem_spares base base
    (Function.update (fun _ => none) base.length (some base)) now base.length fun next entered => ?_) ?_
  · have level : (itemAt again (base, tree)).ref.level = base.length := nodeRefOf_level base notRoot
    rw [if_pos level] at entered
    obtain rfl := Except.ok.inj entered
    refine ⟨follows_start wellFormedRoot, fun _ => ?_, fun _ _ => rfl⟩
    rw [List.drop_length]
    rfl
  · rintro next ⟨follows, spares⟩
    have under : ∀ node ∈ below, ∃ r, node.1 = base ++ r ∧ tree.sub r = some node.2 := fun node member =>
      (inTree node.1 node.2).mp (by rw [listed]; exact List.mem_cons_of_mem _ member)
    have within : ∀ node ∈ below, base <+: node.1 ∧ base.length < node.1.length := by
      intro node member
      obtain ⟨r, path, _⟩ := under node member
      exact ⟨path ▸ List.prefix_append base r, long node member⟩
    refine Returns.mono ?_
      (saveItems_spares now again below _ next follows (threaded_listing base listed) within)
    · rintro last ⟨untimed, wellFormedLast, same⟩
      refine ⟨untimed, wellFormedLast, fun q absent => ?_⟩
      rw [same q]
      · refine spares q ?_
        rintro rfl
        rw [List.drop_length] at absent
        cases absent
      · rintro node member rfl
        obtain ⟨r, path, found⟩ := under node member
        rw [path, List.drop_left, found] at absent
        cases absent

/-- The tree under one key, walked next to a part of the input. -/
theorem saveFullTreeValue_sound {base : List String} {tree : Tree T} (notRoot : base ≠ [])
    (wellFormed : tree.wellFormed = true) (traversalNow : ℚ) {key : String} {known : Option R}
    {change : Change R}
    (permitted : ∀ decodedTree left : Tree R, decodeRoot o.toOptions known = .ok decodedTree →
      left.wellFormed = true → (∀ q, tree.sub q = none → left.labelAt q = decodedTree.labelAt q) →
        change key known (o.encodeTree left)) :
    (saveFullTreeValue o.toOptions (itemAt traversalNow (base, tree)) key create none).SoundInside
      change key known := by
  unfold saveFullTreeValue
  refine quiet_now.soundInside returns_any fun now _ => soundInside_storageGet ?_
  refine (quiet_ret _).soundInside (returns_ret fun tree decoded => decoded) fun rootTree decoded => ?_
  refine quiet_now.soundInside returns_any fun again _ => ?_
  have level : (itemAt traversalNow (base, tree)).ref.level = base.length := nodeRefOf_level base notRoot
  have items : treePreOrderDepthFirstSearch again tree (some (nodeRefOf base)) =
      (listing .lifo base tree).map (itemAt again) := treePreOrderTraversal_below .lifo again base tree notRoot
  have walked := saveItems_listing_spares (o := o) create notRoot wellFormed now again
    (decodeRoot_wellFormed decoded)
  rw [← items] at walked
  rw [level]
  refine (saveItems_quiet o.toOptions create none now _ _ _).soundInside walked ?_
  rintro last ⟨untimed, wellFormedLast, same⟩
  split
  · rw [untimed]
    exact persistTree_sound (permitted rootTree _ decoded wellFormedLast same)
  · exact soundInside_ret _ _ _

omit [SerializedForm R] in
theorem registerChildren_sound {change : Change R} {key : String} {known : Option R} {A : Type}
    {f : Unit → Prog Y T R A} (chainedKey : String) (second : (f ()).SoundInside change key known) :
    ∀ children : TreeChildren T,
      ((registerChildren chainedKey children : Prog Y T R Unit) >>= f).SoundInside change key known := by
  intro children
  induction children with
  | nil => exact second
  | cons first rest ih =>
      unfold registerChildren
      rw [Prog.bind_assoc]
      exact soundInside_storageRegister _ _ ih

include properNode nonempty

theorem fullTreeSetNode_sound {q : List String} {tree : Tree T} (notRoot : q ≠ [])
    (proper : ∀ key ∈ q, ProperKey key) (wellFormed : tree.wellFormed = true)
    (positive : 1 ≤ o.keyLevelNodes)
    {addressed : Prop} (off : ¬ addressed → ∀ r, p = q ++ r → tree.sub r = none) (traversalNow : ℚ) :
    (fullTreeSetNode o.toOptions create 0 none (itemAt traversalNow (q, tree))).Sound
      (SparesNode o p addressed) fun _ => True := by
  have key : buildKey (itemAt traversalNow (q, tree)).ref = joinKeys q := buildKey_nodeRefOf q notRoot
  have depth : (itemAt traversalNow (q, tree)).ref.level = q.length := nodeRefOf_level q notRoot
  -- the node at `p` is under this key only if it is below the node
  have keys : joinKeys q = nodeKey o p → q = p.take o.keyLevelNodes := by
    intro same
    refine joinKeys_injective q _ notRoot ?_ (fun key member => (proper key member).2)
      (fun key member => (properNode key member).2) same
    intro none
    have length := congrArg List.length none
    rw [List.length_take, List.length_nil] at length
    have := List.length_pos_iff.mpr nonempty
    omega
  unfold fullTreeSetNode
  simp only [key, depth, Nat.zero_le, decide_true, if_true]
  refine Sound.locked (fun known => ?_) returns_any
  by_cases deep : q.length = o.keyLevelNodes
  · rw [if_pos deep]
    refine saveFullTreeValue_sound create notRoot wellFormed traversalNow ?_
    intro decodedTree left decoded wellFormedLeft same apart here
    have split := keys here
    have parts : p = q ++ p.drop o.keyLevelNodes := by
      rw [split, List.take_append_drop]
    have long : o.keyLevelNodes ≤ p.length := by
      have length := congrArg List.length split
      rw [List.length_take] at length
      omega
    exact sparesNode_tree decoded wellFormedLeft long (same _ (off apart _ parts))
  · rw [if_neg deep]
    have elsewhere : ¬ addressed → joinKeys q ≠ nodeKey o p := by
      intro apart here
      have split := keys here
      have all : p.take o.keyLevelNodes = p := by
        have length := congrArg List.length split
        rw [List.length_take] at length
        exact List.take_of_length_le (by omega)
      have found := off apart [] (by rw [List.append_nil, split, all])
      cases found
    unfold saveKeyLevelValue registerKeyLevelChildren
    refine registerChildren_sound _ (soundInside_storageGet ?_) _
    refine (quiet_ret _).soundInside returns_any fun old _ => ?_
    refine (quiet_yieldItem _).soundInside returns_any fun value _ => ?_
    exact persistStep_sound _ _ fun _ apart same => (elsewhere apart same).elim

theorem fullTreeSetNodes_sound {addressed : Prop} (positive : 1 ≤ o.keyLevelNodes) (traversalNow : ℚ) :
    ∀ nodes : List (List String × Tree T),
      (∀ node ∈ nodes, node.1 ≠ [] ∧ (∀ key ∈ node.1, ProperKey key) ∧ node.2.wellFormed = true ∧
        (¬ addressed → ∀ r, p = node.1 ++ r → node.2.sub r = none)) →
      (fullTreeSetNodes o.toOptions create 0 none (nodes.map (itemAt traversalNow))).Sound
        (SparesNode o p addressed) fun _ => True := by
  intro nodes
  induction nodes with
  | nil => exact fun _ => sound_ret fun _ _ => trivial
  | cons node rest ih =>
      intro all
      obtain ⟨notRoot, proper, wellFormed, off⟩ := all node List.mem_cons_self
      rw [List.map_cons]
      unfold fullTreeSetNodes
      split
      · exact sound_ret fun _ _ => trivial
      · refine (fullTreeSetNode_sound properNode nonempty create notRoot proper wellFormed positive off
          traversalNow).bind fun _ _ => ?_
        exact ih fun other listed => all other (List.mem_cons_of_mem _ listed)

theorem fullTreeSet_sound (tree : Tree T) (wellFormed : tree.wellFormed = true)
    (proper : tree.allKeys properTest = true) (positive : 1 ≤ o.keyLevelNodes) :
    (fullTreeSet o.toOptions tree create 0 none).Sound (SparesNode o p ((tree.sub p).isSome = true))
      fun _ => True := by
  unfold fullTreeSet
  refine (quiet_now.sound returns_any).bind fun now _ => ?_
  have items : treePreOrderBreadthFirstSearch now tree none =
      ((listing .fifo [] tree).tail).map (itemAt now) := treePreOrderTraversal_whole .fifo now tree
  rw [items]
  refine fullTreeSetNodes_sound properNode nonempty create positive now _ ?_
  rintro ⟨q, node⟩ listed
  obtain ⟨notRoot, found⟩ := (mem_listing_tail .fifo wellFormed).mp listed
  refine ⟨notRoot, fun key member => ?_, Tree.wellFormed_sub q tree node wellFormed found, ?_⟩
  · have spelled := treePreOrderTraversal_spelled .fifo now tree properTest proper (itemAt now (q, node)) (by
      rw [← treePreOrderBreadthFirstSearch, items]
      exact List.mem_map_of_mem listed)
    refine of_decide_eq_true (spelled.keys key ?_)
    show key ∈ (nodeRefOf q).keys
    rwa [nodeRefOf_keys q notRoot]
  · rintro absent r rfl
    rw [Bool.not_eq_true, Option.isSome_eq_false_iff, Option.isNone_iff_eq_none, Tree.sub_append,
      found] at absent
    exact absent

end

end

/-! ## Calls under the semaphores -/

/-- A call with the default `minLevelSemaphore` and without a ttl; its consumer is free. -/
inductive LockingCall (T : Type) where
  | deepTreeSet (path : List String) (createValue : Option (CreateValue T))
  | fullTreeSet (tree : Tree T) (createValue : CreateValue T)

namespace LockingCall

/-- The call may change the node at `path`. -/
def Addresses (path : List String) : LockingCall T → Prop
  | deepTreeSet target _ => path <+: target
  | fullTreeSet tree _ => (tree.sub path).isSome = true

def Proper : LockingCall T → Prop
  | deepTreeSet target _ => ∀ key ∈ target, ProperKey key
  | fullTreeSet tree _ => tree.wellFormed = true ∧ tree.allKeys properTest = true

variable [SerializedForm R]

def thread (o : Options T R) : LockingCall T → Thread (AnyItem T R) T R
  | deepTreeSet target createValue =>
      ⟨Sum.elim Step.value fun item => item.value,
        (TreeKeyCache.deepTreeSet o target createValue none [] 0).mapItem .inl⟩
  | fullTreeSet tree createValue =>
      ⟨Sum.elim Step.value fun item => item.value,
        (TreeKeyCache.fullTreeSet o tree createValue 0 none).mapItem .inr⟩

theorem sound {o : LawfulOptions T R} (positive : 1 ≤ o.keyLevelNodes) {path : List String}
    (properPath : ∀ key ∈ path.take o.keyLevelNodes, ProperKey key) (nonempty : path ≠ [])
    (call : LockingCall T) (proper : call.Proper) :
    (call.thread o.toOptions).prog.Sound (SparesNode o path (call.Addresses path)) fun _ => True := by
  intro s idle
  cases call with
  | deepTreeSet target createValue =>
      exact (deepTreeSet_sound createValue properPath nonempty proper positive s idle).mapItem
  | fullTreeSet tree createValue =>
      exact (fullTreeSet_sound properPath nonempty createValue tree proper.1 proper.2 positive s
        idle).mapItem

end LockingCall

/-! ## The settled node -/

section
variable [SerializedForm R]

end

end TreeKeyCache
