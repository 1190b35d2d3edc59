import TreeKeyCache.Sections
import TreeKeyCache.Lookup
import TreeKeyCache.Write

/-! # The sections of a path

What `deepTreeSet` does at each storage key of its path, as a function of the
content it finds there: one node at a key level, and at the tree level a walk that
presents and enriches every node on the rest of the path. -/
set_option autoImplicit false
namespace TreeKeyCache

variable {T R : Type} [SerializedForm R]

/-- Callbacks that do not throw. -/
def pureCreate (create : Option (ChainedObject → Option T)) : Option (CreateValue T) :=
  create.map fun f nodeRef => .ok (f nodeRef)

/-- The step presented for a node that holds `serialized`. -/
def present (o : Options T R) (create : Option (ChainedObject → Option T))
    (nodeRef : ChainedObject) (serialized : Option R) : Step T :=
  mountStep nodeRef (match serialized with
    | some s => deserializeValue o s
    | none => create.bind fun f => f nodeRef)

def editStep (edit : Step T → Option T) (step : Step T) : Step T :=
  { step with value := edit step }

omit [SerializedForm R] in
theorem getStep_pureCreate (o : Options T R) (create : Option (ChainedObject → Option T))
    (nodeRef : ChainedObject) (serialized : Option R) :
    getStep o serialized nodeRef (pureCreate create) = .ok (present o create nodeRef serialized) := by
  cases serialized with
  | some s => rfl
  | none => cases create <;> rfl

omit [SerializedForm R] in
theorem getTtl_fst (ttl : Option (StepTtl T)) (step : Step T) (maxTtl : Option ℚ) :
    (getTtl ttl step maxTtl).1 = stepTtl ttl step := by
  unfold getTtl
  cases stepTtl ttl step with
  | none => rfl
  | some current =>
      simp only
      split <;> rfl

/-- A ttl of zero is no ttl. -/
def nonzero (seconds : ℚ) : Option ℚ := if seconds = 0 then none else some seconds

/-- What `persistStep` writes. -/
def stepWrites (o : LawfulOptions T R) (ttl : Option (StepTtl T)) (step : Step T)
    (content : Option R) : Option (R × TtlRule) :=
  match step.value with
  | none => none
  | some value =>
      if differs content (o.encode value) then
        some (o.encode value, .exactly (stepTtl ttl step))
      else none

omit [SerializedForm R] in
theorem tryFinally_ret_bind {Y A : Type} (a : A) (last : Prog Y T R Unit)
    (rest : A → Prog Y T R Unit) :
    ((Prog.ret (.ok a) : Prog Y T R A).tryFinally last >>= rest) = last >>= fun _ => rest a := by
  rw [Prog.tryFinally, Prog.bind_assoc]
  rfl

theorem persistStep_performs {Y A : Type} (o : LawfulOptions T R) (edit : Y → Option T)
    (valid : String → Option R → Prop) (s : Section Y R) (todo : List (Section Y R))
    (content : Option R) (ttl : Option (StepTtl T)) (step : Step T) (a : A)
    (last : Prog Y T R Unit) (rest : A → Prog Y T R Unit)
    (writes : s.writes content = stepWrites o ttl step content)
    (after : Performs edit valid (last >>= fun _ => rest a) (.stored s todo)) :
    Performs edit valid
      ((persistStep o.toOptions step content s.key ttl >>= fun _ => pure a).tryFinally last >>= rest)
      (.loaded s content [] todo) := by
  unfold persistStep
  rw [o.given_eq]
  cases hvalue : step.value with
  | none =>
      have unwritten : s.writes content = none := by rw [writes, stepWrites, hvalue]
      simp only [Prog.pure_eq, Prog.ret_ok_bind, tryFinally_ret_bind]
      exact Performs.skip s todo content _ unwritten after
  | some value =>
      simp only [o.serialize_value, Prog.ret_ok_bind, Prog.pure_eq]
      by_cases changed : differs content (o.encode value) = true
      · have written : s.writes content = some (o.encode value, .exactly (stepTtl ttl step)) := by
          rw [writes, stepWrites, hvalue]
          simp only [changed, if_true]
        simp only [changed, if_true, Prog.storageSet, Prog.set_bind, Prog.tryFinally, getTtl_fst]
        apply Performs.store s todo content _ _ _ written
        simp only [Prog.ret_ok_bind, tryFinally_ret_bind]
        exact after
      · have unwritten : s.writes content = none := by
          rw [writes, stepWrites, hvalue]
          simp only [changed, if_false, Bool.false_eq_true]
        simp only [changed, if_false, Bool.false_eq_true, Prog.ret_ok_bind, tryFinally_ret_bind]
        exact Performs.skip s todo content _ unwritten after

section
variable (o : LawfulOptions T R) (create : Option (ChainedObject → Option T))
  (edit : Step T → Option T) (ttl : Option (StepTtl T))

/-! ## Key levels -/

def keySection (path : List String) (minLevelSemaphore n : Nat) : Section (Step T) R where
  registers := [(prefixKey path n, path.getD n "")]
  key := joinKeys (path.take (n + 1))
  locked := decide (minLevelSemaphore ≤ n)
  presents content := [present o.toOptions create (nodeRefOf (path.take (n + 1))) content]
  writes content := stepWrites o ttl
    (editStep edit (present o.toOptions create (nodeRefOf (path.take (n + 1))) content)) content

/-- The cursor after `n` key levels. -/
def cursorAt (path : List String) (n : Nat) : Cursor :=
  ⟨n, prefixKey path n, chainOf (path.take n)⟩

theorem keyLevel_performs (valid : String → Option R → Prop) (path : List String)
    (minLevelSemaphore n : Nat) (keysNonempty : ∀ key ∈ path, key ≠ "") (bound : n < path.length)
    (rest : Cursor → Prog (Step T) T R Unit) (todo : List (Section (Step T) R))
    (after : Performs edit valid (rest (cursorAt path (n + 1))) (.outside todo)) :
    Performs edit valid
      (keyLevel o.toOptions path (pureCreate create) ttl minLevelSemaphore (cursorAt path n) >>= rest)
      (.outside (keySection o create edit ttl path minLevelSemaphore n :: todo)) := by
  have found : path[n]? = some path[n] := List.getElem?_eq_getElem bound
  have chained := getChainedKey_prefix path n path[n] keysNonempty found
  have here : path.getD n "" = path[n] := by simp [List.getD, found]
  have ref : ChainedObject.ofParent path[n] (n + 1) (chainOf (path.take n)) =
      nodeRefOf (path.take (n + 1)) := (nodeRefOf_take_succ path n _ found).symm
  have cursor : (⟨n + 1, some (joinKeys (path.take (n + 1))),
      some (nodeRefOf (path.take (n + 1)))⟩ : Cursor) = cursorAt path (n + 1) := by
    simp only [cursorAt, prefixKey, chainOf_eq_some _ (take_ne_nil path n bound)]
  let s : Section (Step T) R :=
    { keySection o create edit ttl path minLevelSemaphore n with registers := [] }
  -- the guarded block, after the semaphore was taken or not
  have body : ∀ last : Prog (Step T) T R Unit,
      Performs edit valid (last >>= fun _ => rest (cursorAt path (n + 1))) (.stored s todo) →
      Performs edit valid
        (Prog.tryFinally (do
            let currentSerialized ← Prog.storageGet s.key
            let step ← Prog.ret (getStep o.toOptions currentSerialized
              (nodeRefOf (path.take (n + 1))) (pureCreate create))
            let value ← Prog.yieldItem step
            persistStep o.toOptions { step with value := value } currentSerialized s.key ttl
            pure (cursorAt path (n + 1))) last >>= rest)
        (.inside s todo) := by
    intro last leaving
    apply Performs.load s todo _ rfl
    intro content _
    simp only [getStep_pureCreate, Prog.ret_ok_bind, Prog.yieldItem, Prog.yield_bind]
    apply Performs.present
    exact persistStep_performs o edit valid s todo content ttl _ _ last rest rfl leaving
  simp only [keyLevel, cursorAt] at chained ⊢
  rw [chained]
  simp only [Prog.ret_ok_bind, Prog.storageRegister, Prog.registerChild_bind, ref, cursor]
  refine Performs.register _ todo _ _ [] _ (by rw [keySection, here]) ?_
  simp only [Prog.ret_ok_bind]
  by_cases locked : minLevelSemaphore ≤ n
  · simp only [locked, decide_true, if_true, Prog.semaphoreAcquire, Prog.acquire_bind]
    apply Performs.acquire s todo _ (by simp [s, keySection, locked])
    exact body _ (Performs.release s todo _ (by simp [s, keySection, locked]) after)
  · simp only [locked, decide_false, Bool.false_eq_true, if_false, Prog.pure_eq]
    apply Performs.enter s todo _ (by simp [s, keySection, locked])
    exact body _ (Performs.leave s todo _ (by simp [s, keySection, locked]) after)

/-! ## The tree level -/

/-- `enrichTree` of a node with the ttl of its own. -/
def enriched (step : Step T) (current : Option R) (tree : Tree R) (seconds : Option ℚ)
    (now : ℚ) : Tree R × Bool :=
  match step.value with
  | none => (tree, false)
  | some value =>
      if differs current (o.encode value) then
        let valued := tree.withValue (some (o.encode value))
        if truthyNumber seconds then
          (valued.withDeadline (seconds.map fun s => now + s * 1000), true)
        else if truthyNumber tree.deadline then (valued.withDeadline none, true)
        else (valued, true)
      else (tree, false)

theorem enriched_children (step : Step T) (current : Option R) (tree : Tree R)
    (seconds : Option ℚ) (now : ℚ) :
    (enriched o step current tree seconds now).1.children = tree.children := by
  unfold enriched
  cases step.value with
  | none => rfl
  | some value =>
      simp only
      split
      · split
        · simp
        · split <;> simp
      · rfl

/-- A walk down a tree: the rewritten tree, whether it changed, the ttl of the last
node if it has one, and the steps it presented. -/
structure Walked (T R : Type) where
  tree : Tree R
  changed : Bool
  ttl : Option ℚ
  steps : List (Step T)

def walk (now : ℚ) : ChainedObject → Tree R → List String → Walked T R
  | nodeRef, tree, [] =>
      let current := getTreeCurrentSerializedValue tree now
      let step := present o.toOptions create nodeRef current
      let last := editStep edit step
      let here := enriched o last current tree (stepTtl ttl last) now
      ⟨here.1, here.2, (stepTtl ttl last).bind nonzero, [step]⟩
  | nodeRef, tree, key :: rest =>
      let current := getTreeCurrentSerializedValue tree now
      let step := present o.toOptions create nodeRef current
      let here := enriched o (editStep edit step) current tree none now
      let below := walk now (.ofParent key (nodeRef.level + 1) (some nodeRef))
        ((tree.child key).getD Tree.empty) rest
      ⟨here.1.withChildren (some (Entries.put key (some below.tree) (tree.children.getD []))),
        here.2 || (tree.child key).isNone || below.changed, below.ttl, step :: below.steps⟩

theorem enrichTree_inner (step : Step T) (current : Option R) (tree : Tree R) (now : ℚ) :
    enrichTree o.toOptions step current tree none now none =
      .ok ⟨(enriched o step current tree none now).1,
        (enriched o step current tree none now).2, none⟩ := by
  unfold enrichTree enriched
  rw [o.given_eq]
  cases step.value with
  | none => rfl
  | some value =>
      simp only [o.serialize_value, bind, Except.bind]
      by_cases changed : differs current (o.encode value) = true
      · by_cases dated : truthyNumber tree.deadline = true
        · simp [changed, dated, getTtl, stepTtl, pure, Except.pure]
        · simp [changed, dated, getTtl, stepTtl, pure, Except.pure]
      · simp [changed, pure, Except.pure]

omit [SerializedForm R] in
theorem getTtl_snd (step : Step T) :
    (getTtl ttl step none).2 = (stepTtl ttl step).bind nonzero := by
  unfold getTtl
  cases stepTtl ttl step with
  | none => rfl
  | some current =>
      by_cases zero : current = 0
      · simp [zero, nonzero]
      · simp [zero, nonzero]

theorem enrichTree_last (step : Step T) (current : Option R) (tree : Tree R) (now : ℚ)
    (seconds : Option ℚ) :
    enrichTree o.toOptions step current tree (seconds.map .seconds) now
        (seconds.bind nonzero) =
      .ok ⟨(enriched o step current tree seconds now).1,
        (enriched o step current tree seconds now).2, seconds.bind nonzero⟩ := by
  have again : getTtl (seconds.map StepTtl.seconds) step (seconds.bind nonzero) =
      (seconds, seconds.bind nonzero) := by
    cases seconds with
    | none => rfl
    | some s =>
        by_cases zero : s = 0
        · simp [getTtl, stepTtl, zero, nonzero]
        · simp [getTtl, stepTtl, zero, truthyNumber, nonzero]
  unfold enrichTree enriched
  rw [o.given_eq]
  cases step.value with
  | none => rfl
  | some value =>
      simp only [o.serialize_value, bind, Except.bind]
      by_cases changed : differs current (o.encode value) = true
      · simp only [changed, if_true, again]
        split
        · rfl
        · split <;> rfl
      · simp [changed, pure, Except.pure]

theorem treeNode_yields (now : ℚ) (nodeRef : ChainedObject) (tree : Tree R) :
    Yields edit (treeNode o.toOptions (pureCreate create) now nodeRef tree)
      [present o.toOptions create nodeRef (getTreeCurrentSerializedValue tree now)]
      (editStep edit (present o.toOptions create nodeRef (getTreeCurrentSerializedValue tree now)),
        getTreeCurrentSerializedValue tree now) := by
  simp only [treeNode, getStep_pureCreate, Prog.ret_ok_bind, Prog.yieldItem, Prog.yield_bind]
  exact Yields.yield _ _ _ _ (Yields.ret _)

theorem treeLevels_yields (path : List String) (now : ℚ)
    (plain : ∀ key ∈ path, key ∉ inheritedNames) :
    ∀ (n level : Nat) (key : String) (parentRef : Option ChainedObject) (tree : Tree R),
      level + n = path.length →
      let walked := walk o create edit ttl now (.ofParent key level parentRef) tree
        (path.drop level)
      Yields edit
        (treeLevels o.toOptions path (pureCreate create) ttl now n level key parentRef tree none)
        walked.steps ⟨walked.tree, walked.changed, walked.ttl⟩ := by
  intro n
  induction n with
  | zero =>
      intro level key parentRef tree bound
      have ended : path.drop level = [] := List.drop_eq_nil_of_le (by omega)
      simp only [ended, walk, treeLevels]
      apply Yields.bind edit _ _ [_] [] _ _ (treeNode_yields o create edit now _ tree)
      simp only [getTtl_fst, getTtl_snd, enrichTree_last]
      exact Yields.ret _
  | succ n ih =>
      intro level key parentRef tree bound
      have inBounds : level < path.length := by omega
      have split : path.drop level = path[level] :: path.drop (level + 1) :=
        List.drop_eq_getElem_cons inBounds
      have getKey_ok : getKey path level = .ok path[level] := by
        simp [getKey, List.getElem?_eq_getElem inBounds]
      have notInherited : path[level] ∉ inheritedNames := plain _ (List.getElem_mem _)
      simp only [split, walk, treeLevels]
      apply Yields.bind edit _ _ [_] _ _ _ (treeNode_yields o create edit now _ tree)
      simp only [enrichTree_inner, getKey_ok, Prog.ret_ok_bind, enriched_children,
        readChild_of_not_inherited _ _ notInherited, ChainedObject.level_ofParent]
      have childEq : tree.child path[level] =
          (List.lookup path[level] (tree.children.getD [])).join := by
        unfold Tree.child
        cases tree.children <;> rfl
      rw [← childEq]
      cases tree.child path[level] with
      | none =>
          have below := ih (level + 1) path[level] (some (.ofParent key level parentRef))
            Tree.empty (by omega)
          simp only [Option.getD_none, Option.isNone_none, Bool.or_true, Bool.true_or]
          exact Yields.map edit _ _ _ _ below
      | some child =>
          have below := ih (level + 1) path[level] (some (.ofParent key level parentRef))
            child (by omega)
          simp only [Option.getD_some, Option.isNone_some, Bool.or_false]
          exact Yields.map edit _ _ _ _ below

/-- The tree a content decodes to; an absent or falsy content is an empty tree. -/
def rootTree (content : Option R) : Tree R :=
  ((truthy? content).bind (deserializeTree o.toOptions)).getD Tree.empty

def ttlRule : Option ℚ → TtlRule
  | none => .exactly none
  | some s => .atLeast s

def treeWalk (path : List String) (now : ℚ) (content : Option R) : Walked T R :=
  walk o create edit ttl now (nodeRefOf (path.take o.keyLevelNodes)) (rootTree o content)
    (path.drop o.keyLevelNodes)

def treeSection (path : List String) (minLevelSemaphore : Nat) (now : ℚ) :
    Section (Step T) R where
  registers := []
  key := joinKeys (path.take o.keyLevelNodes)
  locked := decide (minLevelSemaphore ≤ o.keyLevelNodes)
  presents content := (treeWalk o create edit ttl path now content).steps
  writes content :=
    let walked := treeWalk o create edit ttl path now content
    if walked.changed then some (o.encodeTree walked.tree, ttlRule walked.ttl) else none

/-- The entry of a tree level key decodes. -/
def TreeEntry (key : String) (content : Option R) : Prop :=
  PlainPath (splitKey key) → (splitKey key).length = o.keyLevelNodes →
    ∀ serialized, truthy? content = some serialized →
      ∃ tree, o.treeSerializer.deserialize serialized = .ok tree

theorem persistTree_performs {Y : Type} (consumer : Y → Option T)
    (valid : String → Option R → Prop) (s : Section Y R) (todo : List (Section Y R))
    (content : Option R) (tree : Tree R) (seconds : Option ℚ) (last : Prog Y T R Unit)
    (rest : Unit → Prog Y T R Unit) (nonzeroTtl : ∀ t, seconds = some t → t ≠ 0)
    (written : s.writes content = some (o.encodeTree tree, ttlRule seconds))
    (after : Performs consumer valid (last >>= fun _ => rest ()) (.stored s todo)) :
    Performs consumer valid
      ((persistTree o.toOptions s.key seconds tree).tryFinally last >>= rest)
      (.loaded s content [] todo) := by
  unfold persistTree
  cases seconds with
  | none =>
      simp only [truthyNumber_none, Bool.false_eq_true, if_false, Prog.pure_eq, Prog.ret_ok_bind,
        o.serialize_tree, Prog.storageSet, Prog.tryFinally, Prog.set_bind]
      apply Performs.store s todo content _ _ _ written
      rw [Prog.bind_assoc]
      exact after
  | some t =>
      have truthyTtl : truthyNumber (some t) = true := by
        simp [truthyNumber, nonzeroTtl t rfl]
      simp only [truthyTtl, if_true, Prog.storageTtl, Prog.getCurrentTtl_bind, Prog.tryFinally]
      apply Performs.time s todo content _ t _ written
      intro current
      have rest : ∀ ttl : Option ℚ, Performs consumer valid
          (((Prog.ret (o.treeSerializer.serialize tree) : Prog Y T R R) >>= fun serialized =>
            Prog.storageSet s.key serialized ttl).tryFinally last >>= rest)
          (.timed s content (o.encodeTree tree) ttl todo) := by
        intro ttl
        simp only [o.serialize_tree, Prog.ret_ok_bind, Prog.storageSet, Prog.tryFinally,
          Prog.set_bind]
        refine Performs.storeTimed s todo content _ ttl _ (by rw [written]; rfl) ?_
        rw [Prog.bind_assoc]
        exact after
      cases current with
      | none => exact rest (some t)
      | some c => exact rest (some (max c t))

theorem walk_ttl_ne_zero (now : ℚ) : ∀ (keys : List String) (nodeRef : ChainedObject)
    (tree : Tree R) (t : ℚ), (walk o create edit ttl now nodeRef tree keys).ttl = some t → t ≠ 0 := by
  intro keys
  induction keys with
  | nil =>
      intro nodeRef tree t found zero
      simp only [walk, Option.bind_eq_some_iff] at found
      obtain ⟨s, _, hs⟩ := found
      unfold nonzero at hs
      split at hs
      · cases hs
      · rename_i ne
        exact ne (Option.some.inj hs ▸ zero)
  | cons key rest ih => intro nodeRef tree t found; exact ih _ _ t found

theorem decodeRoot_eq (key : String) (content : Option R) (valid : TreeEntry o key content)
    (plain : PlainPath (splitKey key)) (components : (splitKey key).length = o.keyLevelNodes) :
    decodeRoot o.toOptions content = .ok (rootTree o content) := by
  unfold decodeRoot rootTree
  cases buffer : truthy? content with
  | none => rfl
  | some serialized =>
      obtain ⟨tree, decoded⟩ := valid plain components serialized buffer
      simp [deserializeTree, decoded]

theorem treeLevel_performs (path : List String) (minLevelSemaphore : Nat) (now : ℚ) (m : Nat)
    (level : o.keyLevelNodes = m + 1) (bound : m < path.length) (plain : PlainPath path) :
    Performs edit (TreeEntry o)
      (treeLevel o.toOptions path (pureCreate create) ttl minLevelSemaphore now (cursorAt path m))
      (.outside [treeSection o create edit ttl path minLevelSemaphore now]) := by
  have found : path[m]? = some path[m] := List.getElem?_eq_getElem bound
  have chained := getChainedKey_prefix path m path[m] (fun key h => (plain key h).nonempty) found
  have ref : ChainedObject.ofParent path[m] (m + 1) (chainOf (path.take m)) =
      nodeRefOf (path.take (m + 1)) := (nodeRefOf_take_succ path m _ found).symm
  set s := treeSection o create edit ttl path minLevelSemaphore now with sDef
  have keyEq : joinKeys (path.take (m + 1)) = s.key := by rw [sDef, treeSection, level]
  have split : splitKey s.key = path.take (m + 1) := by
    rw [← keyEq, splitKey_joinKeys _ (take_ne_nil path m bound)
      fun key h => (plain key (List.mem_of_mem_take h)).colonFree]
  have plainKeys : PlainPath (splitKey s.key) := by
    rw [split]
    exact plain.take _
  have components : (splitKey s.key).length = o.keyLevelNodes := by
    rw [split, level]
    exact List.length_take_of_le (by omega)
  -- the guarded block, after the semaphore was taken or not
  have body : ∀ last : Prog (Step T) T R Unit,
      Performs edit (TreeEntry o) (last >>= fun _ => Prog.ret (.ok ())) (.stored s []) →
      Performs edit (TreeEntry o)
        (Prog.tryFinally (do
            let buffer ← Prog.storageGet s.key
            let root ← Prog.ret (decodeRoot o.toOptions buffer)
            let result ← treeLevels o.toOptions path (pureCreate create) ttl now
              (path.length - (m + 1)) (m + 1) path[m] (chainOf (path.take m)) root none
            if result.changed then persistTree o.toOptions s.key result.maxTtl result.tree
            else pure ()) last >>= fun _ => Prog.ret (.ok ()))
        (.inside s []) := by
    intro last leaving
    simp only [Prog.storageGet, Prog.get_bind, Prog.tryFinally]
    apply Performs.load s [] _ rfl
    intro content decodes
    have yields := treeLevels_yields o create edit ttl path now
      (fun key h => (plain key h).notInherited) (path.length - (m + 1)) (m + 1) path[m]
      (chainOf (path.take m)) (rootTree o content) (by omega)
    simp only [ref] at yields
    simp only [decodeRoot_eq o s.key content decodes plainKeys components, Prog.ret_ok_bind]
    set walked := walk o create edit ttl now (nodeRefOf (path.take (m + 1))) (rootTree o content)
      (path.drop (m + 1)) with walkedDef
    have presents : s.presents content = walked.steps ++ [] := by
      rw [List.append_nil, sDef, treeSection]
      simp only [treeWalk, level, walkedDef]
    have writes : s.writes content =
        if walked.changed then some (o.encodeTree walked.tree, ttlRule walked.ttl) else none := by
      rw [sDef, treeSection]
      simp only [treeWalk, level, walkedDef]
    rw [presents]
    apply Yields.performs edit (TreeEntry o) s [] content _ _ [] _ _ last _ yields
    by_cases changed : walked.changed = true
    · simp only [changed, if_true] at writes ⊢
      exact persistTree_performs o edit (TreeEntry o) s [] content _ _ last _
        (fun t => walk_ttl_ne_zero o create edit ttl now _ _ _ t) writes leaving
    · simp only [changed, Bool.false_eq_true, if_false] at writes ⊢
      rw [Prog.pure_eq, tryFinally_ret_bind]
      exact Performs.skip s [] content _ writes leaving
  simp only [treeLevel, cursorAt] at chained ⊢
  rw [chained]
  simp only [Prog.ret_ok_bind, keyEq]
  by_cases locked : minLevelSemaphore ≤ m + 1
  · have sLocked : s.locked = true := by simp [sDef, treeSection, level, locked]
    have leaving : Performs edit (TreeEntry o)
        (Prog.release s.key (Prog.ret (.ok ())) : Prog (Step T) T R Unit) (.stored s []) :=
      Performs.release s [] _ sLocked Performs.done
    simp only [locked, decide_true, if_true, Prog.semaphoreAcquire, Prog.acquire_bind]
    apply Performs.acquire s [] _ sLocked
    have inner := body (Prog.dontWait s.key) leaving
    rw [Prog.bind_ret] at inner
    exact inner
  · have sUnlocked : s.locked = false := by simp [sDef, treeSection, level, locked]
    have leaving : Performs edit (TreeEntry o)
        (Prog.ret (.ok ()) : Prog (Step T) T R Unit) (.stored s []) :=
      Performs.leave s [] _ sUnlocked Performs.done
    simp only [locked, decide_false, Bool.false_eq_true, if_false, Prog.pure_eq]
    apply Performs.enter s [] _ sUnlocked
    have inner := body (Prog.ret (.ok ())) leaving
    rw [Prog.bind_ret] at inner
    exact inner

/-! ## The whole path -/

theorem keyLevels_performs (valid : String → Option R → Prop) (path : List String)
    (minLevelSemaphore : Nat) (keysNonempty : ∀ key ∈ path, key ≠ "")
    (rest : Cursor → Prog (Step T) T R Unit) (todo : List (Section (Step T) R)) :
    ∀ n done : Nat, done + n ≤ path.length →
      Performs edit valid (rest (cursorAt path (done + n))) (.outside todo) →
      Performs edit valid
        (keyLevels o.toOptions path (pureCreate create) ttl minLevelSemaphore n
          (cursorAt path done) >>= rest)
        (.outside ((List.range' done n).map
          (keySection o create edit ttl path minLevelSemaphore) ++ todo)) := by
  intro n
  induction n with
  | zero => intro done _ after; exact after
  | succ n ih =>
      intro done bound after
      rw [show done + (n + 1) = done + 1 + n by omega] at after
      have below := ih (done + 1) (by omega) after
      simp only [keyLevels, Prog.bind_assoc, List.range'_succ, List.map_cons, List.cons_append]
      exact keyLevel_performs o create edit ttl valid path minLevelSemaphore done keysNonempty
        (by omega) _ _ below

/-- The sections of a `deepTreeSet` that read the clock at `now`. -/
def deepSections (path : List String) (minLevelSemaphore : Nat) (now : ℚ) :
    List (Section (Step T) R) :=
  (List.range (min (o.keyLevelNodes - 1) path.length)).map
      (keySection o create edit ttl path minLevelSemaphore) ++
    if o.keyLevelNodes ≤ path.length then
      [treeSection o create edit ttl path minLevelSemaphore now]
    else []

theorem keySection_mem {path : List String} {n : Nat} (keyLevel : n + 1 < o.keyLevelNodes)
    (onPath : n < path.length) (minLevelSemaphore : Nat) (now : ℚ) :
    keySection o create edit ttl path minLevelSemaphore n ∈
      deepSections o create edit ttl path minLevelSemaphore now := by
  refine List.mem_append_left _ (List.mem_map_of_mem ?_)
  exact List.mem_range.mpr (by omega)

theorem treeSection_mem {path : List String} (deep : o.keyLevelNodes ≤ path.length)
    (minLevelSemaphore : Nat) (now : ℚ) :
    treeSection o create edit ttl path minLevelSemaphore now ∈
      deepSections o create edit ttl path minLevelSemaphore now := by
  refine List.mem_append_right _ ?_
  rw [if_pos deep]
  exact List.mem_singleton_self _

theorem deepTreeSet_starts (path : List String) (minLevelSemaphore : Nat)
    (twoLevels : 2 ≤ o.keyLevelNodes) (plain : PlainPath path) :
    Starts edit (TreeEntry o)
      (deepTreeSet o.toOptions path (pureCreate create) ttl [] minLevelSemaphore)
      (deepSections o create edit ttl path minLevelSemaphore) := by
  refine ⟨_, rfl, fun now => ?_⟩
  obtain ⟨m, level⟩ : ∃ m, o.keyLevelNodes = m + 2 := ⟨o.keyLevelNodes - 2, by omega⟩
  have keysNonempty : ∀ key ∈ path, key ≠ "" := fun key h => (plain key h).nonempty
  have start : (⟨0, none, none⟩ : Cursor) = cursorAt path 0 := rfl
  simp only [List.length_nil, Nat.lt_irrefl, if_false, Nat.sub_zero, start]
  rw [deepSections, List.range_eq_range']
  apply keyLevels_performs o create edit ttl (TreeEntry o) path minLevelSemaphore keysNonempty
  · omega
  · simp only [Nat.zero_add, cursorAt]
    by_cases short : path.length < o.keyLevelNodes
    · rw [if_neg (by omega), if_neg (by omega)]
      exact Performs.done
    · have upTo : min (o.keyLevelNodes - 1) path.length = m + 1 := by omega
      have chained : ((prefixKey path (m + 1)).getD "") ≠ "" :=
        joinKeys_ne_empty _ (take_ne_nil path m (by omega)) fun key h =>
          keysNonempty key (List.mem_of_mem_take h)
      rw [upTo, if_pos (by omega), if_neg chained, if_pos (by omega)]
      exact treeLevel_performs o create edit ttl path minLevelSemaphore now (m + 1) level
        (by omega) plain

end

/-! ## `setNode` -/

omit [SerializedForm R] in
theorem forAwait_performs {Y : Type} (edit consumer : Y → Option T)
    (valid : String → Option R → Prop) (p : Prog Y T R Unit) (stage : Stage Y R)
    (performs : Performs edit valid p stage) :
    Performs consumer valid (forAwait (fun item => .ok (edit item)) p) stage.silent := by
  induction performs with
  | done => exact Performs.done
  | register s todo parent child rest k listed next ih =>
      exact Performs.register s.silent _ parent child rest _ listed ih
  | acquire s todo k locked next ih => exact Performs.acquire s.silent _ _ locked ih
  | enter s todo p unlocked next ih => exact Performs.enter s.silent _ _ unlocked ih
  | registerInside s todo parent child rest k listed next ih =>
      exact Performs.registerInside s.silent _ parent child rest _ listed ih
  | load s todo k registered next ih =>
      exact Performs.load s.silent _ _ registered fun content allowed => ih content allowed
  | present s todo content item pending k next ih => exact ih
  | store s todo content value ttl k written next ih =>
      exact Performs.store s.silent _ content value ttl _ written ih
  | time s todo content value ttl k written next ih =>
      exact Performs.time s.silent _ content value ttl _ written ih
  | storeTimed s todo content value ttl k written next ih =>
      exact Performs.storeTimed s.silent _ content value ttl _ written ih
  | skip s todo content p unwritten next ih =>
      exact Performs.skip s.silent _ content _ unwritten ih
  | release s todo k locked next ih => exact Performs.release s.silent _ _ locked ih
  | leave s todo p unlocked next ih => exact Performs.leave s.silent _ _ unlocked ih

/-- What `setNode` assigns to the items it consumes. -/
def setEdit (length : Nat) (v : T) (item : Step T) : Option T :=
  if item.level = length then some v else item.value

theorem assignAt_value (length : Nat) (v : T) :
    assignAt length (.value v) = fun item => .ok (setEdit length v item) := by
  funext item
  unfold assignAt setEdit
  split <;> rfl

theorem setNode_assigns (o : LawfulOptions T R) (path : List String) (value : NodeValue T)
    (ttl : Option (StepTtl T)) (edit : Step T → Option T)
    (assigns : assignAt path.length value = fun item => .ok (edit item)) :
    setNode o.toOptions path (some value) ttl = forAwait (fun item => .ok (edit item))
      (deepTreeSet o.toOptions path (pureCreate (some fun _ => none)) ttl [] path.length) := by
  rw [setNode_some, assigns]
  rfl

def setSections (o : LawfulOptions T R) (path : List String) (v : T) (ttl : Option (StepTtl T))
    (now : ℚ) : List (Section (Step T) R) :=
  (deepSections o (some fun _ => none) (setEdit path.length v) ttl path path.length now).map
    Section.silent

theorem setNode_starts (o : LawfulOptions T R) (consumer : Step T → Option T)
    (path : List String) (v : T) (ttl : Option (StepTtl T)) (twoLevels : 2 ≤ o.keyLevelNodes)
    (plain : PlainPath path) :
    Starts consumer (TreeEntry o) (setNode o.toOptions path (some (.value v)) ttl)
      (setSections o path v ttl) := by
  obtain ⟨k, runs, performs⟩ := deepTreeSet_starts o (some fun _ => none)
    (setEdit path.length v) ttl path path.length twoLevels plain
  refine ⟨fun now => forAwait (fun item => .ok (setEdit path.length v item)) (k now), ?_,
    fun now => forAwait_performs _ consumer _ _ _ (performs now)⟩
  rw [setNode_assigns o path (.value v) ttl _ (assignAt_value path.length v), runs, forAwait]

end TreeKeyCache
