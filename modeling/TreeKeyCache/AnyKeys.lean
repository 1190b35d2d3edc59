import TreeKeyCache.Environments
import TreeKeyCache.Nodes
import TreeKeyCache.DistinctKeys

/-! # Writing along any path

What `deepTreeSet` does alone on a storage that rejects nothing, for paths of arbitrary
keys.  At the key levels it builds its keys by `getChainedKey`.  In the tree it may come
to a name that every children object inherits: then it goes on in a shared object, and what
it writes there is not part of the tree. -/
set_option autoImplicit false
namespace TreeKeyCache

open Prog

variable {Y T R A : Type}

/-! ## Running alone -/

/-- The storage rejects nothing, no time passes, and the consumer is `body`. -/
def answering (body : Y → Except Err (Option T)) : Environment (World R) Y T R where
  dateNow w t w' := t = w.clock ∧ w' = w
  get w key answer w' := answer = .ok (w.read key) ∧ w' = w
  set w key value ttl answer w' := answer = .ok () ∧ w' = w.write key value ttl
  getCurrentTtl w key answer w' := answer = .ok (w.currentTtl key) ∧ w' = w
  registerChild w parent child answer w' := answer = .ok () ∧ w' = w.register parent child
  acquire w _ answer w' := answer = .ok () ∧ w' = w
  release w _ w' := w' = w
  yield w item answer w' := answer = body item ∧ w' = w

/-- The consumer assigns `edit item`. -/
abbrev alone (edit : Y → Option T) : Environment (World R) Y T R :=
  answering fun item => .ok (edit item)

theorem Prog.Wp.run {edit : Y → Option T} {p : Prog Y T R A} {post : World R → Except Err A → Prop}
    {w : World R} (holds : p.Wp (alone edit) post w) : post (p.run edit w).world (p.run edit w).result := by
  induction p generalizing w with
  | ret result => exact holds
  | dateNow k ih => exact ih w.clock (holds w.clock w ⟨rfl, rfl⟩)
  | get key k ih => exact ih _ (holds _ w ⟨rfl, rfl⟩)
  | set key value ttl k ih => exact ih _ (holds _ _ ⟨rfl, rfl⟩)
  | getCurrentTtl key k ih => exact ih _ (holds _ w ⟨rfl, rfl⟩)
  | registerChild parent child k ih => exact ih _ (holds _ _ ⟨rfl, rfl⟩)
  | acquire key k ih => exact ih _ (holds _ w ⟨rfl, rfl⟩)
  | release key k ih => exact ih (holds w rfl)
  | yield item k ih => exact ih _ (holds _ w ⟨rfl, rfl⟩)

/-- The program ends with `result` and leaves `w'`. -/
def Ends (w' : World R) (result : Except Err A) (after : World R) (got : Except Err A) : Prop :=
  after = w' ∧ got = result

theorem Yields.ends {edit : Y → Option T} {p : Prog Y T R A} {items : List Y} {a : A}
    (yields : Yields edit p items a) (w : World R) : p.Wp (alone edit) (Ends w (.ok a)) w := by
  induction yields with
  | ret a => exact ⟨rfl, rfl⟩
  | yield item items a k _ ih =>
      rintro answer _ ⟨rfl, rfl⟩
      exact ih

theorem Ends.then {B : Type} {body : Y → Except Err (Option T)} {p : Prog Y T R A}
    {f : A → Prog Y T R B} {w w' : World R} {a : A} {post : World R → Except Err B → Prop}
    (first : p.Wp (answering body) (Ends w' (.ok a)) w)
    (second : (f a).Wp (answering body) post w') : (p >>= f).Wp (answering body) post w := by
  refine Wp.seq (Ends w' (.ok a)) first ?_ ?_
  · rintro _ e ⟨_, same⟩
    cases same
  · rintro _ b ⟨rfl, same⟩
    obtain rfl := Except.ok.inj same
    exact second

theorem Ends.stop {B : Type} {body : Y → Except Err (Option T)} {p : Prog Y T R A}
    (f : A → Prog Y T R B) {w w' : World R} {e : Err}
    (first : p.Wp (answering body) (Ends w' (.error e)) w) :
    (p >>= f).Wp (answering body) (Ends w' (.error e)) w := by
  refine Wp.seq (Ends w' (.error e)) first ?_ ?_
  · rintro _ e' ⟨rfl, same⟩
    cases same
    exact ⟨rfl, rfl⟩
  · rintro _ b ⟨_, same⟩
    cases same

section
variable {body : Y → Except Err (Option T)} (w : World R)

theorem storageGet_ends (key : String) :
    (storageGet key : Prog Y T R (Option R)).Wp (answering body) (Ends w (.ok (w.read key))) w := by
  rintro answer _ ⟨rfl, rfl⟩
  exact ⟨rfl, rfl⟩

theorem storageTtl_ends (key : String) :
    (storageTtl key : Prog Y T R (Option ℚ)).Wp (answering body)
      (Ends w (.ok (w.currentTtl key))) w := by
  rintro answer _ ⟨rfl, rfl⟩
  exact ⟨rfl, rfl⟩

theorem storageSet_ends (key : String) (value : R) (ttl : Option ℚ) :
    (storageSet key value ttl : Prog Y T R Unit).Wp (answering body)
      (Ends (w.write key value ttl) (.ok ())) w := by
  rintro answer _ ⟨rfl, rfl⟩
  exact ⟨rfl, rfl⟩

theorem storageRegister_ends (parent : Option String) (child : String) :
    (storageRegister parent child : Prog Y T R Unit).Wp (answering body)
      (Ends (w.register parent child) (.ok ())) w := by
  rintro answer _ ⟨rfl, rfl⟩
  exact ⟨rfl, rfl⟩

theorem yieldItem_ends (item : Y) :
    (yieldItem item : Prog Y T R (Option T)).Wp (answering body) (Ends w (body item)) w := by
  rintro answer _ ⟨rfl, rfl⟩
  exact ⟨rfl, rfl⟩

end

theorem lockedSection_alone {body : Y → Except Err (Option T)} (locked : Bool) (key : String)
    {p : Prog Y T R A} {w w' : World R} {result : Except Err A}
    (inside : p.Wp (answering body) (Ends w' result) w) :
    (if locked then semaphoreAcquire key >>= fun _ =>
        p.tryFinally (if locked then dontWait key else pure ())
      else p.tryFinally (if locked then dontWait key else pure ())).Wp
        (answering body) (Ends w' result) w := by
  cases locked with
  | false => exact Wp.tryFinally inside
  | true =>
      rintro answer _ ⟨rfl, rfl⟩
      apply Wp.tryFinally
      refine inside.mono fun after got ended => ?_
      rintro _ rfl
      exact ended

section
variable [SerializedForm R] (o : LawfulOptions T R) (create : Option (ChainedObject → Option T))
  (edit : Step T → Option T) (ttl : Option (StepTtl T))

theorem persistStep_alone (body : Y → Except Err (Option T)) (step : Step T) (content : Option R)
    (key : String) (w : World R) :
    (persistStep o.toOptions step content key ttl : Prog Y T R Unit).Wp (answering body)
      (Ends (w.writeRule key (stepWrites o ttl step content)) (.ok ())) w := by
  unfold persistStep stepWrites
  rw [o.given_eq]
  cases step.value with
  | none => exact ⟨rfl, rfl⟩
  | some value =>
      simp only [o.serialize_value, Prog.ret_ok_bind]
      split
      · rw [getTtl_fst]
        exact storageSet_ends w key _ _
      · exact ⟨rfl, rfl⟩

/-! ## Key levels -/

/-- The cursor `n` levels down the path. -/
def cursorFor (path : List String) (n : Nat) : Cursor :=
  ⟨n, chainedKeyOf (path.take n), chainOf (path.take n)⟩

theorem cursorFor_currentLevel (path : List String) (n : Nat) :
    (cursorFor path n).currentLevel = n := rfl
theorem cursorFor_chainedKey (path : List String) (n : Nat) :
    (cursorFor path n).chainedKey = chainedKeyOf (path.take n) := rfl

def chainSection (path : List String) (n : Nat) : Section (Step T) R where
  registers := [(chainedKeyOf (path.take n), path.getD n "")]
  key := (chainedKeyOf (path.take (n + 1))).getD ""
  locked := false
  presents content := [present o.toOptions create (nodeRefOf (path.take (n + 1))) content]
  writes content := stepWrites o ttl
    (editStep edit (present o.toOptions create (nodeRefOf (path.take (n + 1))) content)) content

theorem keyLevel_alone (body : Step T → Except Err (Option T)) (path : List String)
    (minLevelSemaphore n : Nat) (bound : n < path.length)
    (answers : ∀ step, step.level = n + 1 → body step = .ok (edit step)) (w : World R) :
    (keyLevel o.toOptions path (pureCreate create) ttl minLevelSemaphore (cursorFor path n)).Wp
      (answering body) (Ends (w.perform (chainSection o create edit ttl path n))
        (.ok (cursorFor path (n + 1)))) w := by
  have found : path[n]? = some path[n] := List.getElem?_eq_getElem bound
  have target := chainedKeyOf_take_succ path n bound
  have ref : ChainedObject.ofParent path[n] (n + 1) (chainOf (path.take n)) =
      nodeRefOf (path.take (n + 1)) := (nodeRefOf_take_succ path n path[n] found).symm
  have chain : chainOf (path.take (n + 1)) = some (nodeRefOf (path.take (n + 1))) :=
    chainOf_eq_some _ (take_ne_nil path n bound)
  unfold keyLevel cursorFor
  simp only [getChainedKey_chainedKeyOf path n bound, Prog.pure_eq, Prog.ret_ok_bind, ref]
  rw [World.perform, chainSection, target, chain, List.getD_eq_getElem?_getD, found]
  simp only [Option.getD_some]
  generalize chainKey (chainedKeyOf (path.take n)) path[n] = key
  refine Ends.then (storageRegister_ends w _ _) ?_
  apply lockedSection_alone
  refine Ends.then (storageGet_ends _ key) ?_
  rw [getStep_pureCreate]
  simp only [Prog.ret_ok_bind]
  have level : (present o.toOptions create (nodeRefOf (path.take (n + 1)))
      ((w.register (chainedKeyOf (path.take n)) path[n]).read key)).level = n + 1 := by
    rw [← ref]
    exact ChainedObject.level_ofParent _ _ _
  have yielded := @yieldItem_ends _ _ R body (w.register (chainedKeyOf (path.take n)) path[n])
    (present o.toOptions create (nodeRefOf (path.take (n + 1)))
      ((w.register (chainedKeyOf (path.take n)) path[n]).read key))
  rw [answers _ level] at yielded
  refine Ends.then yielded ?_
  exact Ends.then (persistStep_alone o ttl body _ _ key _) ⟨rfl, rfl⟩

theorem keyLevels_alone (body : Step T → Except Err (Option T)) (path : List String)
    (minLevelSemaphore : Nat) : ∀ (count n : Nat) (w : World R), n + count ≤ path.length →
    (∀ step, step.level ≤ n + count → body step = .ok (edit step)) →
    (keyLevels o.toOptions path (pureCreate create) ttl minLevelSemaphore count (cursorFor path n)).Wp
      (answering body) (Ends (performAll w ((List.range' n count).map (chainSection o create edit ttl path)))
        (.ok (cursorFor path (n + count)))) w := by
  intro count
  induction count with
  | zero => exact fun n w _ _ => ⟨rfl, rfl⟩
  | succ count ih =>
      intro n w bound answers
      unfold keyLevels
      refine Ends.then (keyLevel_alone o create edit ttl body path minLevelSemaphore n (by omega)
        (fun step level => answers step (by omega)) w) ?_
      have rest := ih (n + 1) (w.perform (chainSection o create edit ttl path n)) (by omega)
        fun step level => answers step (by omega)
      rw [Nat.add_right_comm, Nat.add_assoc] at rest
      exact rest

/-! ## The tree level -/

omit [SerializedForm R] in
theorem child_of_own {tree child : Tree R} {key : String}
    (found : readChild (tree.children.getD []) key = .own child) : tree.child key = some child := by
  rw [Tree.child_eq_lookup]
  unfold readChild at found
  split at found
  · rename_i listed
    obtain rfl := ChildRead.own.inj found
    rw [listed]
    rfl
  · cases found
  · split at found <;> cases found

omit [SerializedForm R] in
theorem child_of_missing {tree : Tree R} {key : String}
    (found : readChild (tree.children.getD []) key = .missing) : tree.child key = none := by
  rw [Tree.child_eq_lookup]
  unfold readChild at found
  split at found
  · cases found
  · rename_i listed
    rw [listed]
    rfl
  · rename_i listed
    rw [listed]
    rfl

omit [SerializedForm R] in
theorem lookup_of_inherited {entries : TreeChildren R} {key : String}
    (found : readChild entries key = .inherited) :
    entries.lookup key = none ∧ key ∈ inheritedNames := by
  unfold readChild at found
  split at found
  · cases found
  · cases found
  · rename_i listed
    split at found
    · rename_i named
      exact ⟨listed, named⟩
    · cases found

omit [SerializedForm R] in
theorem child_of_inherited {tree : Tree R} {key : String}
    (found : readChild (tree.children.getD []) key = .inherited) : tree.child key = none := by
  rw [Tree.child_eq_lookup, (lookup_of_inherited found).1]
  rfl

/-- `walk` for any keys: below an inherited name nothing belongs to the tree. -/
def walkAny (now : ℚ) : ChainedObject → Tree R → List String → Walked T R
  | nodeRef, tree, [] => walk o create edit ttl now nodeRef tree []
  | nodeRef, tree, key :: rest =>
      let current := getTreeCurrentSerializedValue tree now
      let step := present o.toOptions create nodeRef current
      let here := enriched o (editStep edit step) current tree none now
      let entries := tree.children.getD []
      let childRef := ChainedObject.ofParent key (nodeRef.level + 1) (some nodeRef)
      match readChild entries key with
      | .own child =>
          let below := walkAny now childRef child rest
          ⟨here.1.withChildren (some (Entries.put key (some below.tree) entries)),
            here.2 || below.changed, below.ttl, step :: below.steps⟩
      | .missing =>
          let below := walkAny now childRef Tree.empty rest
          ⟨here.1.withChildren (some (Entries.put key (some below.tree) entries)), true, below.ttl,
            step :: below.steps⟩
      | .inherited =>
          let below := walkAny now childRef Tree.empty rest
          ⟨here.1.withChildren (some entries), here.2 || below.changed, below.ttl,
            step :: below.steps⟩

theorem treeLevels_any (path : List String) (now : ℚ) :
    ∀ (n level : Nat) (key : String) (parentRef : Option ChainedObject) (tree : Tree R),
      level + n = path.length →
      let walked := walkAny o create edit ttl now (.ofParent key level parentRef) tree
        (path.drop level)
      Yields edit
        (treeLevels o.toOptions path (pureCreate create) ttl now n level key parentRef tree none)
        walked.steps ⟨walked.tree, walked.changed, walked.ttl⟩ := by
  intro n
  induction n with
  | zero =>
      intro level key parentRef tree bound
      have ended : path.drop level = [] := List.drop_eq_nil_of_le (by omega)
      simp only [ended, walkAny, walk, treeLevels]
      apply Yields.bind edit _ _ [_] [] _ _ (treeNode_yields o create edit now _ tree)
      simp only [getTtl_fst, getTtl_snd, enrichTree_last]
      exact Yields.ret _
  | succ n ih =>
      intro level key parentRef tree bound
      have inBounds : level < path.length := by omega
      have split : path.drop level = path[level] :: path.drop (level + 1) :=
        List.drop_eq_getElem_cons inBounds
      have getKey_ok : getKey path level = .ok path[level] := by
        simp [getKey, List.getElem?_eq_getElem inBounds]
      simp only [split, walkAny, treeLevels]
      have below := fun child => ih (level + 1) path[level] (some (.ofParent key level parentRef))
        child (by omega)
      cases found : readChild (tree.children.getD []) path[level] with
      | own child =>
          apply Yields.bind edit _ _ [_] _ _ _ (treeNode_yields o create edit now _ tree)
          simp only [enrichTree_inner, getKey_ok, Prog.ret_ok_bind, enriched_children, found,
            ChainedObject.level_ofParent]
          exact Yields.map edit _ _ _ _ (below child)
      | inherited =>
          apply Yields.bind edit _ _ [_] _ _ _ (treeNode_yields o create edit now _ tree)
          simp only [enrichTree_inner, getKey_ok, Prog.ret_ok_bind, enriched_children, found,
            ChainedObject.level_ofParent]
          exact Yields.map edit _ _ _ _ (below Tree.empty)
      | missing =>
          apply Yields.bind edit _ _ [_] _ _ _ (treeNode_yields o create edit now _ tree)
          simp only [enrichTree_inner, getKey_ok, Prog.ret_ok_bind, enriched_children, found,
            ChainedObject.level_ofParent]
          exact Yields.map edit _ _ _ _ (below Tree.empty)

/-- The root of a walk is visited. -/
theorem walkAny_label (now : ℚ) (base rest : List String) (tree : Tree R) :
    (walkAny o create edit ttl now (nodeRefOf base) tree rest).tree.label =
      tree.label.visited o create edit ttl base (decide (rest = [])) now := by
  cases rest with
  | nil => exact enriched_label o _ tree _ now
  | cons key rest =>
      simp only [walkAny]
      split
      · rw [Tree.label_withChildren]
        exact enriched_label o _ tree _ now
      · rw [Tree.label_withChildren]
        exact enriched_label o _ tree _ now
      · rw [Tree.label_withChildren]
        exact enriched_label o _ tree _ now

/-- The walk goes on in the child that it finds or creates. -/
theorem walkAny_labelAt_cons (now : ℚ) (nodeRef : ChainedObject) (tree : Tree R) {key : String}
    (found : readChild (tree.children.getD []) key ≠ .inherited) (rest q : List String) :
    (walkAny o create edit ttl now nodeRef tree (key :: rest)).tree.labelAt (key :: q) =
      (walkAny o create edit ttl now (.ofParent key (nodeRef.level + 1) (some nodeRef))
        ((tree.child key).getD Tree.empty) rest).tree.labelAt q := by
  simp only [walkAny]
  cases read : readChild (tree.children.getD []) key with
  | own child =>
      rw [Tree.labelAt_cons, Tree.child_withChildren_put, if_pos rfl, Option.getD_some,
        child_of_own read, Option.getD_some]
  | missing =>
      rw [Tree.labelAt_cons, Tree.child_withChildren_put, if_pos rfl, Option.getD_some,
        child_of_missing read, Option.getD_none]
  | inherited => exact absurd read found

theorem walkAny_labelAt_inherited (now : ℚ) (nodeRef : ChainedObject) (tree : Tree R) {key : String}
    (found : readChild (tree.children.getD []) key = .inherited) (rest q : List String) :
    (walkAny o create edit ttl now nodeRef tree (key :: rest)).tree.labelAt (key :: q) = Label.none ∧
      tree.labelAt (key :: q) = Label.none := by
  simp only [walkAny, found]
  rw [Tree.labelAt_cons, Tree.child_eq_lookup, Tree.withChildren_children, Option.getD_some,
    (lookup_of_inherited found).1, Tree.labelAt_cons, child_of_inherited found]
  exact ⟨Tree.labelAt_empty q, Tree.labelAt_empty q⟩

theorem walkAny_labelAt_other (now : ℚ) (nodeRef : ChainedObject) (tree : Tree R) {key first : String}
    (other : key ≠ first) (rest q : List String) :
    (walkAny o create edit ttl now nodeRef tree (first :: rest)).tree.labelAt (key :: q) =
      tree.labelAt (key :: q) := by
  rw [Tree.labelAt_cons, Tree.labelAt_cons, Tree.child_eq_lookup tree]
  simp only [walkAny]
  split
  · rw [Tree.child_withChildren_put, if_neg other]
  · rw [Tree.child_withChildren_put, if_neg other]
  · rw [Tree.child_eq_lookup, Tree.withChildren_children, Option.getD_some]

theorem walkAny_wellFormed (now : ℚ) : ∀ (rest : List String) (nodeRef : ChainedObject)
    (tree : Tree R), tree.wellFormed = true →
      (walkAny o create edit ttl now nodeRef tree rest).tree.wellFormed = true := by
  intro rest
  induction rest with
  | nil => exact fun nodeRef tree => walk_wellFormed o create edit ttl now [] nodeRef tree
  | cons key rest ih =>
      intro nodeRef tree wellFormed
      simp only [walkAny]
      split
      · rename_i child found
        have childWellFormed := tree.wellFormed_child child key wellFormed (child_of_own found)
        exact tree.wellFormed_withChildren_put _ _ key wellFormed (ih _ _ childWellFormed)
      · exact tree.wellFormed_withChildren_put _ _ key wellFormed (ih _ _ Tree.wellFormed_empty)
      · rw [Tree.wellFormed_iff] at wellFormed ⊢
        intro entries listed
        rw [Tree.withChildren_children] at listed
        cases children : tree.children with
        | none =>
            rw [children] at listed
            obtain rfl := Option.some.inj listed
            exact ⟨List.nodup_nil, fun _ _ member => (nomatch member)⟩
        | some old =>
            rw [children] at listed
            obtain rfl := Option.some.inj listed
            exact wellFormed _ children

/-- An unchanged tree has the labels it had. -/
theorem walkAny_unchanged (now : ℚ) : ∀ (rest : List String) (nodeRef : ChainedObject)
    (tree : Tree R), (walkAny o create edit ttl now nodeRef tree rest).changed = false →
      ∀ q, (walkAny o create edit ttl now nodeRef tree rest).tree.labelAt q = tree.labelAt q := by
  intro rest
  induction rest with
  | nil =>
      intro nodeRef tree unchanged q
      rw [walkAny] at unchanged ⊢
      rw [walk_unchanged o create edit ttl now [] nodeRef tree unchanged]
  | cons key rest ih =>
      intro nodeRef tree unchanged q
      simp only [walkAny] at unchanged ⊢
      cases found : readChild (tree.children.getD []) key with
      | own child =>
          rw [found] at unchanged
          obtain ⟨hereSame, belowSame⟩ := Bool.or_eq_false_iff.mp unchanged
          simp only [enriched_unchanged o _ _ tree _ now hereSame]
          cases q with
          | nil => rw [Tree.labelAt_nil, Tree.label_withChildren, Tree.labelAt_nil]
          | cons first q =>
              rw [Tree.labelAt_cons, Tree.labelAt_cons, Tree.child_withChildren_put]
              by_cases same : first = key
              · rw [if_pos same, Option.getD_some, ih _ _ belowSame q, same, child_of_own found,
                  Option.getD_some]
              · rw [if_neg same, ← Tree.child_eq_lookup]
      | missing =>
          rw [found] at unchanged
          cases unchanged
      | inherited =>
          rw [found] at unchanged
          obtain ⟨hereSame, _⟩ := Bool.or_eq_false_iff.mp unchanged
          simp only [enriched_unchanged o _ _ tree _ now hereSame]
          cases q with
          | nil => rw [Tree.labelAt_nil, Tree.label_withChildren, Tree.labelAt_nil]
          | cons first q =>
              rw [Tree.labelAt_cons, Tree.labelAt_cons, Tree.child_eq_lookup,
                Tree.withChildren_children, Option.getD_some, ← Tree.child_eq_lookup]

theorem walkAny_ttl_ne_zero (now : ℚ) : ∀ (keys : List String) (nodeRef : ChainedObject)
    (tree : Tree R) (t : ℚ), (walkAny o create edit ttl now nodeRef tree keys).ttl = some t → t ≠ 0 := by
  intro keys
  induction keys with
  | nil => exact fun nodeRef tree t => walk_ttl_ne_zero o create edit ttl now [] nodeRef tree t
  | cons key rest ih =>
      intro nodeRef tree t found
      simp only [walkAny] at found
      split at found
      · exact ih _ _ t found
      · exact ih _ _ t found
      · exact ih _ _ t found

theorem persistTree_alone (edit : Y → Option T) (key : String) (seconds : Option ℚ) (tree : Tree R)
    (nonzeroTtl : ∀ t, seconds = some t → t ≠ 0) (w : World R) :
    (persistTree o.toOptions key seconds tree : Prog Y T R Unit).Wp (alone edit)
      (Ends (w.writeRule key (some (o.encodeTree tree, ttlRule seconds))) (.ok ())) w := by
  unfold persistTree
  cases seconds with
  | none =>
      simp only [truthyNumber_none, Bool.false_eq_true, if_false, Prog.pure_eq, Prog.ret_ok_bind,
        o.serialize_tree]
      exact storageSet_ends w key _ _
  | some t =>
      have truthy : truthyNumber (some t) = true := by simp [truthyNumber, nonzeroTtl t rfl]
      simp only [truthy, if_true]
      refine Ends.then (storageTtl_ends w key) ?_
      rw [World.writeRule, ttlRule]
      simp only [o.serialize_tree, Prog.pure_eq, Prog.ret_ok_bind]
      cases w.currentTtl key with
      | none => exact storageSet_ends w key _ _
      | some current => exact storageSet_ends w key _ _

def anyTreeWalk (path : List String) (now : ℚ) (content : Option R) : Walked T R :=
  walkAny o create edit ttl now (nodeRefOf (path.take o.keyLevelNodes)) (rootTree o content)
    (path.drop o.keyLevelNodes)

def anyTreeSection (path : List String) (now : ℚ) : Section (Step T) R where
  registers := []
  key := (chainedKeyOf (path.take o.keyLevelNodes)).getD ""
  locked := false
  presents content := (anyTreeWalk o create edit ttl path now content).steps
  writes content :=
    let walked := anyTreeWalk o create edit ttl path now content
    if walked.changed then some (o.encodeTree walked.tree, ttlRule walked.ttl) else none

theorem anyTreeSection_key (path : List String) (now : ℚ) (m : Nat) (level : o.keyLevelNodes = m + 1)
    (bound : m < path.length) :
    (anyTreeSection o create edit ttl path now).key =
      chainKey (chainedKeyOf (path.take m)) path[m] := by
  rw [anyTreeSection, level, chainedKeyOf_take_succ path m bound]
  rfl

/-- The content is absent or decodes. -/
def DecodesRoot (content : Option R) : Prop := ∃ tree, decodeRoot o.toOptions content = .ok tree

theorem DecodesRoot.eq {content : Option R} (decodes : DecodesRoot o content) :
    decodeRoot o.toOptions content = .ok (rootTree o content) := by
  obtain ⟨tree, decoded⟩ := decodes
  unfold decodeRoot at decoded ⊢
  unfold rootTree
  cases buffer : truthy? content with
  | none => rfl
  | some serialized =>
      rw [buffer] at decoded
      simp only at decoded
      simp only [Option.bind_some, deserializeTree, decoded, Option.getD_some]

theorem treeLevel_alone (path : List String) (minLevelSemaphore : Nat) (now : ℚ) (m : Nat)
    (level : o.keyLevelNodes = m + 1) (bound : m < path.length) (w : World R)
    (decodes : DecodesRoot o (w.read (anyTreeSection o create edit ttl path now).key)) :
    (treeLevel o.toOptions path (pureCreate create) ttl minLevelSemaphore now (cursorFor path m)).Wp
      (alone edit) (Ends (w.perform (anyTreeSection o create edit ttl path now)) (.ok ())) w := by
  have found : path[m]? = some path[m] := List.getElem?_eq_getElem bound
  have ref : ChainedObject.ofParent path[m] (m + 1) (chainOf (path.take m)) =
      nodeRefOf (path.take (m + 1)) := (nodeRefOf_take_succ path m path[m] found).symm
  have decoded := DecodesRoot.eq o decodes
  have walked := fun w : World R => (treeLevels_any o create edit ttl path now (path.length - (m + 1))
    (m + 1) path[m] (chainOf (path.take m)) (rootTree o (w.read
      (anyTreeSection o create edit ttl path now).key)) (by omega)).ends w
  rw [ref, ← level] at walked
  unfold treeLevel cursorFor
  simp only [getChainedKey_chainedKeyOf path m bound, Prog.pure_eq, Prog.ret_ok_bind]
  have key := anyTreeSection_key o create edit ttl path now m level bound
  rw [key] at decoded walked
  apply lockedSection_alone
  refine Ends.then (storageGet_ends w _) ?_
  rw [decoded]
  simp only [Prog.ret_ok_bind, ← level]
  refine Ends.then (walked w) ?_
  rw [World.perform, key]
  change Wp _ _ (Ends (World.writeRule w _ (if (anyTreeWalk o create edit ttl path now
    (w.read (chainKey (chainedKeyOf (path.take m)) path[m]))).changed then _ else none)) _) _
  have ttlNonzero := walkAny_ttl_ne_zero o create edit ttl now (path.drop o.keyLevelNodes)
    (nodeRefOf (path.take o.keyLevelNodes))
    (rootTree o (w.read (chainKey (chainedKeyOf (path.take m)) path[m])))
  change ∀ t, (anyTreeWalk o create edit ttl path now _).ttl = some t → t ≠ 0 at ttlNonzero
  change Wp _ (if (anyTreeWalk o create edit ttl path now _).changed then
    persistTree _ _ (anyTreeWalk o create edit ttl path now _).ttl
      (anyTreeWalk o create edit ttl path now _).tree else _) _ _
  generalize anyTreeWalk o create edit ttl path now
    (w.read (chainKey (chainedKeyOf (path.take m)) path[m])) = result at ttlNonzero ⊢
  split
  · exact persistTree_alone o edit _ _ _ ttlNonzero w
  · exact ⟨rfl, rfl⟩

theorem treeLevel_undecodable (path : List String) (minLevelSemaphore : Nat) (now : ℚ) (m : Nat)
    (level : o.keyLevelNodes = m + 1) (bound : m < path.length) (w : World R)
    (undecodable : ¬ DecodesRoot o (w.read (anyTreeSection o create edit ttl path now).key)) :
    (treeLevel o.toOptions path (pureCreate create) ttl minLevelSemaphore now (cursorFor path m)).Wp
      (alone edit) (fun w' got => w' = w ∧ got ≠ .ok ()) w := by
  unfold treeLevel cursorFor
  simp only [getChainedKey_chainedKeyOf path m bound, Prog.pure_eq, Prog.ret_ok_bind]
  rw [anyTreeSection_key o create edit ttl path now m level bound] at undecodable
  cases decoded : decodeRoot o.toOptions (w.read (chainKey (chainedKeyOf (path.take m)) path[m])) with
  | ok tree => exact absurd ⟨tree, decoded⟩ undecodable
  | error e =>
      have failed : ∀ w' got, Ends w (.error e : Except Err Unit) w' got → w' = w ∧ got ≠ .ok () := by
        intro w' got ended
        rw [ended.2]
        exact ⟨ended.1, fun same => (nomatch same)⟩
      refine Wp.mono failed (lockedSection_alone _ _ ?_)
      refine Ends.then (storageGet_ends w _) ?_
      rw [decoded]
      exact ⟨rfl, rfl⟩

/-- The tree level is reached: the keys above it give a chained key that is not empty. -/
def ReachesTree (path : List String) : Prop :=
  o.keyLevelNodes ≤ path.length ∧ (chainedKeyOf (path.take (o.keyLevelNodes - 1))).getD "" ≠ ""

instance (path : List String) : Decidable (ReachesTree o path) :=
  inferInstanceAs (Decidable (_ ∧ _))

theorem keyLevelNodes_pos {path : List String} (reached : ReachesTree o path) :
    1 ≤ o.keyLevelNodes := by
  by_contra none
  have zero : o.keyLevelNodes - 1 = 0 := by omega
  have notEmpty := reached.2
  rw [zero] at notEmpty
  exact notEmpty rfl

open Classical in
/-- The sections of a call: the tree level fails when the entry there does not decode. -/
noncomputable def anySections (path : List String) (w : World R) : List (Section (Step T) R) :=
  let keys := (List.range (min (o.keyLevelNodes - 1) path.length)).map
    (chainSection o create edit ttl path)
  let tree := anyTreeSection o create edit ttl path w.clock
  keys ++ if ReachesTree o path ∧ DecodesRoot o ((performAll w keys).read tree.key) then [tree] else []

/-- The call performed its sections, and it returned unless its path is long enough and the tree
was not one of them. -/
structure PerformedCall (path : List String) (w w' : World R) (got : Except Err Unit) : Prop where
  performed : w' = performAll w (anySections o create edit ttl path w)
  listed : got = .ok () → ReachesTree o path →
    anyTreeSection o create edit ttl path w.clock ∈ anySections o create edit ttl path w
  returns : (o.keyLevelNodes ≤ path.length →
    anyTreeSection o create edit ttl path w.clock ∈ anySections o create edit ttl path w) →
      got = .ok ()

theorem anyTreeSection_not_chain (path : List String) (now : ℚ) (count : Nat) :
    anyTreeSection o create edit ttl path now ∉
      (List.range count).map (chainSection o create edit ttl path) := by
  intro listed
  obtain ⟨n, _, same⟩ := List.mem_map.mp listed
  cases congrArg Section.registers same

theorem deepTreeSet_alone (path : List String) (minLevelSemaphore : Nat) (w : World R) :
    (deepTreeSet o.toOptions path (pureCreate create) ttl [] minLevelSemaphore).Wp (alone edit)
      (PerformedCall o create edit ttl path w) w := by
  have levels := keyLevels_alone o create edit ttl (fun step => .ok (edit step)) path
    minLevelSemaphore (min (o.keyLevelNodes - 1) path.length) 0 w (by omega) fun _ _ => rfl
  rw [Nat.zero_add, ← List.range_eq_range'] at levels
  have unchained := anyTreeSection_not_chain o create edit ttl path w.clock
    (min (o.keyLevelNodes - 1) path.length)
  unfold deepTreeSet
  intro now w' answered
  obtain ⟨timed, same⟩ := answered
  rw [timed, same]
  refine Ends.then (p := keyLevels _ _ _ _ _ _ _) levels ?_
  refine Wp.mono (fun w' got ended => ?_) (?_ : Wp _ _ (fun w' got =>
    w' = performAll w (anySections o create edit ttl path w) ∧
      (got = .ok () → ReachesTree o path →
        anyTreeSection o create edit ttl path w.clock ∈ anySections o create edit ttl path w) ∧
      ((o.keyLevelNodes ≤ path.length →
        anyTreeSection o create edit ttl path w.clock ∈ anySections o create edit ttl path w) →
          got = .ok ())) _)
  · exact ⟨ended.1, ended.2.1, ended.2.2⟩
  rw [anySections, performAll_append]
  generalize keyed : (List.range (min (o.keyLevelNodes - 1) path.length)).map
    (chainSection o create edit ttl path) = keys at unchained ⊢
  simp only [List.mem_append, unchained, false_or]
  rw [cursorFor_currentLevel, cursorFor_chainedKey]
  by_cases deep : min (o.keyLevelNodes - 1) path.length < path.length
  · have level : min (o.keyLevelNodes - 1) path.length = o.keyLevelNodes - 1 := by omega
    rw [if_pos deep, level]
    by_cases started : (chainedKeyOf (path.take (o.keyLevelNodes - 1))).getD "" = ""
    · rw [if_pos started, if_neg fun reached => reached.1.2 started]
      exact ⟨rfl, fun _ reached => absurd started reached.2,
        fun listed => absurd (listed (by omega)) List.not_mem_nil⟩
    · have reaches : ReachesTree o path := ⟨by omega, started⟩
      have positive := keyLevelNodes_pos o reaches
      rw [if_neg started]
      by_cases decodes : DecodesRoot o ((performAll w keys).read
          (anyTreeSection o create edit ttl path w.clock).key)
      · rw [if_pos ⟨reaches, decodes⟩]
        exact (treeLevel_alone o create edit ttl path minLevelSemaphore w.clock
          (o.keyLevelNodes - 1) (by omega) (by omega) (performAll w keys) decodes).mono
            fun w' got ended => ⟨ended.1, fun _ _ => List.mem_singleton_self _, fun _ => ended.2⟩
      · rw [if_neg fun both => decodes both.2]
        exact (treeLevel_undecodable o create edit ttl path minLevelSemaphore w.clock
          (o.keyLevelNodes - 1) (by omega) (by omega) (performAll w keys) decodes).mono
            fun w' got ended => ⟨ended.1, fun ok => absurd ok ended.2,
              fun listed => absurd (listed (by omega)) List.not_mem_nil⟩
  · have unreached : ¬ ReachesTree o path := by
      intro reached
      have long := reached.1
      have notEmpty := reached.2
      have none : o.keyLevelNodes - 1 = 0 := by omega
      rw [none] at notEmpty
      exact notEmpty rfl
    rw [if_neg deep, if_neg fun both => unreached both.1]
    exact ⟨rfl, fun _ reached => absurd reached unreached, fun _ => rfl⟩

theorem setNode_alone (consumer : Step T → Option T) (path : List String) (v : T) (w : World R) :
    PerformedCall o (some fun _ => none) (setEdit path.length v) ttl path w
      ((setNode o.toOptions path (some (.value v)) ttl).run consumer w).world
      ((setNode o.toOptions path (some (.value v)) ttl).run consumer w).result := by
  have body := assignAt_value path.length v
  apply Prog.Wp.run
  rw [setNode_some, body]
  exact Wp.forAwait (deepTreeSet_alone o (some fun _ => none) (setEdit path.length v) ttl path
    path.length w)

end

/-! ## A consumer that throws

The consumer lets every node above the last one pass and throws at the last one.  Then the
levels above have performed their sections, and the last key is written to no more. -/

section
variable [SerializedForm R] (o : LawfulOptions T R) (create : Option (ChainedObject → Option T))
  (edit : Step T → Option T) (ttl : Option (StepTtl T)) (body : Step T → Except Err (Option T))
  (e : Err) (path : List String) (minLevelSemaphore : Nat)

theorem keyLevel_throws (n : Nat) (bound : n < path.length)
    (throws : ∀ step, step.level = n + 1 → body step = .error e) (w : World R) :
    (keyLevel o.toOptions path (pureCreate create) ttl minLevelSemaphore (cursorFor path n)).Wp
      (answering body) (Ends (w.register (chainedKeyOf (path.take n)) path[n]) (.error e)) w := by
  unfold keyLevel cursorFor
  simp only [getChainedKey_chainedKeyOf path n bound, Prog.pure_eq, Prog.ret_ok_bind]
  refine Ends.then (storageRegister_ends w _ _) ?_
  apply lockedSection_alone
  refine Ends.then (storageGet_ends _ _) ?_
  rw [getStep_pureCreate]
  simp only [Prog.ret_ok_bind]
  apply Ends.stop
  generalize presented : present o.toOptions create (ChainedObject.ofParent path[n] (n + 1)
    (chainOf (path.take n))) _ = step
  have level : step.level = n + 1 := by
    rw [← presented]
    exact ChainedObject.level_ofParent _ _ _
  rw [← throws step level]
  exact yieldItem_ends _ _

theorem keyLevels_throw (answers : ∀ step, step.level < path.length → body step = .ok (edit step))
    (throws : ∀ step, step.level = path.length → body step = .error e) : ∀ (count n : Nat)
    (w : World R) (last : n + count + 1 = path.length),
    (keyLevels o.toOptions path (pureCreate create) ttl minLevelSemaphore (count + 1)
        (cursorFor path n)).Wp (answering body)
      (Ends ((performAll w ((List.range' n count).map (chainSection o create edit ttl path))).register
        (chainedKeyOf (path.take (n + count))) (path.get ⟨n + count, by omega⟩)) (.error e)) w := by
  intro count
  induction count with
  | zero =>
      intro n w last
      unfold keyLevels
      exact Ends.stop _ (keyLevel_throws o create ttl body e path minLevelSemaphore n (by omega)
        (fun step level => throws step (by omega)) w)
  | succ count ih =>
      intro n w last
      unfold keyLevels
      refine Ends.then (keyLevel_alone o create edit ttl body path minLevelSemaphore n (by omega)
        (fun step level => answers step (by omega)) w) ?_
      have rest := ih (n + 1) (w.perform (chainSection o create edit ttl path n)) (by omega)
      simp only [Nat.add_right_comm n 1 count] at rest
      exact rest

theorem treeNode_ends (now : ℚ) (nodeRef : ChainedObject) (tree : Tree R) (w : World R)
    (answers : ∀ step, step.level = nodeRef.level → body step = .ok (edit step)) :
    (treeNode o.toOptions (pureCreate create) now nodeRef tree).Wp (answering body)
      (Ends w (.ok (editStep edit (present o.toOptions create nodeRef
        (getTreeCurrentSerializedValue tree now)), getTreeCurrentSerializedValue tree now))) w := by
  simp only [treeNode, getStep_pureCreate, Prog.ret_ok_bind]
  rintro answer _ ⟨rfl, rfl⟩
  rw [answers _ rfl]
  exact ⟨rfl, rfl⟩

theorem treeNode_throws (now : ℚ) (nodeRef : ChainedObject) (tree : Tree R) (w : World R)
    (throws : ∀ step, step.level = nodeRef.level → body step = .error e) :
    (treeNode o.toOptions (pureCreate create) now nodeRef tree).Wp (answering body)
      (Ends w (.error e)) w := by
  simp only [treeNode, getStep_pureCreate, Prog.ret_ok_bind]
  rintro answer _ ⟨rfl, rfl⟩
  rw [throws _ rfl]
  exact ⟨rfl, rfl⟩

theorem treeLevels_throw (now : ℚ) (w : World R)
    (answers : ∀ step, step.level < path.length → body step = .ok (edit step))
    (throws : ∀ step, step.level = path.length → body step = .error e) :
    ∀ (n level : Nat) (key : String) (parentRef : Option ChainedObject) (tree : Tree R),
      level + n = path.length →
      (treeLevels o.toOptions path (pureCreate create) ttl now n level key parentRef tree none).Wp
        (answering body) (Ends w (.error e)) w := by
  intro n
  induction n with
  | zero =>
      intro level key parentRef tree last
      unfold treeLevels
      refine Ends.stop _ (treeNode_throws o create body e now _ tree w fun step same => ?_)
      exact throws step (by rw [same, ChainedObject.level_ofParent]; omega)
  | succ n ih =>
      intro level key parentRef tree last
      have getKey_ok : getKey path level = .ok path[level] := by
        simp [getKey, List.getElem?_eq_getElem (show level < path.length by omega)]
      unfold treeLevels
      refine Ends.then (treeNode_ends o create edit body now _ tree w fun step same => ?_) ?_
      · exact answers step (by rw [same, ChainedObject.level_ofParent]; omega)
      · simp only [enrichTree_inner, getKey_ok, Prog.ret_ok_bind]
        split
        · exact Ends.stop _ (ih _ _ _ _ (by omega))
        · exact Ends.stop _ (ih _ _ _ _ (by omega))
        · exact Ends.stop _ (ih _ _ _ _ (by omega))

/-- The sections of the levels above the last key. -/
def sectionsAbove : List (Section (Step T) R) :=
  (List.range (min (o.keyLevelNodes - 1) (path.length - 1))).map
    (chainSection o create edit ttl path)

/-- The sections of `todo` are performed, and at most one more child is registered. -/
def PerformedAbove (todo : List (Section (Step T) R)) (w w' : World R) : Prop :=
  w' = performAll w todo ∨ ∃ parent child, w' = (performAll w todo).register parent child

theorem treeLevel_throws (now : ℚ) (m : Nat) (level : o.keyLevelNodes = m + 1) (bound : m < path.length)
    (w : World R)
    (answers : ∀ step, step.level < path.length → body step = .ok (edit step))
    (throws : ∀ step, step.level = path.length → body step = .error e)
    (decodes : DecodesRoot o (w.read (anyTreeSection o create edit ttl path now).key)) :
    (treeLevel o.toOptions path (pureCreate create) ttl minLevelSemaphore now (cursorFor path m)).Wp
      (answering body) (Ends w (.error e)) w := by
  rw [anyTreeSection_key o create edit ttl path now m level bound] at decodes
  have root := DecodesRoot.eq o decodes
  unfold treeLevel cursorFor
  simp only [getChainedKey_chainedKeyOf path m bound, Prog.pure_eq, Prog.ret_ok_bind]
  apply lockedSection_alone
  refine Ends.then (storageGet_ends _ _) ?_
  rw [root]
  simp only [Prog.ret_ok_bind]
  exact Ends.stop _ (treeLevels_throw o create edit ttl body e path now w answers throws _ _ _ _ _
    (by omega))

theorem deepTreeSet_throws_above (nonempty : path ≠ []) (short : path.length < o.keyLevelNodes)
    (answers : ∀ step, step.level < path.length → body step = .ok (edit step))
    (throws : ∀ step, step.level = path.length → body step = .error e) (w : World R) :
    (deepTreeSet o.toOptions path (pureCreate create) ttl [] minLevelSemaphore).Wp (answering body)
      (fun w' got => got = .error e ∧
        PerformedAbove (sectionsAbove o create edit ttl path) w w') w := by
  have length := List.length_pos_iff.mpr nonempty
  have upTo : min (o.keyLevelNodes - 1) path.length - ([] : List String).length =
      path.length - 1 + 1 := by
    rw [List.length_nil]
    omega
  have levels := keyLevels_throw o create edit ttl body e path minLevelSemaphore answers throws
    (path.length - 1) 0 w (by omega)
  rw [← List.range_eq_range'] at levels
  rw [sectionsAbove, show min (o.keyLevelNodes - 1) (path.length - 1) = path.length - 1 by omega]
  unfold deepTreeSet
  rintro now w' ⟨rfl, rfl⟩
  refine Wp.mono ?_ (Ends.stop (p := keyLevels _ _ _ _ _ _ _) _ (upTo ▸ levels))
  exact fun w' got ended => ⟨ended.2, Or.inr ⟨_, _, ended.1⟩⟩

theorem deepTreeSet_throws_in_tree
    (answers : ∀ step, step.level < path.length → body step = .ok (edit step))
    (throws : ∀ step, step.level = path.length → body step = .error e) (w : World R)
    (reached : ReachesTree o path)
    (decodes : DecodesRoot o ((performAll w (sectionsAbove o create edit ttl path)).read
      (anyTreeSection o create edit ttl path w.clock).key)) :
    (deepTreeSet o.toOptions path (pureCreate create) ttl [] minLevelSemaphore).Wp (answering body)
      (fun w' got => got = .error e ∧
        PerformedAbove (sectionsAbove o create edit ttl path) w w') w := by
  have deep := reached.1
  have positive := keyLevelNodes_pos o reached
  have levels := keyLevels_alone o create edit ttl body path minLevelSemaphore
    (o.keyLevelNodes - 1) 0 w (by omega) fun step below => answers step (by omega)
  rw [Nat.zero_add, ← List.range_eq_range'] at levels
  have upTo : min (o.keyLevelNodes - 1) path.length - ([] : List String).length =
      o.keyLevelNodes - 1 := by
    rw [List.length_nil]
    omega
  have above : sectionsAbove o create edit ttl path = (List.range (o.keyLevelNodes - 1)).map
      (chainSection o create edit ttl path) := by
    rw [sectionsAbove, show min (o.keyLevelNodes - 1) (path.length - 1) = o.keyLevelNodes - 1 by
      omega]
  have first : (keyLevels o.toOptions path (pureCreate create) ttl minLevelSemaphore
      (min (o.keyLevelNodes - 1) path.length - ([] : List String).length) (cursorFor path 0)).Wp
        (answering body) (Ends (performAll w ((List.range (o.keyLevelNodes - 1)).map
          (chainSection o create edit ttl path))) (.ok (cursorFor path (o.keyLevelNodes - 1)))) w := by
    rw [upTo]
    exact levels
  rw [above] at decodes ⊢
  unfold deepTreeSet
  rintro now w' ⟨rfl, rfl⟩
  refine Ends.then (p := keyLevels _ _ _ _ _ _ _) first ?_
  rw [cursorFor_currentLevel, cursorFor_chainedKey, if_pos (by omega), if_neg reached.2]
  exact (treeLevel_throws o create edit ttl body e path minLevelSemaphore _ (o.keyLevelNodes - 1)
    (by omega) (by omega) _ answers throws decodes).mono fun w' got ended =>
      ⟨ended.2, Or.inl ended.1⟩

theorem deepTreeSet_throws (nonempty : path ≠ [])
    (answers : ∀ step, step.level < path.length → body step = .ok (edit step))
    (throws : ∀ step, step.level = path.length → body step = .error e) (w : World R)
    (reached : o.keyLevelNodes ≤ path.length → ReachesTree o path)
    (decodes : o.keyLevelNodes ≤ path.length → DecodesRoot o ((performAll w
      (sectionsAbove o create edit ttl path)).read
        (anyTreeSection o create edit ttl path w.clock).key)) :
    (deepTreeSet o.toOptions path (pureCreate create) ttl [] minLevelSemaphore).Wp (answering body)
      (fun w' got => got = .error e ∧
        PerformedAbove (sectionsAbove o create edit ttl path) w w') w := by
  by_cases short : path.length < o.keyLevelNodes
  · exact deepTreeSet_throws_above o create edit ttl body e path minLevelSemaphore nonempty short
      answers throws w
  · have deep : o.keyLevelNodes ≤ path.length := by omega
    exact deepTreeSet_throws_in_tree o create edit ttl body e path minLevelSemaphore answers throws w
      (reached deep) (decodes deep)

/-- `setNode` with a callback that throws. -/
theorem setNode_throws (consumer : Step T → Option T) (nonempty : path ≠ []) (w : World R)
    (reached : o.keyLevelNodes ≤ path.length → ReachesTree o path)
    (decodes : o.keyLevelNodes ≤ path.length → DecodesRoot o ((performAll w
      (sectionsAbove o (some fun _ => none) Step.value ttl path)).read
        (anyTreeSection o (some fun _ => none) Step.value ttl path w.clock).key)) :
    let outcome := (setNode o.toOptions path (some (.callback (.error e))) ttl).run consumer w
    outcome.result = .error e ∧
      PerformedAbove (sectionsAbove o (some fun _ => none) Step.value ttl path) w outcome.world := by
  refine Prog.Wp.run (?_ : Wp _ _ (fun w' got => got = .error e ∧
    PerformedAbove (sectionsAbove o (some fun _ => none) Step.value ttl path) w w') _)
  rw [setNode_some]
  apply Wp.forAwait
  refine deepTreeSet_throws o (some fun _ => none) Step.value ttl
    (assignAt path.length (.callback (.error e))) e path path.length nonempty ?_ ?_ w reached decodes
  · intro step above
    rw [assignAt, if_neg (by omega)]
  · intro step last
    rw [assignAt, if_pos last]

end

end TreeKeyCache
