import TreeKeyCache.InheritedKeys
import TreeKeyCache.KeyLifetimes

/-! # The ttl of each node

`deepTreeSet` asks for the ttl of a step at the key levels and at its last node.  The loop over
the inner nodes of the tree declares a variable for it, but never sets it: a node that changes
there loses its deadline. -/
set_option autoImplicit false
namespace TreeKeyCache

variable {Y T R A B : Type}

/-! ## What the storage is handed -/

/-- What `storage.set` is called with. -/
structure SetArguments (R : Type) where
  key : String
  value : R
  ttl : Option ℚ

namespace Prog

/-- The calls of `storage.set` of a program that runs alone. -/
def sets (edit : Y → Option T) : Prog Y T R A → World R → List (SetArguments R)
  | ret _, _ => []
  | dateNow k, w => (k w.clock).sets edit w
  | get key k, w => (k (.ok (w.read key))).sets edit w
  | set key v ttl k, w => ⟨key, v, ttl⟩ :: (k (.ok ())).sets edit (w.write key v ttl)
  | getCurrentTtl key k, w => (k (.ok (w.currentTtl key))).sets edit w
  | registerChild p c k, w => (k (.ok ())).sets edit (w.register p c)
  | acquire _ k, w => (k (.ok ())).sets edit w
  | release _ k, w => k.sets edit w
  | yield y k, w => (k (.ok (edit y))).sets edit w

variable {edit : Y → Option T} {call : SetArguments R}

theorem sets_bind_left {p : Prog Y T R A} (f : A → Prog Y T R B) : ∀ {w : World R},
    call ∈ p.sets edit w → call ∈ (p >>= f).sets edit w := by
  induction p with
  | ret result =>
      intro w listed
      cases listed
  | dateNow k ih => exact fun {w} listed => ih _ listed
  | get key k ih => exact fun {w} listed => ih _ listed
  | set key v ttl k ih =>
      intro w listed
      rcases List.mem_cons.mp listed with rfl | later
      · exact List.mem_cons_self
      · exact List.mem_cons_of_mem _ (ih _ later)
  | getCurrentTtl key k ih => exact fun {w} listed => ih _ listed
  | registerChild parent child k ih => exact fun {w} listed => ih _ listed
  | acquire key k ih => exact fun {w} listed => ih _ listed
  | release key k ih => exact fun {w} listed => ih listed
  | yield item k ih => exact fun {w} listed => ih _ listed

theorem sets_bind_right {p : Prog Y T R A} {f : A → Prog Y T R B} {a : A} : ∀ {w w' : World R},
    p.Wp (alone edit) (Ends w' (.ok a)) w → call ∈ (f a).sets edit w' →
      call ∈ (p >>= f).sets edit w := by
  induction p with
  | ret result =>
      intro w w' ended listed
      obtain ⟨rfl, rfl⟩ := ended
      exact listed
  | dateNow k ih => exact fun ended listed => ih _ (ended _ _ ⟨rfl, rfl⟩) listed
  | get key k ih => exact fun ended listed => ih _ (ended _ _ ⟨rfl, rfl⟩) listed
  | set key v ttl k ih =>
      exact fun ended listed => List.mem_cons_of_mem _ (ih _ (ended _ _ ⟨rfl, rfl⟩) listed)
  | getCurrentTtl key k ih => exact fun ended listed => ih _ (ended _ _ ⟨rfl, rfl⟩) listed
  | registerChild parent child k ih => exact fun ended listed => ih _ (ended _ _ ⟨rfl, rfl⟩) listed
  | acquire key k ih => exact fun ended listed => ih _ (ended _ _ ⟨rfl, rfl⟩) listed
  | release key k ih => exact fun ended listed => ih (ended _ rfl) listed
  | yield item k ih => exact fun ended listed => ih _ (ended _ _ ⟨rfl, rfl⟩) listed

theorem sets_tryFinally {p : Prog Y T R A} (last : Prog Y T R Unit) : ∀ {w : World R},
    call ∈ p.sets edit w → call ∈ (p.tryFinally last).sets edit w := by
  induction p with
  | ret result =>
      intro w listed
      cases listed
  | dateNow k ih => exact fun {w} listed => ih _ listed
  | get key k ih => exact fun {w} listed => ih _ listed
  | set key v ttl k ih =>
      intro w listed
      rcases List.mem_cons.mp listed with rfl | later
      · exact List.mem_cons_self
      · exact List.mem_cons_of_mem _ (ih _ later)
  | getCurrentTtl key k ih => exact fun {w} listed => ih _ listed
  | registerChild parent child k ih => exact fun {w} listed => ih _ listed
  | acquire key k ih => exact fun {w} listed => ih _ listed
  | release key k ih => exact fun {w} listed => ih listed
  | yield item k ih => exact fun {w} listed => ih _ listed

end Prog

section
variable [SerializedForm R] (o : LawfulOptions T R) (create : Option (ChainedObject → Option T))
  (edit : Step T → Option T) (ttl : Option (StepTtl T))

/-! ## Key levels -/

/-- What the storage holds under the key of level `n`. -/
def entryLabel (path : List String) (n : Nat) (w : World R) : Label R :=
  ⟨w.read (levelKey path n), none⟩

/-- The step the consumer hands back at level `n` of the path. -/
def entryStep (path : List String) (n : Nat) (w : World R) : Step T :=
  handedBack o create edit (path.take n) w.clock (entryLabel path n w)

/-- The node at level `n` is given another serialized value. -/
def GivesEntry (path : List String) (n : Nat) (w : World R) (v : T) : Prop :=
  (entryStep o create edit path n w).value = some v ∧
    differs (w.read (levelKey path n)) (o.encode v) = true

theorem keyLevel_sets (path : List String) (minLevelSemaphore n : Nat) (bound : n < path.length)
    (w : World R) (v : T)
    (gives : GivesEntry o create edit path (n + 1) w v) :
    (⟨levelKey path (n + 1), o.encode v, stepTtl ttl (entryStep o create edit path (n + 1) w)⟩ :
      SetArguments R) ∈
      (keyLevel o.toOptions path (pureCreate create) ttl minLevelSemaphore (cursorFor path n)).sets
        edit w := by
  have found : path[n]? = some path[n] := List.getElem?_eq_getElem bound
  have target := chainedKeyOf_take_succ path n bound
  have ref : ChainedObject.ofParent path[n] (n + 1) (chainOf (path.take n)) =
      nodeRefOf (path.take (n + 1)) := (nodeRefOf_take_succ path n path[n] found).symm
  have key : levelKey path (n + 1) = chainKey (chainedKeyOf (path.take n)) path[n] := by
    rw [levelKey, target]
    rfl
  unfold keyLevel cursorFor
  simp only [getChainedKey_chainedKeyOf path n bound, Prog.pure_eq, Prog.ret_ok_bind, ref]
  obtain ⟨value, differ⟩ := gives
  have presented : ∀ content, w.read (levelKey path (n + 1)) = content →
      entryStep o create edit path (n + 1) w =
        editStep edit (present o.toOptions create (nodeRefOf (path.take (n + 1))) content) := by
    rintro content rfl
    rfl
  rw [key] at presented differ ⊢
  generalize chainKey (chainedKeyOf (path.take n)) path[n] = key at presented differ ⊢
  have step := presented _ rfl
  have inside : (⟨key, o.encode v, stepTtl ttl (entryStep o create edit path (n + 1) w)⟩ :
      SetArguments R) ∈ (Prog.storageGet key >>= fun currentSerialized =>
        Prog.ret (getStep o.toOptions currentSerialized (nodeRefOf (path.take (n + 1)))
          (pureCreate create)) >>= fun step => Prog.yieldItem step >>= fun value =>
            persistStep o.toOptions { step with value := value } currentSerialized key ttl >>= fun _ =>
              (pure ⟨n + 1, some key, some (nodeRefOf (path.take (n + 1)))⟩ :
                Prog (Step T) T R Cursor)).sets edit
          (w.register (chainedKeyOf (path.take n)) path[n]) := by
    refine Prog.sets_bind_right (storageGet_ends _ key) ?_
    rw [getStep_pureCreate]
    simp only [Prog.ret_ok_bind]
    refine Prog.sets_bind_right (yieldItem_ends _ _) ?_
    apply Prog.sets_bind_left
    have read : (w.register (chainedKeyOf (path.take n)) path[n]).read key = w.read key := rfl
    rw [read]
    rw [step] at value ⊢
    change _ ∈ (persistStep o.toOptions
      (editStep edit (present o.toOptions create (nodeRefOf (path.take (n + 1))) (w.read key)))
        _ _ _).sets edit _
    rw [persistStep, o.given_eq, value]
    dsimp only
    rw [o.serialize_value]
    simp only [Prog.ret_ok_bind, differ, if_true, getTtl_fst]
    exact List.mem_singleton_self _
  refine Prog.sets_bind_right (storageRegister_ends w _ _) ?_
  cases locked : decide (minLevelSemaphore ≤ n) with
  | false => exact Prog.sets_tryFinally _ inside
  | true => exact Prog.sets_tryFinally _ inside

theorem keyLevels_sets (path : List String) (minLevelSemaphore : Nat) : ∀ (count n : Nat) (w : World R),
    n + count ≤ path.length → ∀ j, n ≤ j → j < n + count → ∀ v,
      let before := performAll w ((List.range' n (j - n)).map (chainSection o create edit ttl path))
      GivesEntry o create edit path (j + 1) before v →
        (⟨levelKey path (j + 1), o.encode v,
            stepTtl ttl (entryStep o create edit path (j + 1) before)⟩ : SetArguments R) ∈
          (keyLevels o.toOptions path (pureCreate create) ttl minLevelSemaphore count
            (cursorFor path n)).sets edit w := by
  intro count
  induction count with
  | zero => exact fun n w _ j above below => absurd above (by omega)
  | succ count ih =>
      intro n w bound j above below v before gives
      rw [keyLevels]
      by_cases here : j = n
      · subst here
        have start : before = w := by
          change performAll w ((List.range' j (j - j)).map _) = w
          rw [Nat.sub_self]
          rfl
        rw [start] at gives ⊢
        exact Prog.sets_bind_left _ (keyLevel_sets o create edit ttl path minLevelSemaphore j (by omega)
          w v gives)
      · refine Prog.sets_bind_right
          (keyLevel_alone o create edit ttl (fun step => .ok (edit step)) path minLevelSemaphore n
            (by omega) (fun _ _ => rfl) w) ?_
        have split : before = performAll (w.perform (chainSection o create edit ttl path n))
            ((List.range' (n + 1) (j - (n + 1))).map (chainSection o create edit ttl path)) := by
          change performAll w ((List.range' n (j - n)).map _) = _
          rw [show j - n = j - (n + 1) + 1 by omega, List.range'_succ, List.map_cons]
          rfl
        rw [split] at gives ⊢
        exact ih (n + 1) _ (by omega) j (by omega) (by omega) v gives

theorem deepTreeSet_sets (path : List String) (minLevelSemaphore n : Nat) (w : World R)
    (keyLevel : n + 1 < o.keyLevelNodes) (bound : n < path.length) (v : T) :
    let before := performAll w ((List.range n).map (chainSection o create edit ttl path))
    GivesEntry o create edit path (n + 1) before v →
      (⟨levelKey path (n + 1), o.encode v,
          stepTtl ttl (entryStep o create edit path (n + 1) before)⟩ : SetArguments R) ∈
        (deepTreeSet o.toOptions path (pureCreate create) ttl [] minLevelSemaphore).sets edit w := by
  intro before gives
  have whole := keyLevels_sets o create edit ttl path minLevelSemaphore
    (min (o.keyLevelNodes - 1) path.length) 0 w (by omega) n (Nat.zero_le n) (by omega) v
  rw [Nat.sub_zero, ← List.range_eq_range'] at whole
  unfold deepTreeSet
  change _ ∈ (keyLevels _ _ _ _ _ _ _ >>= _).sets edit w
  exact Prog.sets_bind_left _ (whole gives)

/-! ## The keys of the levels -/

theorem levelKey_succ (path : List String) (n : Nat) (bound : n < path.length) :
    levelKey path (n + 1) = chainKey (chainedKeyOf (path.take n)) path[n] := by
  rw [levelKey, chainedKeyOf_take_succ path n bound]
  rfl

omit [SerializedForm R] in
theorem chainKey_length (above : Option String) (key : String) :
    (above.getD "").length ≤ (chainKey above key).length ∧
      (above.getD "" ≠ "" → (above.getD "").length < (chainKey above key).length) := by
  cases above with
  | none => exact ⟨Nat.zero_le _, fun some => absurd rfl some⟩
  | some above =>
      simp only [chainKey, Option.getD_some]
      by_cases empty : above = ""
      · rw [if_neg (not_not_intro empty), empty]
        exact ⟨Nat.zero_le _, fun some => absurd rfl some⟩
      · have one : (":" : String).length = 1 := rfl
        rw [if_pos empty, String.length_append, String.length_append, one]
        exact ⟨by omega, fun _ => by omega⟩

theorem levelKey_length_le (path : List String) : ∀ (m n : Nat), n ≤ m → m ≤ path.length →
    (levelKey path n).length ≤ (levelKey path m).length := by
  intro m
  induction m with
  | zero =>
      intro n below _
      rw [Nat.le_zero.mp below]
  | succ m ih =>
      intro n below bound
      by_cases last : n = m + 1
      · rw [last]
      · have earlier := ih n (by omega) (by omega)
        rw [levelKey_succ path m (by omega)]
        exact earlier.trans (chainKey_length _ _).1

theorem levelKey_ne_treeKey (path : List String) (reached : ReachesTree o path) (n : Nat)
    (above : n < o.keyLevelNodes) : levelKey path n ≠ levelKey path o.keyLevelNodes := by
  intro same
  have positive := keyLevelNodes_pos o reached
  have deep := reached.1
  have bound : o.keyLevelNodes - 1 < path.length := by omega
  have longer := (chainKey_length (chainedKeyOf (path.take (o.keyLevelNodes - 1)))
    path[o.keyLevelNodes - 1]).2 reached.2
  rw [← levelKey_succ path (o.keyLevelNodes - 1) (by omega),
    show o.keyLevelNodes - 1 + 1 = o.keyLevelNodes by omega] at longer
  have shorter := levelKey_length_le path (o.keyLevelNodes - 1) n (by omega) (by omega)
  rw [same] at shorter
  exact absurd longer (Nat.not_lt.mpr shorter)

/-! ## Nodes of the tree -/

theorem walkAny_ttl_pos (positive : PositiveTtl ttl) (now : ℚ) : ∀ (rest : List String)
    (nodeRef : ChainedObject) (tree : Tree R) (t : ℚ),
    (walkAny o create edit ttl now nodeRef tree rest).ttl = some t → 0 < t := by
  intro rest
  induction rest with
  | nil =>
      intro nodeRef tree t found
      simp only [walkAny, walk, Option.bind_eq_some_iff] at found
      obtain ⟨s, timed, same⟩ := found
      have seconds := positive _ s timed
      rw [nonzero, if_neg (ne_of_gt seconds)] at same
      rw [← Option.some.inj same]
      exact seconds
  | cons key rest ih =>
      intro nodeRef tree t found
      simp only [walkAny] at found
      split at found
      · exact ih _ _ t found
      · exact ih _ _ t found
      · exact ih _ _ t found

theorem walkAny_labelAt_prefix (now : ℚ) : ∀ (q rest base : List String) (tree : Tree R),
    base ≠ [] → q <+: rest → Walkable tree q →
      (walkAny o create edit ttl now (nodeRefOf base) tree rest).tree.labelAt q =
        (tree.labelAt q).visited o create edit ttl (base ++ q) (decide (q = rest)) now := by
  intro q
  induction q with
  | nil =>
      intro rest base tree _ _ _
      rw [List.append_nil, Tree.labelAt_nil, Tree.labelAt_nil, walkAny_label]
      simp only [eq_comm]
  | cons key q ih =>
      intro rest base tree nonempty onPath walkable
      obtain ⟨tail, rfl⟩ := onPath
      obtain ⟨found, walkableBelow⟩ := (walkable_cons tree key q).mp walkable
      have below := ih (q ++ tail) (base ++ [key]) _ (by simp) (List.prefix_append q tail)
        walkableBelow
      simp only [List.append_assoc, List.singleton_append] at below
      have sameEnd : decide (key :: q = key :: (q ++ tail)) = decide (q = q ++ tail) := by
        simp only [List.cons.injEq, true_and]
      rw [List.cons_append, sameEnd, walkAny_labelAt_cons o create edit ttl now _ tree found,
        nodeRefOf_below base key nonempty, below, Tree.labelAt_cons]

theorem walkAny_labelAt_of_not_prefix (now : ℚ) : ∀ (q rest : List String)
    (nodeRef : ChainedObject) (tree : Tree R), ¬ q <+: rest →
      (walkAny o create edit ttl now nodeRef tree rest).tree.labelAt q = tree.labelAt q := by
  intro q
  induction q with
  | nil => exact fun rest nodeRef tree apart => absurd List.nil_prefix apart
  | cons key q ih =>
      intro rest nodeRef tree apart
      cases rest with
      | nil => exact walk_labelAt_of_not_prefix o create edit ttl now _ _ _ _ apart
      | cons first rest =>
          by_cases same : key = first
          · subst same
            have below : ¬ q <+: rest :=
              fun onPath => apart (List.cons_prefix_cons.mpr ⟨rfl, onPath⟩)
            by_cases found : readChild (tree.children.getD []) key = .inherited
            · obtain ⟨left, old⟩ := walkAny_labelAt_inherited o create edit ttl now nodeRef tree found
                rest q
              rw [left, old]
            · rw [walkAny_labelAt_cons o create edit ttl now nodeRef tree found, ih rest _ _ below,
                Tree.labelAt_cons]
          · exact walkAny_labelAt_other o create edit ttl now nodeRef tree same rest q

/-! ## The call -/

theorem deepTreeSet_fails (path : List String) (minLevelSemaphore : Nat) (w : World R)
    (twoLevels : 2 ≤ o.keyLevelNodes) (deep : o.keyLevelNodes ≤ path.length)
    (unreached : ¬ ReachesTree o path) :
    (deepTreeSet o.toOptions path (pureCreate create) ttl [] minLevelSemaphore).Wp (alone edit)
      (fun _ got => got ≠ .ok ()) w := by
  have levels := keyLevels_alone o create edit ttl (fun step => .ok (edit step)) path
    minLevelSemaphore (min (o.keyLevelNodes - 1) path.length) 0 w (by omega) fun _ _ => rfl
  rw [Nat.zero_add] at levels
  unfold deepTreeSet
  intro now w' answered
  obtain ⟨timed, same⟩ := answered
  rw [timed, same]
  refine Ends.then (p := keyLevels _ _ _ _ _ _ _) levels ?_
  have started : (chainedKeyOf (path.take (o.keyLevelNodes - 1))).getD "" = "" := by
    by_contra started
    exact unreached ⟨deep, started⟩
  rw [cursorFor_currentLevel, cursorFor_chainedKey,
    show min (o.keyLevelNodes - 1) path.length = o.keyLevelNodes - 1 by omega, if_pos (by omega),
    if_pos started]
  exact fun returned => nomatch returned

omit [SerializedForm R] in
theorem read_written (w : World R) (s : Section (Step T) R) (r : R) (seconds : Option ℚ)
    (positive : ∀ t, seconds = some t → 0 < t)
    (written : s.writes (w.read s.key) = some (r, ttlRule seconds)) :
    (w.perform s).read s.key = some r := by
  have stored := w.perform_store_self s
  rw [written] at stored
  refine World.read_of_live stored ?_
  rw [World.perform_clock]
  cases seconds with
  | none => trivial
  | some t =>
      have later := positive t rfl
      obtain ⟨e, expiry, long, _⟩ := atLeast_expiry w s.key t
      simp only [ttlRule] at expiry ⊢
      rw [expiry]
      change w.clock < e
      linarith

theorem labels_after (path : List String) (positive : PositiveTtl ttl) (w w' : World R)
    (performed : PerformedCall o create edit ttl path w w' (.ok ())) (reached : ReachesTree o path)
    (q : List String) :
    (rootTree o (w'.read (levelKey path o.keyLevelNodes))).labelAt q =
      (anyTreeWalk o create edit ttl path w.clock
        (w.read (levelKey path o.keyLevelNodes))).tree.labelAt q := by
  obtain ⟨rfl, listed, _⟩ := performed
  have member := listed rfl reached
  have key : (anyTreeSection o create edit ttl path w.clock).key = levelKey path o.keyLevelNodes := rfl
  have apart : levelKey path o.keyLevelNodes ∉
      ((List.range (min (o.keyLevelNodes - 1) path.length)).map
        (chainSection o create edit ttl path)).map Section.key := by
    rw [List.map_map]
    intro above
    obtain ⟨n, bound, same⟩ := List.mem_map.mp above
    rw [List.mem_range] at bound
    exact levelKey_ne_treeKey o path reached (n + 1) (by omega) same
  unfold anySections at member ⊢
  simp only at member ⊢
  split at member
  · rename_i both
    rw [if_pos both]
    generalize (List.range (min (o.keyLevelNodes - 1) path.length)).map
      (chainSection o create edit ttl path) = keys at apart ⊢
    have before : (performAll w keys).read (levelKey path o.keyLevelNodes) =
        w.read (levelKey path o.keyLevelNodes) :=
      World.read_congr _ _ _ (performAll_store_of_not_mem _ _ _ apart) (performAll_clock _ _)
    have last : performAll w (keys ++ [anyTreeSection o create edit ttl path w.clock]) =
        (performAll w keys).perform (anyTreeSection o create edit ttl path w.clock) := by
      rw [performAll, List.foldl_append]
      rfl
    rw [last]
    cases changed : (anyTreeWalk o create edit ttl path w.clock
        (w.read (levelKey path o.keyLevelNodes))).changed with
    | true =>
        have written : (anyTreeSection o create edit ttl path w.clock).writes
            ((performAll w keys).read (anyTreeSection o create edit ttl path w.clock).key) =
              some (o.encodeTree (anyTreeWalk o create edit ttl path w.clock
                  (w.read (levelKey path o.keyLevelNodes))).tree,
                ttlRule (anyTreeWalk o create edit ttl path w.clock
                  (w.read (levelKey path o.keyLevelNodes))).ttl) := by
          rw [key, before]
          exact if_pos changed
        have read := read_written _ _ _ _ (fun t => walkAny_ttl_pos o create edit ttl positive w.clock
          _ _ _ t) written
        rw [key] at read
        have wellFormed : (anyTreeWalk o create edit ttl path w.clock
            (w.read (levelKey path o.keyLevelNodes))).tree.wellFormed = true :=
          walkAny_wellFormed o _ _ ttl w.clock _ _ _ (rootTree_wellFormed o _)
        rw [read, labelAt_encodeTree o _ wellFormed]
    | false =>
        have written : (anyTreeSection o create edit ttl path w.clock).writes
            ((performAll w keys).read (anyTreeSection o create edit ttl path w.clock).key) = none := by
          rw [key, before]
          refine if_neg ?_
          rw [changed]
          exact Bool.false_ne_true
        have stored := (performAll w keys).perform_store_self
          (anyTreeSection o create edit ttl path w.clock)
        rw [written, key] at stored
        rw [World.read_congr _ _ _ stored (World.perform_clock _ _), before]
        exact (walkAny_unchanged o create edit ttl w.clock _ _ _ changed q).symm
  · rw [List.append_nil] at member
    exact absurd (List.mem_map_of_mem (f := Section.key) member) apart

theorem keyLevels_keep (path : List String) (w : World R) (key : String) : ∀ m, m ≤ path.length →
    (∀ n v, n < m → levelKey path (n + 1) = key →
      ¬ GivesEntry o create edit path (n + 1)
        (performAll w ((List.range n).map (chainSection o create edit ttl path))) v) →
    (performAll w ((List.range m).map (chainSection o create edit ttl path))).store key =
      w.store key := by
  intro m
  induction m with
  | zero => exact fun _ _ => rfl
  | succ m ih =>
      intro bound kept
      have before := ih (by omega) fun n v below => kept n v (by omega)
      have last : performAll w ((List.range (m + 1)).map (chainSection o create edit ttl path)) =
          (performAll w ((List.range m).map (chainSection o create edit ttl path))).perform
            (chainSection o create edit ttl path m) := by
        rw [List.range_succ, List.map_append, performAll, List.foldl_append]
        rfl
      rw [last, ← before]
      have here := fun v => kept m v (by omega)
      generalize performAll w ((List.range m).map (chainSection o create edit ttl path)) = w at here ⊢
      by_cases same : levelKey path (m + 1) = key
      · have unwritten : (chainSection o create edit ttl path m).writes
            (w.read (levelKey path (m + 1))) = none := by
          change stepWrites o ttl (entryStep o create edit path (m + 1) w) _ = none
          rw [stepWrites]
          cases handed : (entryStep o create edit path (m + 1) w).value with
          | none => rfl
          | some v => exact if_neg fun other => here v same ⟨handed, other⟩
        have stored := w.perform_store_self (chainSection o create edit ttl path m)
        have own : (chainSection o create edit ttl path m).key = levelKey path (m + 1) := rfl
        rw [own, unwritten, same] at stored
        exact stored
      · exact w.perform_store_ne _ key (Ne.symm same)

theorem entries_kept (path : List String) (w w' : World R) (got : Except Err Unit)
    (performed : PerformedCall o create edit ttl path w w' got) (key : String)
    (notTree : o.keyLevelNodes ≤ path.length → key ≠ levelKey path o.keyLevelNodes)
    (kept : ∀ n v, n + 1 < o.keyLevelNodes → n < path.length → levelKey path (n + 1) = key →
      ¬ GivesEntry o create edit path (n + 1)
        (performAll w ((List.range n).map (chainSection o create edit ttl path))) v) :
    w'.store key = w.store key := by
  have levels := keyLevels_keep o create edit ttl path w key (min (o.keyLevelNodes - 1) path.length)
    (by omega) fun n v below => kept n v (by omega) (by omega)
  rw [performed.1, anySections]
  split
  · rename_i both
    rw [performAll_append, ← levels]
    exact World.perform_store_ne _ _ key (notTree both.1.1)
  · rw [List.append_nil, levels]

/-! ## What the ttl of a step does -/

/-- The deadline of a node that got its value with this ttl. -/
def Carries (now : ℚ) (seconds : Option ℚ) (deadline : Option ℚ) : Prop :=
  match seconds with
  | some s => deadline = some (now + s * 1000)
  | none => truthyNumber deadline = false

/-- The call gives the node at `path` the value `v`, and the node holds it afterwards. -/
def Gives (path : List String) (now : ℚ) (old new : Label R) (v : T) : Prop :=
  (handedBack o create edit path now old).value = some v ∧
    differs (old.live now) (o.encode v) = true ∧ new.value = some (o.encode v)

/-- Every node on the path that changes gets the ttl of its step, and every other node keeps
its deadline, or its entry. -/
structure TtlApplied (path : List String) (w w' : World R) (calls : List (SetArguments R)) :
    Prop where
  entries : ∀ n v, n + 1 < o.keyLevelNodes → n < path.length →
    let before := performAll w ((List.range n).map (chainSection o create edit ttl path))
    GivesEntry o create edit path (n + 1) before v →
      ⟨levelKey path (n + 1), o.encode v, stepTtl ttl (entryStep o create edit path (n + 1) before)⟩ ∈
        calls
  nodes : ∀ n, o.keyLevelNodes ≤ n → n ≤ path.length →
    let old := treeLabel o (w.read (levelKey path o.keyLevelNodes)) path n
    let new := treeLabel o (w'.read (levelKey path o.keyLevelNodes)) path n
    (∀ v, Gives o create edit (path.take n) w.clock old new v →
      Carries w.clock (stepTtl ttl (handedBack o create edit (path.take n) w.clock old))
        new.deadline) ∧
    ((¬ ∃ v, Gives o create edit (path.take n) w.clock old new v) → new.deadline = old.deadline)
  keptEntries : ∀ key, (o.keyLevelNodes ≤ path.length → key ≠ levelKey path o.keyLevelNodes) →
    (∀ n v, n + 1 < o.keyLevelNodes → n < path.length → levelKey path (n + 1) = key →
      ¬ GivesEntry o create edit path (n + 1)
        (performAll w ((List.range n).map (chainSection o create edit ttl path))) v) →
    w'.store key = w.store key
  keptNodes : o.keyLevelNodes ≤ path.length → ∀ q, ¬ q <+: path.drop o.keyLevelNodes →
    (rootTree o (w'.read (levelKey path o.keyLevelNodes))).labelAt q =
      (rootTree o (w.read (levelKey path o.keyLevelNodes))).labelAt q

/-- No inner node of the tree is given another value by a step that has a ttl. -/
def InnerUntimed (path : List String) (w : World R) : Prop :=
  ∀ n, o.keyLevelNodes ≤ n → n < path.length →
    let content := w.read (levelKey path o.keyLevelNodes)
    let old := treeLabel o content path n
    Walkable (rootTree o content) ((path.take n).drop o.keyLevelNodes) →
      Rewrites o create edit (path.take n) w.clock old →
        stepTtl ttl (handedBack o create edit (path.take n) w.clock old) = none

section
variable {o} {create} {edit} {ttl}

theorem visited_gives {path : List String} {now : ℚ} {old : Label R} {v : T} (last : Bool)
    (handed : (handedBack o create edit path now old).value = some v)
    (other : differs (old.live now) (o.encode v) = true) :
    old.visited o create edit ttl path last now =
      ⟨some (o.encode v),
        let seconds := if last then stepTtl ttl (handedBack o create edit path now old) else none
        if truthyNumber seconds then seconds.map fun s => now + s * 1000
        else if truthyNumber old.deadline then none else old.deadline⟩ := by
  unfold handedBack at handed ⊢
  unfold Label.visited Label.enriched
  simp only [handed, if_pos other]

theorem untimed_deadline (deadline : Option ℚ) :
    truthyNumber (if truthyNumber deadline then none else deadline) = false := by
  cases given : truthyNumber deadline with
  | true => rfl
  | false => exact given

theorem visited_last_carries (positive : PositiveTtl ttl) {path : List String} {now : ℚ}
    {old : Label R} {v : T} (handed : (handedBack o create edit path now old).value = some v)
    (other : differs (old.live now) (o.encode v) = true) :
    Carries now (stepTtl ttl (handedBack o create edit path now old))
      (old.visited o create edit ttl path true now).deadline := by
  rw [visited_gives true handed other]
  simp only [if_true]
  cases timed : stepTtl ttl (handedBack o create edit path now old) with
  | none =>
      rw [truthyNumber_none, if_neg Bool.false_ne_true]
      exact untimed_deadline old.deadline
  | some s =>
      rw [truthyNumber_some_of_pos s (positive _ s timed), if_pos rfl]
      rfl

theorem visited_inner_carries_iff (positive : PositiveTtl ttl) {path : List String} {now : ℚ}
    (started : 0 ≤ now) {old : Label R} {v : T}
    (handed : (handedBack o create edit path now old).value = some v)
    (other : differs (old.live now) (o.encode v) = true) :
    Carries now (stepTtl ttl (handedBack o create edit path now old))
        (old.visited o create edit ttl path false now).deadline ↔
      stepTtl ttl (handedBack o create edit path now old) = none := by
  rw [visited_gives false handed other]
  simp only [Bool.false_eq_true, if_false, truthyNumber_none]
  have undated := untimed_deadline old.deadline
  cases timed : stepTtl ttl (handedBack o create edit path now old) with
  | none => exact ⟨fun _ => rfl, fun _ => undated⟩
  | some s =>
      refine ⟨fun dated => ?_, fun same => nomatch same⟩
      have seconds := positive _ s timed
      have later : 0 < now + s * 1000 := by linarith
      rw [Carries] at dated
      rw [dated, truthyNumber_some_of_pos _ later] at undated
      exact absurd undated (Bool.noConfusion)

theorem treeLabel_after {path : List String} (twoLevels : 2 ≤ o.keyLevelNodes)
    (positive : PositiveTtl ttl) {w w' : World R}
    (performed : PerformedCall o create edit ttl path w w' (.ok ())) (reached : ReachesTree o path)
    (n : Nat) (deep : o.keyLevelNodes ≤ n) (onPath : n ≤ path.length) :
    let content := w.read (levelKey path o.keyLevelNodes)
    let old := treeLabel o content path n
    let new := treeLabel o (w'.read (levelKey path o.keyLevelNodes)) path n
    (Walkable (rootTree o content) ((path.take n).drop o.keyLevelNodes) ∧
        new = old.visited o create edit ttl (path.take n) (decide (n = path.length)) w.clock) ∨
      (¬ Walkable (rootTree o content) ((path.take n).drop o.keyLevelNodes) ∧
        old = Label.none ∧ new = Label.none) := by
  intro content old new
  have bound := reached.1
  have after : new = (anyTreeWalk o create edit ttl path w.clock content).tree.labelAt
      ((path.take n).drop o.keyLevelNodes) :=
    labels_after o create edit ttl path positive w w' performed reached _
  have part : (path.take n).drop o.keyLevelNodes <+: path.drop o.keyLevelNodes :=
    (List.take_prefix n path).drop o.keyLevelNodes
  have base : path.take o.keyLevelNodes ≠ [] := by
    rw [← List.length_pos_iff, List.length_take]
    omega
  have whole : path.take o.keyLevelNodes ++ (path.take n).drop o.keyLevelNodes = path.take n := by
    have first : path.take o.keyLevelNodes = (path.take n).take o.keyLevelNodes := by
      rw [List.take_take, Nat.min_eq_left deep]
    rw [first, List.take_append_drop]
  have last : decide ((path.take n).drop o.keyLevelNodes = path.drop o.keyLevelNodes) =
      decide (n = path.length) := by
    apply decide_eq_decide.mpr
    constructor
    · intro same
      have lengths := congrArg List.length same
      rw [List.length_drop, List.length_drop, List.length_take] at lengths
      omega
    · rintro rfl
      rw [List.take_length]
  by_cases walkable : Walkable (rootTree o content) ((path.take n).drop o.keyLevelNodes)
  · refine Or.inl ⟨walkable, ?_⟩
    rw [after, anyTreeWalk, walkAny_labelAt_prefix o create edit ttl w.clock _ _ _ _ base part walkable,
      whole, last]
    rfl
  · refine Or.inr ⟨walkable, ?_⟩
    rw [after, anyTreeWalk]
    exact (walkAny_labelAt_unwalkable o create edit ttl w.clock _ _ _ _ part walkable).symm

theorem node_applied_iff (positive : PositiveTtl ttl) {path : List String} {now : ℚ}
    (started : 0 ≤ now) (last : Bool) (old : Label R) :
    let new := old.visited o create edit ttl path last now
    ((∀ v, Gives o create edit path now old new v →
        Carries now (stepTtl ttl (handedBack o create edit path now old)) new.deadline) ∧
      ((¬ ∃ v, Gives o create edit path now old new v) → new.deadline = old.deadline)) ↔
      (last = false → Rewrites o create edit path now old →
        stepTtl ttl (handedBack o create edit path now old) = none) := by
  intro new
  have given : ∀ v, (handedBack o create edit path now old).value = some v →
      differs (old.live now) (o.encode v) = true → new.value = some (o.encode v) := by
    intro v handed other
    change (old.visited o create edit ttl path last now).value = _
    rw [visited_gives last handed other]
  constructor
  · rintro ⟨carries, _⟩ inner ⟨v, handed, other⟩
    have applied := carries v ⟨handed, other, given v handed other⟩
    change Carries now _ (old.visited o create edit ttl path last now).deadline at applied
    rw [inner] at applied
    exact (visited_inner_carries_iff positive started handed other).mp applied
  · intro untimed
    refine ⟨?_, ?_⟩
    · rintro v ⟨handed, other, _⟩
      cases place : last with
      | false =>
          change Carries now _ (old.visited o create edit ttl path last now).deadline
          rw [place]
          exact (visited_inner_carries_iff positive started handed other).mpr
            (untimed place ⟨v, handed, other⟩)
      | true =>
          change Carries now _ (old.visited o create edit ttl path last now).deadline
          rw [place]
          exact visited_last_carries positive handed other
    · intro kept
      have same : new = old := by
        apply Label.visited_of_not_rewrites
        rintro ⟨v, handed, other⟩
        exact kept ⟨v, handed, other, given v handed other⟩
      rw [same]

end

/-- `deepTreeSet` applies the ttl to every node it changes exactly if none of the inner nodes of
the tree that change has one. -/
theorem ttlApplied_iff (path : List String) (minLevelSemaphore : Nat) (w : World R)
    (twoLevels : 2 ≤ o.keyLevelNodes) (positive : PositiveTtl ttl) (started : 0 ≤ w.clock)
    (returned : ((deepTreeSet o.toOptions path (pureCreate create) ttl [] minLevelSemaphore).run
      edit w).result = .ok ()) :
    TtlApplied o create edit ttl path w
        ((deepTreeSet o.toOptions path (pureCreate create) ttl [] minLevelSemaphore).run edit w).world
        ((deepTreeSet o.toOptions path (pureCreate create) ttl [] minLevelSemaphore).sets edit w) ↔
      InnerUntimed o create edit ttl path w := by
  have performed := (deepTreeSet_alone o create edit ttl path minLevelSemaphore w).run
  rw [returned] at performed
  have reaches : o.keyLevelNodes ≤ path.length → ReachesTree o path := by
    intro deep
    by_contra unreached
    exact (deepTreeSet_fails o create edit ttl path minLevelSemaphore w twoLevels deep unreached).run
      returned
  generalize ((deepTreeSet o.toOptions path (pureCreate create) ttl [] minLevelSemaphore).run
    edit w).world = w' at performed ⊢
  constructor
  · rintro ⟨_, nodes, _, _⟩ n deep inner
    intro content old walkable rewrites
    have node := nodes n deep (by omega)
    rcases treeLabel_after twoLevels positive performed (reaches (by omega)) n deep (by omega) with
      ⟨_, after⟩ | ⟨unwalkable, _⟩
    · simp only [after] at node
      exact (node_applied_iff positive started _ old).mp node (decide_eq_false (by omega)) rewrites
    · exact absurd walkable unwalkable
  · intro untimed
    refine ⟨?_, ?_, ?_, ?_⟩
    · intro n v keyLevel bound before gives
      exact deepTreeSet_sets o create edit ttl path minLevelSemaphore n w keyLevel bound v gives
    · intro n deep onPath old new
      rcases treeLabel_after twoLevels positive performed (reaches (by omega)) n deep onPath with
        ⟨walkable, after⟩ | ⟨_, before, after⟩
      · have visited : new = _ := after
        rw [visited]
        refine (node_applied_iff positive started _ old).mpr fun inner rewrites => ?_
        have notLast := of_decide_eq_false inner
        exact untimed n deep (by omega) walkable rewrites
      · have nothing : new = Label.none := after
        have nothingBefore : old = Label.none := before
        rw [nothing, nothingBefore]
        exact ⟨fun v gives => (nomatch gives.2.2), fun _ => rfl⟩
    · exact entries_kept o create edit ttl path w w' (.ok ()) performed
    · intro deep q apart
      rw [labels_after o create edit ttl path positive w w' performed (reaches deep), anyTreeWalk]
      exact walkAny_labelAt_of_not_prefix o create edit ttl w.clock _ _ _ _ apart

end

/-- The inner node `["a", "b"]` holds the value 7. -/
def sevenWorld : World String :=
  ⟨fun key => if key = "a:b" then
    some ⟨Text.encodeTree (.mk (some (Text.encodeNat 7)) none none), none⟩ else none, 0, []⟩

theorem ttlApplied_unchanged_inner :
    TtlApplied (Text.options 2) none (fun _ => some 7) (some (.seconds 5)) ["a", "b", "c"] sevenWorld
      ((deepTreeSet (Text.options 2).toOptions ["a", "b", "c"] (pureCreate none)
        (some (.seconds 5)) [] 0).run (fun _ => some 7) sevenWorld).world
      ((deepTreeSet (Text.options 2).toOptions ["a", "b", "c"] (pureCreate none)
        (some (.seconds 5)) [] 0).sets (fun _ => some 7) sevenWorld) := by
  refine (ttlApplied_iff (Text.options 2) none (fun _ => some 7) (some (.seconds 5)) ["a", "b", "c"] 0
    sevenWorld (by decide) (fun _ s timed => Option.some.inj timed ▸ (by norm_num)) (le_refl 0)
    (by decide +kernel)).mpr ?_
  intro n deep inner content old _ ⟨v, gives, differ⟩
  have level : n = 2 := le_antisymm (Nat.le_of_lt_succ inner) deep
  subst level
  obtain rfl : 7 = v := Option.some.inj gives
  exact absurd differ (by decide +kernel)

/-- Every node gets the value 7 and a ttl of 5 seconds, but the inner node of the tree has no
deadline. -/
theorem ttl_not_applied :
    ¬ TtlApplied (Text.options 2) none (fun _ => some 7) (some (.seconds 5)) ["a", "b", "c"]
      (World.emptyAt 0)
      ((deepTreeSet (Text.options 2).toOptions ["a", "b", "c"] (pureCreate none)
        (some (.seconds 5)) [] 0).run (fun _ => some 7) (World.emptyAt 0)).world
      ((deepTreeSet (Text.options 2).toOptions ["a", "b", "c"] (pureCreate none)
        (some (.seconds 5)) [] 0).sets (fun _ => some 7) (World.emptyAt 0)) := by
  intro applied
  have positive : PositiveTtl (some (.seconds 5) : Option (StepTtl Nat)) :=
    fun _ s timed => Option.some.inj timed ▸ (by norm_num)
  have performed := (deepTreeSet_alone (Text.options 2) none (fun _ => some 7) (some (.seconds 5))
    ["a", "b", "c"] 0 (World.emptyAt 0)).run
  have returned : ((deepTreeSet (Text.options 2).toOptions ["a", "b", "c"] (pureCreate none)
      (some (.seconds 5)) [] 0).run (fun _ => some 7) (World.emptyAt 0)).result = .ok () := by
    decide +kernel
  rw [returned] at performed
  have node := applied.nodes 2 (le_refl 2) (by decide)
  rcases treeLabel_after (by decide) positive performed (by decide +kernel) 2 (le_refl 2) (by decide)
    with ⟨_, after⟩ | ⟨unwalkable, _⟩
  · simp only [after] at node
    have untimed := (node_applied_iff positive (le_refl 0) _ _).mp node rfl ⟨7, rfl, rfl⟩
    exact nomatch untimed
  · exact unwalkable trivial

end TreeKeyCache
