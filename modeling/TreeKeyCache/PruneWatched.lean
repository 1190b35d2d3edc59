import TreeKeyCache.LockedWrites
import TreeKeyCache.ChildrenRegistry
import TreeKeyCache.PruneInvisible
import Mathlib.Tactic.Linarith

/-! # The writes of `prune` and of `deepTreeSet`

Both write under the semaphore of the key.  `prune` has read the tree before it takes the
semaphore, so a run remembers what its pipeline had read of the key of each writer: what a
writer writes is pruned from that, and lives as long as the entry it replaces. -/
set_option autoImplicit false
namespace TreeKeyCache

open Prog

variable {Y T R : Type} [SerializedForm R]

/-! ## The semaphores of `deepTreeSet` -/

/-- The thread holds the semaphore of `key`. -/
def HoldsKey (key : String) (s : Knowledge R) : Prop := ∃ entry, s.held = some (key, entry)

/-- Any write, but under the semaphore of its key. -/
def anyKind : Kind R := fun _ _ _ _ _ => True

section
variable {A : Type} {consumer : Y → Option T} {key : String} {s : Knowledge R}

omit [SerializedForm R] in
theorem guarded_locked {body : Prog Y T R A} {post : A → Prop} (outside : s.held = none)
    (inside : ∀ s, HoldsKey key s → body.Guarded anyKind consumer
      (fun s result => HoldsKey key s ∧ ∀ a, result = .ok a → post a) s) :
    (Prog.semaphoreAcquire key >>= fun _ => body.tryFinally (Prog.dontWait key)).Guarded anyKind consumer
      (fun s result => s.held = none ∧ ∀ a, result = .ok a → post a) s := by
  refine ⟨outside, fun t _ entry => ?_⟩
  apply Guarded.tryFinally
  exact (inside ⟨some (key, entry), t⟩ ⟨entry, rfl⟩).mono fun s result reached =>
    ⟨reached.1, rfl, reached.2⟩

omit [SerializedForm R] in
theorem Prog.Quiet.holding {B : Type} {p : Prog Y T R A} {f : A → Prog Y T R B} {post : B → Prop}
    (quiet : p.Quiet) (holds : HoldsKey key s)
    (second : ∀ s a, HoldsKey key s → (f a).Guarded anyKind consumer
      (fun s result => HoldsKey key s ∧ ∀ b, result = .ok b → post b) s) :
    (p >>= f).Guarded anyKind consumer
      (fun s result => HoldsKey key s ∧ ∀ b, result = .ok b → post b) s := by
  obtain ⟨entry, held⟩ := holds
  refine quiet.guardedThen returns_any ?_ ?_
  · exact fun t e _ => ⟨⟨entry, held⟩, fun b failed => (nomatch failed)⟩
  · exact fun t a _ _ => second _ a ⟨entry, held⟩

omit [SerializedForm R] in
theorem guarded_set {value : R} {ttl : Option ℚ} (holds : HoldsKey key s) :
    (Prog.storageSet key value ttl : Prog Y T R Unit).Guarded anyKind consumer
      (fun s result => HoldsKey key s ∧ ∀ a : Unit, result = .ok a → True) s := by
  obtain ⟨entry, held⟩ := holds
  exact ⟨entry, held, fun t _ => ⟨trivial, ⟨_, rfl⟩, fun _ _ => trivial⟩⟩

end

section
variable (o : Options T R) (createValue : Option (CreateValue T)) (ttl : Option (StepTtl T))
  (consumer : Step T → Option T)

theorem persistStep_guarded (step : Step T) (current : Option R) {key : String} {s : Knowledge R}
    (holds : HoldsKey key s) :
    (persistStep o step current key ttl : Prog (Step T) T R Unit).Guarded anyKind consumer
      (fun s result => HoldsKey key s ∧ ∀ a : Unit, result = .ok a → True) s := by
  unfold persistStep
  cases o.given step.value with
  | none => exact ⟨holds, fun _ _ => trivial⟩
  | some value =>
      refine (quiet_ret _).holding holds fun s serialized holds => ?_
      split
      · exact guarded_set holds
      · exact ⟨holds, fun _ _ => trivial⟩

omit [SerializedForm R] in
theorem persistTree_guarded (seconds : Option ℚ) (tree : Tree R) {key : String} {s : Knowledge R}
    (holds : HoldsKey key s) :
    (persistTree o key seconds tree : Prog (Step T) T R Unit).Guarded anyKind consumer
      (fun s result => HoldsKey key s ∧ ∀ a : Unit, result = .ok a → True) s := by
  unfold persistTree
  have written : ∀ (maxTtl : Option ℚ) (s : Knowledge R), HoldsKey key s →
      (Prog.ret (o.treeSerializer.serialize tree) >>= fun serialized =>
        Prog.storageSet key serialized maxTtl : Prog (Step T) T R Unit).Guarded anyKind consumer
          (fun s result => HoldsKey key s ∧ ∀ a : Unit, result = .ok a → True) s :=
    fun maxTtl s holds => (quiet_ret _).holding holds fun s serialized holds => guarded_set holds
  split
  · exact (quiet_storageTtl key).holding holds fun s current holds => written _ s holds
  · exact written none s holds

theorem keyLevel_guarded (path : List String) (cursor : Cursor) {s : Knowledge R}
    (outside : s.held = none) :
    (keyLevel o path createValue ttl 0 cursor).Guarded anyKind consumer
      (fun s result => s.held = none ∧ ∀ a, result = .ok a → True) s := by
  unfold keyLevel
  cases chained : getChainedKey path cursor.currentLevel cursor.chainedKey with
  | error e => exact ⟨outside, fun _ failed => (nomatch failed)⟩
  | ok found =>
      obtain ⟨chainedKey, key⟩ := found
      simp only [Prog.ret_ok_bind, Nat.zero_le, decide_true, if_true]
      change (Prog.semaphoreAcquire chainedKey >>= _).Guarded anyKind consumer _ s
      refine guarded_locked outside fun s holds => ?_
      refine (quiet_storageGet chainedKey).holding holds fun s content holds => ?_
      refine (quiet_ret _).holding holds fun s step holds => ?_
      refine (quiet_yieldItem step).holding holds fun s value holds => ?_
      refine Guarded.bindWith (HoldsKey chainedKey) (fun _ => True)
        (persistStep_guarded o ttl consumer _ content holds) ?_ ?_
      · exact fun s e holds => ⟨holds, fun _ _ => trivial⟩
      · exact fun s _ holds _ => ⟨holds, fun _ _ => trivial⟩

theorem keyLevels_guarded (path : List String) : ∀ (n : Nat) (cursor : Cursor) (s : Knowledge R),
    s.held = none → (keyLevels o path createValue ttl 0 n cursor).Guarded anyKind consumer
      (fun s result => s.held = none ∧ ∀ a, result = .ok a → True) s := by
  intro n
  induction n with
  | zero => exact fun cursor s outside => ⟨outside, fun _ _ => trivial⟩
  | succ n ih =>
      intro cursor s outside
      refine Guarded.bindWith (fun s => s.held = none) (fun _ => True)
        (keyLevel_guarded o createValue ttl consumer path cursor outside) ?_ ?_
      · exact fun s e outside => ⟨outside, fun _ _ => trivial⟩
      · exact fun s next outside _ => ih next s outside

theorem treeLevel_guarded (path : List String) (now : ℚ) (cursor : Cursor) {s : Knowledge R}
    (outside : s.held = none) :
    (treeLevel o path createValue ttl 0 now cursor).Guarded anyKind consumer
      (fun s result => s.held = none ∧ ∀ a : Unit, result = .ok a → True) s := by
  unfold treeLevel
  cases chained : getChainedKey path cursor.currentLevel cursor.chainedKey with
  | error e => exact ⟨outside, fun _ failed => (nomatch failed)⟩
  | ok found =>
      obtain ⟨chainedKey, key⟩ := found
      simp only [Prog.ret_ok_bind, Nat.zero_le, decide_true, if_true]
      refine guarded_locked outside fun s holds => ?_
      refine (quiet_storageGet chainedKey).holding holds fun s buffer holds => ?_
      refine (quiet_ret _).holding holds fun s rootTree holds => ?_
      refine (treeLevels_quiet o createValue ttl now _ _ key cursor.nodeRef rootTree none).holding holds
        fun s result holds => ?_
      split
      · exact persistTree_guarded o consumer result.maxTtl result.tree holds
      · exact ⟨holds, fun _ _ => trivial⟩

theorem deepTreeSet_guarded (path previousKeys : List String) {s : Knowledge R} (outside : s.held = none) :
    (deepTreeSet o path createValue ttl previousKeys 0).Guarded anyKind consumer
      (fun s _ => s.held = none) s := by
  unfold deepTreeSet
  simp only [Prog.now, Prog.dateNow_bind, Prog.ret_ok_bind]
  intro now _
  refine Guarded.bindWith (fun s => s.held = none) (fun _ => True)
    (keyLevels_guarded o createValue ttl consumer path _ _ _ outside) ?_ ?_
  · exact fun s e outside => outside
  · intro s cursor outside _
    split
    · split
      · exact outside
      · exact (treeLevel_guarded o createValue ttl consumer path now cursor outside).mono
          fun s result reached => reached.1
    · exact outside

end

/-! ## What `prune` writes back -/

section
variable (o : LawfulOptions T R)

/-- The tree is what pruning, some time before `t`, has left of the tree that `content` holds. -/
def PrunedFrom (content : Option R) (tree : Tree R) (t : ℚ) : Prop :=
  ∃ r old t₀, content = some r ∧ SerializedForm.truthy r = true ∧
    o.treeSerializer.deserialize r = .ok old ∧ t₀ ≤ t ∧ tree.wellFormed = true ∧
      ∀ keys, (old.labelAt keys).Fades t₀ (tree.labelAt keys)

/-- The entry written lives as long as the one that was there. -/
def KeepsExpiry (entry : Option (Entry R)) (t : ℚ) (value : R) (ttl : Option ℚ) : Prop :=
  ∀ e, entry = some e → ∀ t', t ≤ t' → e.liveAt t' → (writtenEntry t value ttl).liveAt t'

/-- The write of a pruned tree. -/
def pruneKind (content : Option R) : Kind R := fun key entry t value ttl =>
  TreeKey o key ∧ (∃ tree, value = o.encodeTree tree ∧ PrunedFrom o content tree t) ∧
    KeepsExpiry entry t value ttl

variable {o} in
theorem PrunedFrom.later {content : Option R} {tree : Tree R} {t t' : ℚ}
    (pruned : PrunedFrom o content tree t) (later : t ≤ t') : PrunedFrom o content tree t' := by
  obtain ⟨r, old, t₀, stored, truthy, decoded, before, rest⟩ := pruned
  exact ⟨r, old, t₀, stored, truthy, decoded, before.trans later, rest⟩

omit [SerializedForm R] in
theorem entryTtl_eq_some {entry : Option (Entry R)} {t seconds : ℚ}
    (remaining : entryTtl entry t = some seconds) :
    0 < seconds ∧ ∃ e expiry, entry = some e ∧ e.expiry = some expiry ∧ seconds = (expiry - t) / 1000 := by
  cases entry with
  | none => cases remaining
  | some e =>
      rw [entryTtl] at remaining
      split at remaining
      · rename_i alive
        obtain ⟨expiry, expires, rfl⟩ := Option.map_eq_some_iff.mp remaining
        rw [Entry.liveAt, expires] at alive
        have : 0 < expiry - t := sub_pos.mpr alive
        exact ⟨div_pos this (by norm_num), e, expiry, rfl, expires, rfl⟩
      · cases remaining

omit [SerializedForm R] in
theorem keepsExpiry_none (entry : Option (Entry R)) (t : ℚ) (value : R) :
    KeepsExpiry entry t value none := fun _ _ _ _ _ => trivial

omit [SerializedForm R] in
theorem keepsExpiry_some {entry : Option (Entry R)} {t₁ t seconds longer : ℚ} (value : R)
    (remaining : entryTtl entry t₁ = some seconds) (later : t₁ ≤ t) (enough : seconds ≤ longer) :
    KeepsExpiry entry t value (some longer) := by
  obtain ⟨_, e, expiry, stored, expires, rfl⟩ := entryTtl_eq_some remaining
  intro e' same t' _ alive
  rw [stored] at same
  obtain rfl := Option.some.inj same
  rw [Entry.liveAt, expires] at alive
  change t' < expiry at alive
  change t' < t + longer * 1000
  have grown : (expiry - t₁) / 1000 * 1000 ≤ longer * 1000 :=
    mul_le_mul_of_nonneg_right enough (by norm_num)
  rw [div_mul_cancel₀ _ (by norm_num)] at grown
  linarith

/-- A writer of `prune` writes the pruned tree under the semaphore of its key. -/
theorem pruneWrite_guarded {content : Option R} {key : String} {tree : Tree R} {s : Knowledge R}
    (outside : s.held = none) (treeKey : TreeKey o key) (pruned : PrunedFrom o content tree s.since) :
    (pruneWrite o.toOptions key tree : Prog Y T R Unit).Guarded (pruneKind o content) (fun _ => none)
      (fun s _ => s.held = none) s := by
  have last : ∀ (entry : Option (Entry R)) (t₁ : ℚ) (ttl : Option ℚ), s.since ≤ t₁ →
      (∀ t, t₁ ≤ t → KeepsExpiry entry t (o.encodeTree tree) ttl) →
        (Prog.ret (o.treeSerializer.serialize tree) >>= fun serialized =>
          Prog.storageSet key serialized ttl >>= fun _ => Prog.dontWait key :
            Prog Y T R Unit).Guarded (pruneKind o content) (fun _ => none)
              (fun s _ => s.held = none) ⟨some (key, entry), t₁⟩ := by
    intro entry t₁ ttl late kept
    rw [o.serialize_tree]
    refine ⟨entry, rfl, fun t later =>
      ⟨⟨treeKey, ⟨tree, rfl, pruned.later (late.trans later)⟩, kept t later⟩, ?_⟩⟩
    exact ⟨⟨_, rfl⟩, rfl⟩
  unfold pruneWrite
  refine ⟨outside, fun t₁ later₁ entry t₂ later₂ ttl remaining => ?_⟩
  have known := remaining entry rfl
  change (persistTree o.toOptions key ttl tree >>= fun _ => Prog.dontWait key).Guarded _ _ _ _
  rw [persistTree]
  cases ttl with
  | none =>
      simp only [truthyNumber_none, Bool.false_eq_true, if_false, Prog.pure_eq, Prog.ret_ok_bind,
        Prog.bind_assoc]
      exact last entry t₂ none (later₁.trans later₂) fun t _ => keepsExpiry_none entry t _
  | some seconds =>
      have positive := (entryTtl_eq_some known.symm).1
      simp only [truthyNumber_some_of_pos seconds positive, if_true, Prog.storageTtl,
        Prog.getCurrentTtl_bind, Prog.bind_assoc]
      intro t₃ later₃ current _
      simp only [Prog.ret_ok_bind, Prog.pure_eq]
      cases current with
      | none =>
          exact last entry t₃ _ (later₁.trans (later₂.trans later₃)) fun t later =>
            keepsExpiry_some _ known.symm (later₃.trans later) (le_refl _)
      | some current =>
          exact last entry t₃ _ (later₁.trans (later₂.trans later₃)) fun t later =>
            keepsExpiry_some _ known.symm (later₃.trans later) (le_max_right _ _)

end

/-! ## What the pipeline has read -/

section
variable (o : LawfulOptions T R)

/-- `seen` is what the pipeline read last, and the time is `t`: a tree that it hands to a writer
is pruned from what was read. -/
def Sees : Prog Y T R (Option (String × Tree R)) → Option R → ℚ → Prop
  | .ret result, seen, t => ∀ key tree, result = .ok (some (key, tree)) →
      TreeKey o key ∧ PrunedFrom o seen tree t
  | .dateNow k, seen, t => ∀ t', t ≤ t' → Sees (k t') seen t'
  | .get _ k, _, t => ∀ content t', t ≤ t' → Sees (k (.ok content)) content t'
  | _, _, _ => True

variable {o}

theorem Sees.later {p : Prog Y T R (Option (String × Tree R))} {seen : Option R} {t t' : ℚ}
    (sees : Sees o p seen t) (later : t ≤ t') : Sees o p seen t' := by
  cases p with
  | ret result => exact fun key tree same => ⟨(sees key tree same).1, (sees key tree same).2.later later⟩
  | dateNow k => exact fun t'' more => sees t'' (later.trans more)
  | get key k => exact fun content t'' more => sees content t'' (later.trans more)
  | set key v ttl k => trivial
  | getCurrentTtl key k => trivial
  | registerChild parent child k => trivial
  | acquire key k => trivial
  | release key k => trivial
  | yield item k => trivial

theorem pruneRead_sees (positive : 1 ≤ o.keyLevelNodes) (key : String) (seen : Option R) (t : ℚ) :
    Sees (Y := Y) o (pruneRead o.toOptions key) seen t := by
  rw [pruneRead_eq o.toOptions key positive]
  intro now _ content t₁ _
  change Sees o (pruneContent o.toOptions (splitKey key) now
    (bareItem ((splitKey key).take o.keyLevelNodes)) content) content t₁
  rw [pruneContent_eq o.toOptions (splitKey key) (splitKey_ne_nil key) positive]
  split
  · exact fun _ _ same => (nomatch same)
  · cases buffer : truthy? content with
    | none => exact fun _ _ same => (nomatch same)
    | some r =>
        obtain ⟨stored, truthy⟩ := Option.filter_eq_some_iff.mp buffer
        cases decoded : o.treeSerializer.deserialize r with
        | error e =>
            simp only [decoded]
            exact fun _ _ same => (nomatch same)
        | ok old =>
            simp only [decoded]
            split
            · rename_i level
              intro t₂ _
              have wellFormed := o.treeSerializer.deserialize_wellFormed r old decoded
              dsimp only
              split
              · intro _ tree same
                obtain ⟨rfl, rfl⟩ := Prod.mk.inj (Option.some.inj (Except.ok.inj same))
                refine ⟨?_, r, old, t₂, stored, truthy, decoded, le_refl _,
                  pruneTree_wellFormed t₂ old _ wellFormed, pruneTree_fades t₂ old _ wellFormed⟩
                rw [TreeKey, buildKey_nodeRefOf _ (splitKey_ne_nil key),
                  splitKey_joinKeys _ (splitKey_ne_nil key) (colonFree_of_mem_splitKey key)]
                exact level
              · exact fun _ _ same => (nomatch same)
            · exact fun _ _ same => (nomatch same)

end

/-! ## Runs that remember what was read -/

/-- A run of `prune` with what its pipeline read last, and what it had read of the key of each
writer it has started. -/
structure Watched (Y T R : Type) where
  run : PruneRun Y T R
  seen : Option R
  handed : List (Option R)

namespace Watched

def start (w : World R) (threads : List (Thread Y T R)) (keys : List String) : Watched Y T R :=
  ⟨PruneRun.start w threads keys, none, []⟩

def seenAfter (s : Watched Y T R) : PruneAction → Option R
  | .pull => match s.run.reader with
    | .get key _ => s.run.pool.world.read key
    | _ => s.seen
  | .pool _ => s.seen

def handedAfter (s : Watched Y T R) : PruneAction → List (Option R)
  | .pull => match s.run.reader with
    | .ret (.ok (some _)) => s.handed ++ [s.seen]
    | _ => s.handed
  | .pool _ => s.handed

def act (o : Options T R) (s : Watched Y T R) (action : PruneAction) : Option (Watched Y T R) :=
  (s.run.act o action).map fun next => ⟨next, s.seenAfter action, s.handedAfter action⟩

/-- If the next operation of a writer of `prune` is its write, the key holds nothing or still what was
read of it.  The first `n` threads are no writers of `prune`. -/
def Fresh (n : Nat) (s : Watched Y T R) : PruneAction → Prop
  | .pool (.run i) => match s.run.pool.threads[i]? with
    | some ⟨_, .set key _ _ _⟩ => n ≤ i → ∀ content, s.run.pool.world.read key = some content →
        s.handed[i - n]? = some (some content)
    | _ => True
  | _ => True

/-- `prune` writes no tree back over another content than the one it had read. -/
def AllFresh (o : Options T R) (n : Nat) : Watched Y T R → List PruneAction → Prop
  | _, [] => True
  | s, action :: rest => s.Fresh n action ∧ ∀ next, s.act o action = some next → next.AllFresh o n rest

instance [DecidableEq R] (n : Nat) (s : Watched Y T R) (action : PruneAction) :
    Decidable (s.Fresh n action) := by
  unfold Fresh
  split
  · split
    · exact inferInstanceAs (Decidable (n ≤ _ → ∀ content ∈ s.run.pool.world.read _, _ = some (some content)))
    · exact inferInstanceAs (Decidable True)
  · exact inferInstanceAs (Decidable True)

instance decidableAllFresh [DecidableEq R] (o : Options T R) (n : Nat) :
    ∀ (schedule : List PruneAction) (s : Watched Y T R), Decidable (s.AllFresh o n schedule)
  | [], _ => inferInstanceAs (Decidable True)
  | action :: rest, s =>
      have : ∀ next : Watched Y T R, Decidable (next.AllFresh o n rest) := decidableAllFresh o n rest
      inferInstanceAs (Decidable (s.Fresh n action ∧ ∀ next ∈ s.act o action, next.AllFresh o n rest))

end Watched

/-! ## The invariant -/

omit [SerializedForm R] in
theorem GuardedPool.congr {kinds kinds' : Nat → Kind R} {p : Pool Y T R} (guarded : GuardedPool kinds p)
    (same : ∀ i, i < p.threads.length → kinds' i = kinds i) : GuardedPool kinds' p := by
  refine ⟨fun i thread running => ?_, guarded.beyond⟩
  rw [same i (List.getElem?_eq_some_iff.mp running).1]
  exact guarded.threads i thread running

omit [SerializedForm R] in
theorem Pool.advance_threads {p p' : Pool Y T R} {i : Nat} {thread : Thread Y T R}
    (advanced : p.advance i thread = some p') : p'.threads.length = p.threads.length := by
  unfold Pool.advance at advanced
  cases op : thread.prog with
  | ret result => rw [op] at advanced; cases advanced
  | acquire key k =>
      rw [op] at advanced
      simp only at advanced
      split at advanced
      · obtain rfl := Option.some.inj advanced
        exact List.length_set
      · cases advanced
  | _ =>
      rw [op] at advanced
      obtain rfl := Option.some.inj advanced
      exact List.length_set

omit [SerializedForm R] in
theorem Pool.act_threads {p p' : Pool Y T R} {action : Action} (acted : p.act action = some p') :
    p'.threads.length = p.threads.length := by
  cases action with
  | run i =>
      obtain ⟨thread, _, advanced⟩ := Option.bind_eq_some_iff.mp acted
      exact Pool.advance_threads advanced
  | fire key =>
      simp only [Pool.act] at acted
      split at acted
      · obtain rfl := Option.some.inj acted
        rfl
      · cases acted
  | tick t =>
      simp only [Pool.act] at acted
      split at acted
      · obtain rfl := Option.some.inj acted
        rfl
      · cases acted

omit [SerializedForm R] in
/-- The operation of a thread is a write, or the entries and the clock stay. -/
theorem Pool.advance_world {p p' : Pool Y T R} {i : Nat} {thread : Thread Y T R}
    (advanced : p.advance i thread = some p') :
    (∃ key value ttl k, thread.prog = .set key value ttl k ∧ p'.world = p.world.write key value ttl) ∨
      (p'.world.store = p.world.store ∧ p'.world.clock = p.world.clock) := by
  unfold Pool.advance at advanced
  cases op : thread.prog with
  | ret result => rw [op] at advanced; cases advanced
  | set key v ttl k =>
      rw [op] at advanced
      obtain rfl := Option.some.inj advanced
      exact Or.inl ⟨key, v, ttl, k, rfl, rfl⟩
  | acquire key k =>
      rw [op] at advanced
      simp only at advanced
      split at advanced
      · obtain rfl := Option.some.inj advanced
        exact Or.inr ⟨rfl, rfl⟩
      · cases advanced
  | _ =>
      rw [op] at advanced
      obtain rfl := Option.some.inj advanced
      exact Or.inr ⟨rfl, rfl⟩

omit [SerializedForm R] in
theorem Pool.act_clock {p p' : Pool Y T R} {action : Action} (acted : p.act action = some p') :
    p.world.clock ≤ p'.world.clock := by
  cases action with
  | run i =>
      obtain ⟨thread, _, advanced⟩ := Option.bind_eq_some_iff.mp acted
      rcases Pool.advance_world advanced with ⟨key, value, ttl, k, _, written⟩ | ⟨_, same⟩
      · rw [written]
        exact le_refl _
      · exact le_of_eq same.symm
  | fire key =>
      simp only [Pool.act] at acted
      split at acted
      · obtain rfl := Option.some.inj acted
        exact le_refl _
      · cases acted
  | tick t =>
      simp only [Pool.act] at acted
      split at acted
      · rename_i later
        obtain rfl := Option.some.inj acted
        exact later
      · cases acted

section
variable (o : LawfulOptions T R) (n : Nat)

/-- The first `n` threads may write anything, the writers of `prune` what was pruned from what had
been read. -/
def watchedKinds (handed : List (Option R)) (i : Nat) : Kind R :=
  if n ≤ i then pruneKind o (handed[i - n]?.join) else anyKind

structure WatchedGuards (s : Watched Y T R) : Prop where
  reader : Sees o s.run.reader s.seen s.run.pool.world.clock
  length : s.run.pool.threads.length = n + s.handed.length
  guarded : GuardedPool (watchedKinds o n s.handed) s.run.pool

variable {o} {n}

theorem WatchedGuards.hand {s : Watched Y T R} (guards : WatchedGuards o n s) {key : String} {tree : Tree R}
    (treeKey : TreeKey o key) (pruned : PrunedFrom o s.seen tree s.run.pool.world.clock) :
    WatchedGuards o n ⟨{ s.run with
      pool := { s.run.pool with threads :=
        s.run.pool.threads ++ [⟨fun _ => none, pruneWrite o.toOptions key tree⟩] }
      reader := .ret (.ok none) }, s.seen, s.handed ++ [s.seen]⟩ := by
  have length := guards.length
  have old : GuardedPool (watchedKinds o n (s.handed ++ [s.seen])) s.run.pool := by
    refine guards.guarded.congr fun i bound => ?_
    unfold watchedKinds
    by_cases writer : n ≤ i
    · rw [if_pos writer, if_pos writer, List.getElem?_append_left (by omega)]
    · rw [if_neg writer, if_neg writer]
  refine ⟨fun _ _ same => (nomatch same), ?_, ?_⟩
  · change (s.run.pool.threads ++ [_]).length = n + (s.handed ++ [s.seen]).length
    rw [List.length_append, List.length_append, length, List.length_singleton, List.length_singleton,
      Nat.add_assoc]
  · have kind : watchedKinds o n (s.handed ++ [s.seen]) s.run.pool.threads.length =
        pruneKind o s.seen := by
      unfold watchedKinds
      rw [if_pos (by omega), length, Nat.add_sub_cancel_left, List.getElem?_concat_length]
      rfl
    refine old.join _ ?_
    rw [kind]
    exact pruneWrite_guarded o rfl treeKey pruned

theorem WatchedGuards.pull {s next : Watched Y T R} (guards : WatchedGuards o n s)
    (positive : 1 ≤ o.keyLevelNodes) (pulled : s.act o.toOptions .pull = some next) :
    WatchedGuards o n next := by
  obtain ⟨run, moved, rfl⟩ := Option.map_eq_some_iff.mp pulled
  obtain ⟨⟨pool, keys, reader⟩, seen, handed⟩ := s
  have sees := guards.reader
  cases reader with
  | ret result =>
      cases result with
      | error e => cases moved
      | ok found =>
          cases found with
          | none =>
              cases keys with
              | nil => cases moved
              | cons key rest =>
                  obtain rfl := Option.some.inj moved
                  exact ⟨pruneRead_sees positive key seen pool.world.clock, guards.length, guards.guarded⟩
          | some item =>
              obtain ⟨key, tree⟩ := item
              obtain rfl := Option.some.inj moved
              obtain ⟨treeKey, pruned⟩ := sees key tree rfl
              exact guards.hand treeKey pruned
  | dateNow k =>
      obtain rfl := Option.some.inj moved
      exact ⟨sees pool.world.clock (le_refl _), guards.length, guards.guarded⟩
  | get key k =>
      obtain rfl := Option.some.inj moved
      exact ⟨sees (pool.world.read key) pool.world.clock (le_refl _), guards.length, guards.guarded⟩
  | set key v ttl k => cases moved
  | getCurrentTtl key k => cases moved
  | registerChild parent child k => cases moved
  | acquire key k => cases moved
  | release key k => cases moved
  | yield item k => cases moved

theorem WatchedGuards.act {s next : Watched Y T R} (guards : WatchedGuards o n s)
    (positive : 1 ≤ o.keyLevelNodes) {action : PruneAction}
    (acted : s.act o.toOptions action = some next) : WatchedGuards o n next := by
  cases action with
  | pull => exact guards.pull positive acted
  | pool action =>
      obtain ⟨run, moved, rfl⟩ := Option.map_eq_some_iff.mp acted
      obtain ⟨pool, stepped, rfl⟩ := Option.map_eq_some_iff.mp moved
      exact ⟨guards.reader.later (Pool.act_clock stepped),
        (Pool.act_threads stepped).trans guards.length, guards.guarded.act action stepped⟩

theorem watchedGuards_start (w : World R) (threads : List (Thread Y T R)) (keys : List String)
    (safe : ∀ thread ∈ threads, ∀ t,
      thread.prog.Guarded anyKind thread.consumer (fun s _ => s.held = none) ⟨none, t⟩) :
    WatchedGuards o threads.length (Watched.start w threads keys) := by
  refine ⟨fun _ _ same => (nomatch same), rfl, guardedPool_start w threads ?_⟩
  intro i thread running t
  have before : ¬ threads.length ≤ i := Nat.not_le.mpr (List.getElem?_eq_some_iff.mp running).1
  rw [watchedKinds, if_neg before]
  exact safe thread (List.mem_of_getElem? running) t

theorem WatchedGuards.written {s : Watched Y T R} (guards : WatchedGuards o n s) {i : Nat}
    {thread : Thread Y T R} (writer : n ≤ i) (running : s.run.pool.threads[i]? = some thread)
    {key : String} {value : R} {ttl : Option ℚ} {k : Except Err Unit → Prog Y T R Unit}
    (writing : thread.prog = .set key value ttl k) :
    pruneKind o (s.handed[i - n]?.join) key (s.run.pool.world.store key) s.run.pool.world.clock
      value ttl := by
  have kind := guards.guarded.kind running writing
  rw [watchedKinds, if_pos writer] at kind
  exact kind

end

end TreeKeyCache
