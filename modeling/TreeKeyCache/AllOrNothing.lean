import TreeKeyCache.AnyKeys
import TreeKeyCache.ChildrenRegistry
import TreeKeyCache.KeyCoders

/-! # A failing `setNode` changes nothing

On the way down `deepTreeSet` may write once at every key level.  In `setNode` the nodes
above the last one keep the value that was read, and a value in canonical form serializes
to what is stored already, so nothing is written before the chained key of the whole path.
After that write no storage operation follows that could fail.  The chained key is the one
that holds the path's node unless the path begins with an empty key. -/
set_option autoImplicit false
namespace TreeKeyCache

open Prog

variable {Y T R A : Type}

inductive StorageOp (R : Type) where
  | get (key : String)
  | set (key : String) (value : R) (ttl : Option ℚ)
  | getCurrentTtl (key : String)
  | registerChild (parentKey : Option String) (partialKey : String)

def StorageOp.isSet : StorageOp R → Bool
  | .set _ _ _ => true
  | _ => false

/-- The storage, and the operations that were called on it, oldest first. -/
structure Session (R : Type) where
  world : World R
  operations : List (StorageOp R)

namespace Session

def start (w : World R) : Session R := ⟨w, []⟩

def wait (s : Session R) (t : ℚ) : Session R := { s with world := { s.world with clock := t } }

def called (s : Session R) (op : StorageOp R) : Session R :=
  { s with operations := s.operations ++ [op] }

def within (s : Session R) (w : World R) : Session R := { s with world := w }

end Session

/-- Every operation takes some time, and succeeds or is rejected; one that is rejected has
no effect. -/
def faultyStorage : Environment (Session R) Y T R where
  dateNow s t s' := s.world.clock ≤ t ∧ s' = s.wait t
  get s key answer s' := ∃ t, s.world.clock ≤ t ∧ s' = (s.wait t).called (.get key) ∧
    (answer = .ok ((s.wait t).world.read key) ∨ ∃ e, answer = .error e)
  set s key value ttl answer s' := ∃ t, s.world.clock ≤ t ∧
    ((answer = .ok () ∧ s' = ((s.wait t).called (.set key value ttl)).within
        ((s.wait t).world.write key value ttl)) ∨
      ((∃ e, answer = .error e) ∧ s' = (s.wait t).called (.set key value ttl)))
  getCurrentTtl s key answer s' := ∃ t, s.world.clock ≤ t ∧
    s' = (s.wait t).called (.getCurrentTtl key) ∧
    (answer = .ok ((s.wait t).world.currentTtl key) ∨ ∃ e, answer = .error e)
  registerChild s parent child answer s' := ∃ t, s.world.clock ≤ t ∧
    ((answer = .ok () ∧ s' = ((s.wait t).called (.registerChild parent child)).within
        ((s.wait t).world.register parent child)) ∨
      ((∃ e, answer = .error e) ∧ s' = (s.wait t).called (.registerChild parent child)))
  acquire s _ _ s' := ∃ t, s.world.clock ≤ t ∧ s' = s.wait t
  release s _ s' := s' = s
  yield s _ _ s' := ∃ t, s.world.clock ≤ t ∧ s' = s.wait t

/-! ## What a run has done -/

section
variable [PrimitiveForm R] (o : Options T R)

/-- Serializing what a stored value decodes to gives the stored value again. -/
def InForm (r : R) : Prop :=
  ∀ v, o.valueSerializer.deserialize r = .ok (some v) → o.valueSerializer.serialize v = .ok r

/-- The values stored at the key levels above the path's node are in canonical form. -/
def CanonicalAbove (w : World R) (path : List String) : Prop :=
  ∀ n key entry, n + 1 < o.keyLevelNodes → n + 1 < path.length →
    chainedKeyOf (path.take (n + 1)) = some key → w.store key = some entry → InForm o entry.content

end

variable (w : World R)

structure Untouched (s : Session R) : Prop where
  store : s.world.store = w.store
  operations : ∀ op ∈ s.operations, op.isSet = false

/-- The last operation, and no other, is a write of `key`. -/
def EndsWithSet (key : Option String) (operations : List (StorageOp R)) : Prop :=
  ∃ front target value ttl, operations = front ++ [.set target value ttl] ∧ key = some target ∧
    ∀ op ∈ front, op.isSet = false

/-- Nothing has been written, or the last operation was the write of `key`; if that was
rejected the run has failed, and otherwise it has not. -/
def WritesAtMost (key : Option String) (s : Session R) (result : Except Err A) : Prop :=
  Untouched w s ∨ (EndsWithSet key s.operations ∧ ((∃ e, result = .error e) → s.world.store = w.store))

variable {w}

theorem Untouched.wait {s : Session R} (untouched : Untouched w s) (t : ℚ) : Untouched w (s.wait t) :=
  ⟨untouched.store, untouched.operations⟩

theorem Untouched.called {s : Session R} (untouched : Untouched w s) {op : StorageOp R}
    (reading : op.isSet = false) : Untouched w (s.called op) := by
  refine ⟨untouched.store, fun other member => ?_⟩
  rcases List.mem_append.mp member with older | last
  · exact untouched.operations other older
  · rw [List.mem_singleton.mp last]
    exact reading

theorem Untouched.register {s : Session R} (untouched : Untouched w s) (parent : Option String)
    (child : String) : Untouched w (s.within (s.world.register parent child)) :=
  ⟨untouched.store, untouched.operations⟩

theorem Prog.Quiet.untouched {body : Y → Except Err (Option T)} {p : Prog Y T R A} (quiet : p.Quiet)
    {s : Session R} (untouched : Untouched w s) :
    p.Wp (faultyStorage.consuming body) (fun s' _ => Untouched w s') s := by
  induction p generalizing s with
  | ret result => exact untouched
  | dateNow k ih =>
      rintro t _ ⟨_, rfl⟩
      exact ih t (quiet t) (untouched.wait t)
  | get key k ih =>
      rintro answer _ ⟨t, _, rfl, _⟩
      exact ih answer (quiet answer) ((untouched.wait t).called rfl)
  | getCurrentTtl key k ih =>
      rintro answer _ ⟨t, _, rfl, _⟩
      exact ih answer (quiet answer) ((untouched.wait t).called rfl)
  | yield item k ih =>
      rintro answer _ ⟨_, rfl⟩
      exact ih answer (quiet answer) untouched
  | set key value ttl k ih => exact quiet.elim
  | registerChild parent child k ih => exact quiet.elim
  | acquire key k ih => exact quiet.elim
  | release key k ih => exact quiet.elim

theorem storageSet_writesAtMost {body : Y → Except Err (Option T)} (key : String) (value : R)
    (ttl : Option ℚ) {s : Session R} (untouched : Untouched w s) :
    (storageSet key value ttl : Prog Y T R Unit).Wp (faultyStorage.consuming body)
      (WritesAtMost w (some key)) s := by
  have listed : ∀ s' : Session R, s'.operations = s.operations ++ [.set key value ttl] →
      EndsWithSet (some key) s'.operations :=
    fun s' same => ⟨s.operations, key, value, ttl, same, rfl, untouched.operations⟩
  rintro answer s' ⟨t, _, ⟨rfl, rfl⟩ | ⟨⟨e, rfl⟩, rfl⟩⟩
  · exact Or.inr ⟨listed _ rfl, fun ⟨_, failed⟩ => (nomatch failed)⟩
  · exact Or.inr ⟨listed _ rfl, fun _ => untouched.store⟩

theorem lockedSection_untouched {body : Y → Except Err (Option T)} (locked : Bool) (key : String)
    {p : Prog Y T R A} {post : Session R → Except Err A → Prop}
    (early : ∀ s e, Untouched w s → post s (.error e)) {s : Session R} (untouched : Untouched w s)
    (inside : ∀ s, Untouched w s → p.Wp (faultyStorage.consuming body) post s) :
    (if locked then semaphoreAcquire key >>= fun _ =>
        p.tryFinally (if locked then dontWait key else pure ())
      else p.tryFinally (if locked then dontWait key else pure ())).Wp
        (faultyStorage.consuming body) post s := by
  cases locked with
  | false => exact Wp.tryFinally (inside s untouched)
  | true =>
      rintro answer _ ⟨t, _, rfl⟩
      cases answer with
      | error e => exact early _ e (untouched.wait t)
      | ok _ =>
          apply Wp.tryFinally
          refine (inside _ (untouched.wait t)).mono fun s' result reached => ?_
          rintro _ rfl
          exact reached

/-! ## Statements -/

section
variable {B : Type} {body : Y → Except Err (Option T)} {post : Session R → Except Err B → Prop}
  {s : Session R}

theorem storageGet_then (untouched : Untouched w s) (early : ∀ s e, Untouched w s → post s (.error e))
    (key : String) {f : Option R → Prog Y T R B}
    (rest : ∀ s content, Untouched w s →
      (∀ r, content = some r → ∃ entry, w.store key = some entry ∧ entry.content = r) →
        (f content).Wp (faultyStorage.consuming body) post s) :
    (storageGet key >>= f).Wp (faultyStorage.consuming body) post s := by
  rintro answer _ ⟨t, _, rfl, read⟩
  have reading : (StorageOp.get key : StorageOp R).isSet = false := rfl
  have still := (untouched.wait t).called reading
  rcases read with rfl | ⟨e, rfl⟩
  · refine rest _ _ still fun r found => ?_
    rw [World.read, World.readAt] at found
    split at found
    · cases found
    · rename_i entry stored
      refine ⟨entry, untouched.store ▸ stored, ?_⟩
      split at found
      · exact Option.some.inj found
      · cases found
  · exact early _ e still

theorem storageRegister_then (untouched : Untouched w s)
    (early : ∀ s e, Untouched w s → post s (.error e)) (parent : Option String) (child : String)
    {f : Unit → Prog Y T R B}
    (rest : ∀ s, Untouched w s → (f ()).Wp (faultyStorage.consuming body) post s) :
    (storageRegister parent child >>= f).Wp (faultyStorage.consuming body) post s := by
  rintro answer _ ⟨t, _, ⟨rfl, rfl⟩ | ⟨⟨e, rfl⟩, rfl⟩⟩
  · exact rest _ (((untouched.wait t).register parent child).called rfl)
  · exact early _ e ((untouched.wait t).called rfl)

theorem yieldItem_then (early : ∀ e, post s (.error e)) (item : Y) {f : Option T → Prog Y T R B}
    (rest : ∀ left, body item = .ok left → (f left).Wp (faultyStorage.consuming body) post s) :
    (yieldItem item >>= f).Wp (faultyStorage.consuming body) post s := by
  rintro answer _ ⟨rfl, rfl⟩
  cases answered : body item with
  | error e => exact early e
  | ok left => exact rest left answered

theorem quiet_then {p : Prog Y T R A} (quiet : p.Quiet) (untouched : Untouched w s)
    (early : ∀ s e, Untouched w s → post s (.error e)) {f : A → Prog Y T R B}
    (rest : ∀ s a, Untouched w s → (f a).Wp (faultyStorage.consuming body) post s) :
    (p >>= f).Wp (faultyStorage.consuming body) post s :=
  Wp.seq (fun s' _ => Untouched w s') (quiet.untouched untouched) early rest

end

/-! ## The run of `setNode` -/

section
variable [PrimitiveForm R] (o : Options T R) (ttl : Option (StepTtl T)) {path : List String}

theorem persistStep_writesAtMost {body : Y → Except Err (Option T)} (step : Step T)
    (current : Option R) (key : String) {s : Session R} (untouched : Untouched w s) :
    (persistStep o step current key ttl : Prog Y T R Unit).Wp (faultyStorage.consuming body)
      (WritesAtMost w (some key)) s := by
  unfold persistStep
  split
  · exact Or.inl untouched
  · refine quiet_then (quiet_ret _) untouched (fun _ _ still => Or.inl still) fun s r still => ?_
    split
    · exact storageSet_writesAtMost key r _ still
    · exact Or.inl still

theorem persistStep_canonical {body : Y → Except Err (Option T)} (step : Step T) (current : Option R)
    (key : String) (kept : step.value = current.bind (deserializeValue o))
    (canonical : ∀ r, current = some r → InForm o r) {s : Session R} (untouched : Untouched w s) :
    (persistStep o step current key ttl : Prog Y T R Unit).Wp (faultyStorage.consuming body)
      (fun s' _ => Untouched w s') s := by
  unfold persistStep
  split
  · exact untouched
  · rename_i v held
    rw [Options.eq_of_given held] at kept
    obtain ⟨r, rfl, decoded⟩ := Option.bind_eq_some_iff.mp kept.symm
    have serialized : o.valueSerializer.serialize v = .ok r := by
      refine canonical r rfl v ?_
      unfold deserializeValue at decoded
      split at decoded
      · rename_i answer found
        rw [found, decoded]
      · cases decoded
    have same : differs (some r) r = false := by
      rw [differs, PrimitiveForm.same_refl]
      rfl
    simp only [serialized, Prog.ret_ok_bind, same, Bool.false_eq_true, if_false]
    exact untouched

/-- The cursor is `n` levels down the path. -/
def AtDepth (path : List String) (n : Nat) (cursor : Cursor) : Prop :=
  cursor.currentLevel = n ∧ cursor.chainedKey = chainedKeyOf (path.take n)

/-- What `n` key levels have done: a level above the last key of the path writes nothing. -/
structure Descent (w : World R) (path : List String) (n : Nat) (s : Session R)
    (result : Except Err Cursor) : Prop where
  writes : WritesAtMost w (chainedKeyOf (path.take n)) s result
  above : n < path.length → Untouched w s
  arrived : ∀ next, result = .ok next → AtDepth path n next

omit [PrimitiveForm R] in
theorem descent_failed {n : Nat} {s : Session R} (e : Err) (untouched : Untouched w s) :
    Descent w path n s (.error e) :=
  ⟨Or.inl untouched, fun _ => untouched, fun _ failed => (nomatch failed)⟩

theorem keyLevel_descent (value : NodeValue T) (canonical : CanonicalAbove o w path)
    (minLevelSemaphore n : Nat) (bound : n < path.length) (keyLevel : n + 1 < o.keyLevelNodes)
    (cursor : Cursor) (atDepth : AtDepth path n cursor) {s : Session R} (untouched : Untouched w s) :
    (TreeKeyCache.keyLevel o path (some fun _ => .ok none) ttl minLevelSemaphore cursor).Wp
      (faultyStorage.consuming (assignAt path.length value)) (Descent w path (n + 1)) s := by
  have early : ∀ s e, Untouched w s → Descent w path (n + 1) s (.error e) :=
    fun s e still => descent_failed e still
  have target := chainedKeyOf_take_succ path n bound
  unfold TreeKeyCache.keyLevel
  rw [atDepth.1, atDepth.2, getChainedKey_chainedKeyOf path n bound]
  simp only [Prog.pure_eq, Prog.ret_ok_bind]
  generalize chainKey (chainedKeyOf (path.take n)) path[n] = key at target
  refine storageRegister_then untouched early _ _ fun s untouched => ?_
  refine lockedSection_untouched _ _ early untouched fun s untouched => ?_
  refine storageGet_then untouched early key fun s current untouched stored => ?_
  have stepped : getStep o current (ChainedObject.ofParent path[n] (n + 1) cursor.nodeRef)
      (some fun _ => .ok none) = .ok (mountStep (ChainedObject.ofParent path[n] (n + 1)
        cursor.nodeRef) (current.bind (deserializeValue o))) := by
    cases current <;> rfl
  rw [stepped]
  simp only [Prog.ret_ok_bind]
  refine yieldItem_then (fun e => early s e untouched) _ fun left assigned => ?_
  by_cases last : n + 1 = path.length
  · refine Wp.seq _ (persistStep_writesAtMost o ttl _ current key untouched) ?_ ?_
    · intro s e writes
      refine ⟨?_, fun above => absurd last (by omega), fun _ failed => (nomatch failed)⟩
      rw [target]
      exact writes.imp id fun ends => ⟨ends.1, fun _ => ends.2 ⟨e, rfl⟩⟩
    · intro s _ writes
      refine ⟨?_, fun above => absurd last (by omega), fun next same => ?_⟩
      · rw [target]
        exact writes.imp id fun ends => ⟨ends.1, fun ⟨_, failed⟩ => (nomatch failed)⟩
      · obtain rfl := Except.ok.inj same
        exact ⟨rfl, target.symm⟩
  · have kept : left = current.bind (deserializeValue o) := by
      simp only [assignAt, mountStep, ChainedObject.level_ofParent, if_neg last] at assigned
      exact (Except.ok.inj assigned).symm
    have wellFormed : ∀ r, current = some r → InForm o r := by
      intro r found
      obtain ⟨entry, here, rfl⟩ := stored r found
      exact canonical n key entry keyLevel (by omega) target here
    refine Wp.seq _ (persistStep_canonical o ttl _ current key kept wellFormed untouched) early ?_
    intro s _ still
    refine ⟨Or.inl still, fun _ => still, fun next same => ?_⟩
    obtain rfl := Except.ok.inj same
    exact ⟨rfl, target.symm⟩

theorem keyLevels_descent (value : NodeValue T) (canonical : CanonicalAbove o w path)
    (minLevelSemaphore : Nat) : ∀ (count n : Nat) (cursor : Cursor) (s : Session R),
      n + count ≤ path.length → n + count ≤ o.keyLevelNodes - 1 → AtDepth path n cursor →
      Untouched w s →
      (keyLevels o path (some fun _ => .ok none) ttl minLevelSemaphore count cursor).Wp
        (faultyStorage.consuming (assignAt path.length value)) (Descent w path (n + count)) s := by
  intro count
  induction count with
  | zero =>
      intro n cursor s _ _ atDepth untouched
      refine ⟨Or.inl untouched, fun _ => untouched, fun next same => ?_⟩
      obtain rfl := Except.ok.inj same
      exact atDepth
  | succ count ih =>
      intro n cursor s bound keyLevel atDepth untouched
      unfold keyLevels
      refine Wp.seq (Descent w path (n + 1)) (keyLevel_descent o ttl value canonical
        minLevelSemaphore n (by omega) (by omega) cursor atDepth untouched) ?_ ?_
      · intro s e descent
        by_cases last : n + 1 = path.length
        · obtain rfl : count = 0 := by omega
          exact descent
        · exact descent_failed e (descent.above (by omega))
      · intro s next descent
        by_cases last : n + 1 = path.length
        · obtain rfl : count = 0 := by omega
          exact descent
        · have rest := ih (n + 1) next s (by omega) (by omega) (descent.arrived next rfl)
            (descent.above (by omega))
          rwa [Nat.add_right_comm, Nat.add_assoc] at rest

omit [PrimitiveForm R] in
theorem persistTree_writesAtMost {body : Y → Except Err (Option T)} (key : String) (maxTtl : Option ℚ)
    (tree : Tree R) {s : Session R} (untouched : Untouched w s) :
    (persistTree o key maxTtl tree : Prog Y T R Unit).Wp (faultyStorage.consuming body)
      (WritesAtMost w (some key)) s := by
  have store : ∀ seconds s, Untouched w s → (Prog.ret (o.treeSerializer.serialize tree) >>=
      fun serialized => Prog.storageSet key serialized seconds : Prog Y T R Unit).Wp
        (faultyStorage.consuming body) (WritesAtMost w (some key)) s := by
    intro seconds s untouched
    refine quiet_then (quiet_ret _) untouched (fun _ _ still => Or.inl still) fun s r still => ?_
    exact storageSet_writesAtMost key r seconds still
  unfold persistTree
  split
  · exact quiet_then (quiet_storageTtl key) untouched (fun _ _ still => Or.inl still)
      fun s current still => store _ s still
  · exact store none s untouched

theorem treeLevel_writesAtMost {body : Step T → Except Err (Option T)}
    (createValue : Option (CreateValue T)) (minLevelSemaphore n : Nat) (bound : n < path.length)
    (now : ℚ) (cursor : Cursor) (atDepth : AtDepth path n cursor) {s : Session R}
    (untouched : Untouched w s) :
    (treeLevel o path createValue ttl minLevelSemaphore now cursor).Wp (faultyStorage.consuming body)
      (WritesAtMost w (chainedKeyOf (path.take (n + 1)))) s := by
  have early : ∀ (s : Session R) (e : Err), Untouched w s →
      WritesAtMost w (chainedKeyOf (path.take (n + 1))) s (.error e : Except Err Unit) :=
    fun _ _ still => Or.inl still
  have target := chainedKeyOf_take_succ path n bound
  unfold treeLevel
  rw [atDepth.1, atDepth.2, getChainedKey_chainedKeyOf path n bound]
  simp only [Prog.pure_eq, Prog.ret_ok_bind]
  generalize chainKey (chainedKeyOf (path.take n)) path[n] = key at target
  refine lockedSection_untouched _ _ early untouched fun s untouched => ?_
  refine quiet_then (quiet_storageGet key) untouched early fun s buffer untouched => ?_
  refine quiet_then (quiet_ret _) untouched early fun s rootTree untouched => ?_
  refine quiet_then (treeLevels_quiet o createValue ttl now _ _ _ _ _ _) untouched early
    fun s result untouched => ?_
  split
  · rw [target]
    exact persistTree_writesAtMost o key _ _ untouched
  · exact Or.inl untouched

/-- The keys above the tree level are all empty, so that their chained key is too: the call rejects
there. -/
def Stuck (keyLevelNodes : Nat) (path : List String) : Prop :=
  keyLevelNodes ≤ path.length ∧ ∀ key ∈ path.take (keyLevelNodes - 1), key = ""

omit [PrimitiveForm R] in
theorem WritesAtMost.untouched_of_stuck {keyLevelNodes : Nat} {s : Session R} {result : Except Err A}
    (writes : WritesAtMost w (chainedKeyOf (path.take keyLevelNodes)) s result)
    (stuck : Stuck keyLevelNodes path) (ended : path.length ≤ min (keyLevelNodes - 1) path.length) :
    Untouched w s := by
  have long := stuck.1
  obtain rfl : path = [] := List.eq_nil_of_length_eq_zero (by omega)
  refine writes.resolve_right fun ends => ?_
  obtain ⟨front, target, v, seconds, _, key, _⟩ := ends.1
  rw [List.take_nil] at key
  cases key

theorem deepTreeSet_writesAtMost (value : NodeValue T) (canonical : CanonicalAbove o w path)
    (minLevelSemaphore : Nat) {s : Session R} (untouched : Untouched w s) :
    (deepTreeSet o path (some fun _ => .ok none) ttl [] minLevelSemaphore).Wp
      (faultyStorage.consuming (assignAt path.length value)) (fun s result =>
        WritesAtMost w (chainedKeyOf (path.take o.keyLevelNodes)) s result ∧
          (Stuck o.keyLevelNodes path → Untouched w s)) s := by
  have early : ∀ (s : Session R) (result : Except Err Unit), Untouched w s →
      WritesAtMost w (chainedKeyOf (path.take o.keyLevelNodes)) s result ∧
        (Stuck o.keyLevelNodes path → Untouched w s) :=
    fun s _ still => ⟨Or.inl still, fun _ => still⟩
  unfold deepTreeSet
  refine quiet_then quiet_now untouched (fun s e still => early s _ still) fun s now untouched => ?_
  have levels := keyLevels_descent o ttl value canonical minLevelSemaphore
    (min (o.keyLevelNodes - 1) path.length) 0 ⟨0, none, none⟩ s (by omega) (by omega)
    ⟨rfl, rfl⟩ untouched
  rw [Nat.zero_add] at levels
  refine Wp.seq (Descent w path (min (o.keyLevelNodes - 1) path.length)) levels ?_ ?_
  · intro s e descent
    by_cases deep : min (o.keyLevelNodes - 1) path.length < path.length
    · exact early s _ (descent.above deep)
    · have whole : path.take (min (o.keyLevelNodes - 1) path.length) = path.take o.keyLevelNodes := by
        rw [List.take_of_length_le (by omega), List.take_of_length_le (by omega)]
      have writes := descent.writes
      rw [whole] at writes
      refine ⟨writes.imp id fun ends => ⟨ends.1, fun _ => ends.2 ⟨e, rfl⟩⟩, fun stuck => ?_⟩
      exact writes.untouched_of_stuck stuck (by omega)
  · intro s cursor descent
    have arrived := descent.arrived cursor rfl
    rw [arrived.1]
    by_cases deep : min (o.keyLevelNodes - 1) path.length < path.length
    · have still := descent.above deep
      have levelled : min (o.keyLevelNodes - 1) path.length = o.keyLevelNodes - 1 := by omega
      rw [levelled] at arrived
      rw [if_pos deep]
      split
      · exact early s _ still
      · rename_i started
        -- a chained key has been built, so there are two levels at least
        have twoLevels : o.keyLevelNodes - 1 + 1 = o.keyLevelNodes := by
          by_contra small
          have none : o.keyLevelNodes - 1 = 0 := by omega
          rw [arrived.2, none] at started
          exact started rfl
        have writes : (treeLevel o path (some fun _ => .ok none) ttl minLevelSemaphore now cursor).Wp
            (faultyStorage.consuming (assignAt path.length value))
            (WritesAtMost w (chainedKeyOf (path.take (o.keyLevelNodes - 1 + 1)))) s :=
          treeLevel_writesAtMost o ttl (some fun _ => .ok none) minLevelSemaphore
            (o.keyLevelNodes - 1) (by omega) now cursor arrived still
        rw [twoLevels] at writes
        refine writes.mono fun s result reached => ⟨reached, fun stuck => absurd ?_ started⟩
        rw [arrived.2]
        exact (chainedKeyOf_empty_iff _).mpr stuck.2
    · rw [if_neg deep]
      have whole : path.take (min (o.keyLevelNodes - 1) path.length) = path.take o.keyLevelNodes := by
        rw [List.take_of_length_le (by omega), List.take_of_length_le (by omega)]
      have writes := descent.writes
      rw [whole] at writes
      refine ⟨writes.imp id fun ends => ⟨ends.1, fun ⟨_, failed⟩ => (nomatch failed)⟩, fun stuck => ?_⟩
      exact writes.untouched_of_stuck stuck (by omega)

theorem setNode_writesAtMost (value : Option (NodeValue T)) (w : World R) (path : List String)
    (canonical : CanonicalAbove o w path) {result : Except Err Unit} {s : Session R}
    (runs : (setNode o path value ttl).Runs faultyStorage (Session.start w) result s) :
    WritesAtMost w (chainedKeyOf (path.take o.keyLevelNodes)) s result ∧
      (Stuck o.keyLevelNodes path → Untouched w s) := by
  have fresh : Untouched w (Session.start w) := ⟨rfl, fun op member => (nomatch member)⟩
  suffices holds : (setNode o path value ttl).Wp faultyStorage
      (fun s result => WritesAtMost w (chainedKeyOf (path.take o.keyLevelNodes)) s result ∧
        (Stuck o.keyLevelNodes path → Untouched w s)) (Session.start w) from Wp.sound holds runs
  unfold setNode
  cases value.filter fun value => !value.isNull o with
  | none => exact ⟨Or.inl fresh, fun _ => fresh⟩
  | some value => exact Wp.forAwait (deepTreeSet_writesAtMost o ttl value canonical path.length fresh)

end

/-! ## The key that holds the node -/

/-- The key of the entry that holds the node at `path`: the one under which it is read. -/
def holdingKey (keyLevelNodes : Nat) (path : List String) : String :=
  joinKeys (path.take keyLevelNodes)

/-- `setNode` writes at most once, the entry that holds its node, as its last operation on the
storage; when it rejects, no entry has changed.  This is said of every cache with so many key
levels, every value, ttl and storage, and whatever fails. -/
def AllOrNothing (T R : Type) [PrimitiveForm R] (keyLevelNodes : Nat) (path : List String) : Prop :=
  ∀ (o : Options T R), o.keyLevelNodes = keyLevelNodes → ∀ (value : Option (NodeValue T))
    (ttl : Option (StepTtl T)) (w : World R), CanonicalAbove o w path →
    ∀ (result : Except Err Unit) (s : Session R),
      (setNode o path value ttl).Runs faultyStorage (Session.start w) result s →
        ((∀ op ∈ s.operations, op.isSet = false) ∨
          EndsWithSet (some (holdingKey keyLevelNodes path)) s.operations) ∧
        ((∃ e, result = .error e) → s.world.store = w.store)

/-- The path does not begin with an empty key that another one follows; or it does, and the call
never reaches the tree. -/
def KeptKey (keyLevelNodes : Nat) (path : List String) : Prop :=
  path.head? ≠ some "" ∨ path.length ≤ 1 ∨ Stuck keyLevelNodes path

theorem chainedKeyOf_holds (keyLevelNodes : Nat) {path : List String} {target : String}
    (kept : path.head? ≠ some "" ∨ path.length ≤ 1)
    (found : chainedKeyOf (path.take keyLevelNodes) = some target) :
    target = holdingKey keyLevelNodes path := by
  have nonempty : path.take keyLevelNodes ≠ [] := by
    intro none
    rw [none] at found
    cases found
  refine Option.some.inj (found.symm.trans ?_)
  rcases kept with first | single
  · refine chainedKeyOf_eq_of_first _ nonempty fun empty => first ?_
    rw [List.head?_take] at empty
    split at empty
    · cases empty
    · exact empty
  · cases path with
    | nil => exact absurd List.take_nil nonempty
    | cons key rest =>
        obtain rfl : rest = [] := List.eq_nil_of_length_eq_zero (by simpa using single)
        cases keyLevelNodes with
        | zero => exact absurd rfl nonempty
        | succ n =>
            rw [holdingKey, List.take_succ_cons, List.take_nil, joinKeys_singleton]
            rfl

theorem setNode_all_or_nothing_of_keptKey [PrimitiveForm R] {keyLevelNodes : Nat}
    {path : List String} (kept : KeptKey keyLevelNodes path) :
    AllOrNothing T R keyLevelNodes path := by
  rintro o rfl value ttl w canonical result s runs
  obtain ⟨writes, stuck⟩ := setNode_writesAtMost o ttl value w path canonical runs
  have unchanged : (∃ e, result = .error e) → s.world.store = w.store := by
    intro failed
    exact writes.elim (fun untouched => untouched.store) fun ends => ends.2 failed
  refine ⟨?_, unchanged⟩
  rw [KeptKey, ← or_assoc] at kept
  rcases kept with kept | stuckThere
  · refine writes.imp (fun untouched => untouched.operations) fun ends => ?_
    obtain ⟨front, target, v, seconds, split, found, reading⟩ := ends.1
    obtain rfl := chainedKeyOf_holds o.keyLevelNodes kept found
    exact ⟨front, _, v, seconds, split, rfl, reading⟩
  · exact Or.inl (stuck stuckThere).operations

/-! ## A write under another key -/

theorem run_runs (edit : Y → Option T) (p : Prog Y T R A) : ∀ (w : World R)
    (operations : List (StorageOp R)),
    ∃ s, p.Runs faultyStorage ⟨w, operations⟩ (p.run edit w).result s ∧
      (∀ op ∈ operations, op ∈ s.operations) ∧
      ∀ key, (p.run edit w).world.store key ≠ w.store key →
        ∃ value ttl, .set key value ttl ∈ s.operations := by
  induction p with
  | ret result =>
      intro w operations
      exact ⟨_, .ret result _, fun _ member => member, fun key changed => absurd rfl changed⟩
  | dateNow k ih =>
      intro w operations
      obtain ⟨s, runs, rest⟩ := ih w.clock w operations
      exact ⟨s, .dateNow w.clock ⟨le_refl _, rfl⟩ runs, rest⟩
  | get key k ih =>
      intro w operations
      obtain ⟨s, runs, kept, changes⟩ := ih (.ok (w.read key)) w (operations ++ [.get key])
      exact ⟨s, .get _ ⟨w.clock, le_refl _, rfl, Or.inl rfl⟩ runs,
        fun op member => kept op (List.mem_append_left _ member), changes⟩
  | set key value ttl k ih =>
      intro w operations
      obtain ⟨s, runs, kept, changes⟩ := ih (.ok ()) (w.write key value ttl)
        (operations ++ [.set key value ttl])
      refine ⟨s, .set _ ⟨w.clock, le_refl _, Or.inl ⟨rfl, rfl⟩⟩ runs,
        fun op member => kept op (List.mem_append_left _ member), fun other changed => ?_⟩
      by_cases same : other = key
      · exact ⟨value, ttl, same ▸ kept _ (List.mem_append_right _ (List.mem_singleton_self _))⟩
      · refine changes other fun unchanged => changed ?_
        exact unchanged.trans (Function.update_of_ne same _ _)
  | getCurrentTtl key k ih =>
      intro w operations
      obtain ⟨s, runs, kept, changes⟩ := ih (.ok (w.currentTtl key)) w
        (operations ++ [.getCurrentTtl key])
      exact ⟨s, .getCurrentTtl _ ⟨w.clock, le_refl _, rfl, Or.inl rfl⟩ runs,
        fun op member => kept op (List.mem_append_left _ member), changes⟩
  | registerChild parent child k ih =>
      intro w operations
      obtain ⟨s, runs, kept, changes⟩ := ih (.ok ()) (w.register parent child)
        (operations ++ [.registerChild parent child])
      exact ⟨s, .registerChild _ ⟨w.clock, le_refl _, Or.inl ⟨rfl, rfl⟩⟩ runs,
        fun op member => kept op (List.mem_append_left _ member), changes⟩
  | acquire key k ih =>
      intro w operations
      obtain ⟨s, runs, rest⟩ := ih (.ok ()) w operations
      exact ⟨s, .acquire _ ⟨w.clock, le_refl _, rfl⟩ runs, rest⟩
  | release key k ih =>
      intro w operations
      obtain ⟨s, runs, rest⟩ := ih w operations
      exact ⟨s, .release rfl runs, rest⟩
  | yield item k ih =>
      intro w operations
      obtain ⟨s, runs, rest⟩ := ih (.ok (edit item)) w operations
      exact ⟨s, .yield _ ⟨w.clock, le_refl _, rfl⟩ runs, rest⟩

section
variable [SerializedForm R] (o : LawfulOptions T R) (ttl : Option (StepTtl T)) {path : List String}

theorem chainSections_silent (v : T) : ∀ (levels : List Nat) (w : World R),
    (∀ n ∈ levels, n + 1 < path.length) → w.store = (fun _ => none) →
      (performAll w (levels.map (chainSection o (some fun _ => none) (setEdit path.length v) ttl
        path))).store = fun _ => none := by
  intro levels
  induction levels with
  | nil => exact fun w _ empty => empty
  | cons n levels ih =>
      intro w above empty
      have short := above n List.mem_cons_self
      refine ih _ (fun m member => above m (List.mem_cons_of_mem _ member)) ?_
      have read : w.read ((chainedKeyOf (path.take (n + 1))).getD "") = none := by
        rw [World.read, World.readAt, empty]
      have level : (nodeRefOf (path.take (n + 1))).level = n + 1 := by
        rw [nodeRefOf_level _ (take_ne_nil path n (by omega)), List.length_take_of_le (by omega)]
      have silent : (chainSection o (some fun _ => none) (setEdit path.length v) ttl path n).writes
          none = none := by
        have inner : (nodeRefOf (path.take (n + 1))).level ≠ path.length := by omega
        simp [chainSection, stepWrites, editStep, setEdit, present, mountStep, inner]
      rw [World.perform, World.registerAll_eq]
      change (World.writeRule _ _ ((chainSection o _ _ ttl path n).writes
        (w.read ((chainedKeyOf (path.take (n + 1))).getD "")))).store = _
      rw [read, silent]
      exact empty

theorem chainSection_writes_last (v : T) (n : Nat) (last : n + 1 = path.length) (w : World R)
    (empty : w.store = fun _ => none) :
    (w.perform (chainSection o (some fun _ => none) (setEdit path.length v) ttl path n)).store
      ((chainedKeyOf path).getD "") ≠ none := by
  have whole : path.take (n + 1) = path := List.take_of_length_le (by omega)
  have nonempty : path ≠ [] := by
    rintro rfl
    cases last
  have read : w.read ((chainedKeyOf path).getD "") = none := by
    rw [World.read, World.readAt, empty]
  have key : (chainSection o (some fun _ => none) (setEdit path.length v) ttl path n).key =
      (chainedKeyOf path).getD "" := by
    rw [chainSection, whole]
  have stored := w.perform_store_self (chainSection o (some fun _ => none) (setEdit path.length v)
    ttl path n)
  rw [key, read] at stored
  rw [stored]
  simp [chainSection, whole, stepWrites, editStep, setEdit, present, mountStep, differs,
    nodeRefOf_level path nonempty]

theorem walkAny_changed (v : T) (now : ℚ) : ∀ (rest base : List String), base ≠ [] →
    (walkAny o (some fun _ => none) (setEdit (base ++ rest).length v) ttl now (nodeRefOf base)
      Tree.empty rest).changed = true := by
  intro rest
  induction rest with
  | nil =>
      intro base nonempty
      rw [List.append_nil]
      refine walk_changed_of_last o _ _ ttl now v [] base Tree.empty nonempty ?_ rfl
      rw [List.append_nil]
      simp [setEdit, present, mountStep, nodeRefOf_level base nonempty]
  | cons key rest ih =>
      intro base nonempty
      have below := ih (base ++ [key]) (by simp)
      rw [List.append_assoc, List.singleton_append, ← nodeRefOf_below base key nonempty] at below
      rw [walkAny]
      cases found : readChild ((Tree.empty : Tree R).children.getD []) key with
      | own child =>
          have none : (Tree.empty : Tree R).child key = none := rfl
          rw [child_of_own found] at none
          cases none
      | missing => rfl
      | inherited => simp only [below, Bool.or_true]

theorem setNode_writes_chainedKey (v : T) (nonempty : path ≠ []) (positive : 1 ≤ o.keyLevelNodes)
    (reached : o.keyLevelNodes ≤ path.length → ReachesTree o path) :
    ((setNode o.toOptions path (some (.value v)) ttl).run Step.value (World.emptyAt 0)).world.store
      ((chainedKeyOf (path.take o.keyLevelNodes)).getD "") ≠ none := by
  have long : 0 < path.length := List.length_pos_iff.mpr nonempty
  rw [(setNode_alone o ttl Step.value path v (World.emptyAt 0)).1, anySections]
  by_cases deep : o.keyLevelNodes ≤ path.length
  · have above : ∀ n ∈ List.range (min (o.keyLevelNodes - 1) path.length), n + 1 < path.length := by
      intro n member
      rw [List.mem_range] at member
      omega
    have silent := chainSections_silent o ttl v _ (World.emptyAt 0) above rfl
    generalize performed : performAll (World.emptyAt 0 : World R)
      ((List.range (min (o.keyLevelNodes - 1) path.length)).map (chainSection o (some fun _ => none)
        (setEdit path.length v) ttl path)) = w at silent
    have read : w.read (anyTreeSection o (some fun _ => none) (setEdit path.length v) ttl path
        (World.emptyAt 0 : World R).clock).key = none := by
      rw [World.read, World.readAt, silent]
    have decodes : DecodesRoot o (w.read (anyTreeSection o (some fun _ => none)
        (setEdit path.length v) ttl path (World.emptyAt 0 : World R).clock).key) := by
      rw [read]
      exact ⟨Tree.empty, rfl⟩
    rw [performAll_append, performed, if_pos ⟨reached deep, decodes⟩]
    have key : (anyTreeSection o (some fun _ => none) (setEdit path.length v) ttl path
        (World.emptyAt 0 : World R).clock).key = (chainedKeyOf (path.take o.keyLevelNodes)).getD "" := rfl
    have stored := w.perform_store_self (anyTreeSection o (some fun _ => none)
      (setEdit path.length v) ttl path (World.emptyAt 0 : World R).clock)
    have base : path.take o.keyLevelNodes ≠ [] := by
      rw [← List.length_pos_iff, List.length_take_of_le deep]
      exact positive
    have changed := walkAny_changed o ttl v (World.emptyAt 0 : World R).clock
      (path.drop o.keyLevelNodes) (path.take o.keyLevelNodes) base
    rw [List.take_append_drop] at changed
    rw [read, key] at stored
    change (w.perform _).store _ ≠ none
    rw [stored]
    have writes : (anyTreeSection o (some fun _ => none) (setEdit path.length v) ttl path
        (World.emptyAt 0 : World R).clock).writes none = some _ := if_pos changed
    rw [writes]
    exact Option.some_ne_none _
  · have whole : path.take o.keyLevelNodes = path := List.take_of_length_le (by omega)
    have count : min (o.keyLevelNodes - 1) path.length = path.length - 1 + 1 := by omega
    have above : ∀ n ∈ List.range (path.length - 1), n + 1 < path.length := by
      intro n member
      rw [List.mem_range] at member
      omega
    rw [if_neg fun both => deep both.1.1, List.append_nil, count, List.range_succ, List.map_append,
      performAll_append, whole]
    exact chainSection_writes_last o ttl v (path.length - 1) (by omega) _
      (chainSections_silent o ttl v _ _ above rfl)

end

/-- When there are values and a storage for which some serializers obey the round trip, the keys of
the path decide whether `setNode` is all or nothing there. -/
theorem setNode_all_or_nothing [PrimitiveForm R] (o : LawfulOptions T R) (v : T)
    (path : List String) :
    AllOrNothing T R o.keyLevelNodes path ↔ KeptKey o.keyLevelNodes path := by
  refine ⟨fun holds => ?_, setNode_all_or_nothing_of_keptKey⟩
  by_contra other
  rw [KeptKey, not_or, not_or, not_not] at other
  obtain ⟨first, several, goesOn⟩ := other
  obtain ⟨second, rest, rfl⟩ : ∃ second rest, path = "" :: second :: rest := by
    cases path with
    | nil => cases first
    | cons key rest =>
        obtain rfl : key = "" := Option.some.inj first
        cases rest with
        | nil => exact absurd (Nat.le_refl 1) several
        | cons second rest => exact ⟨second, rest, rfl⟩
  obtain ⟨n, levels⟩ : ∃ n, o.keyLevelNodes = n + 2 := by
    refine Nat.exists_eq_add_of_le' ?_
    by_contra few
    refine goesOn ⟨by simp only [List.length_cons]; omega, fun key member => ?_⟩
    rw [show o.keyLevelNodes - 1 = 0 by omega] at member
    cases member
  have taken : ("" :: second :: rest).take o.keyLevelNodes = "" :: second :: rest.take n := by
    rw [levels]
    rfl
  obtain ⟨written, chained⟩ : ∃ written, chainedKeyOf ("" :: second :: rest.take n) = some written := by
    obtain ⟨front, last, split⟩ := exists_append_singleton ("" :: second :: rest.take n) (by simp)
    rw [split, chainedKeyOf_append_singleton]
    exact ⟨_, rfl⟩
  have changed := setNode_writes_chainedKey o none v (List.cons_ne_nil "" (second :: rest))
    (by omega) fun deep => ⟨deep, fun empty => goesOn ⟨deep, (chainedKeyOf_empty_iff _).mp empty⟩⟩
  rw [taken, chained, Option.getD_some] at changed
  obtain ⟨s, runs, _, sets⟩ := run_runs Step.value
    (setNode o.toOptions ("" :: second :: rest) (some (.value v)) none) (World.emptyAt 0) []
  obtain ⟨value, ttl, listed⟩ := sets written changed
  have empty : CanonicalAbove o.toOptions (World.emptyAt 0) ("" :: second :: rest) :=
    fun _ _ _ _ _ _ stored => (nomatch stored)
  rcases (holds o.toOptions rfl (some (.value v)) none (World.emptyAt 0) empty _ s runs).1 with
    none | ⟨front, target, _, _, split, same, reading⟩
  · cases none _ listed
  · rw [split] at listed
    rcases List.mem_append.mp listed with before | last
    · cases reading _ before
    · obtain ⟨rfl, _, _⟩ := StorageOp.set.inj (List.mem_singleton.mp last)
      rw [holdingKey, taken] at same
      exact chainedKeyOf_empty_ne second (rest.take n) (chained.trans same.symm)

/-- `["a"]` holds a value. -/
def storedAbove : World String where
  store key := if key = "a" then some ⟨Text.encodeNat 1, none⟩ else none
  clock := 0
  registry := []

/-- The write of `["a", "b"]` is rejected, after the level of `["a"]` has been passed. -/
theorem setNode_all_or_nothing_rejected :
    ∃ s : Session String, (setNode (Text.options 3).toOptions ["a", "b"] (some (.value 3))
        none).Runs faultyStorage (Session.start storedAbove) (.error (.thrown "timeout")) s ∧
      EndsWithSet (some "a:b") s.operations ∧ s.world.store = storedAbove.store := by
  let s := (((((Session.start storedAbove).called (.registerChild none "a")).within
    (storedAbove.register none "a")).called (.get "a")).called (.registerChild (some "a") "b")).within
      ((storedAbove.register none "a").register (some "a") "b")
  have decoded : (Text.options 3).valueSerializer.deserialize (Text.encodeNat 1) = .ok (some 1) :=
    Text.decodeNat_encodeNat 1
  have runs : (setNode (Text.options 3).toOptions ["a", "b"] (some (.value 3)) none).Runs
      faultyStorage (Session.start storedAbove) (.error (.thrown "timeout"))
      ((s.called (.get "a:b")).called (.set "a:b" (Text.encodeNat 3) none)) := by
    refine .dateNow 0 ⟨le_refl _, rfl⟩ ?_
    refine .registerChild (.ok ()) ⟨0, le_refl _, Or.inl ⟨rfl, rfl⟩⟩ ?_
    refine .get (.ok (some (Text.encodeNat 1))) ⟨0, le_refl _, rfl, Or.inl rfl⟩ ?_
    refine .registerChild (.ok ()) ⟨0, le_refl _, Or.inl ⟨rfl, rfl⟩⟩ ?_
    refine .get (.ok none) ⟨0, le_refl _, rfl, Or.inl rfl⟩ ?_
    refine .set (.error (.thrown "timeout")) ⟨0, le_refl _, Or.inr ⟨⟨_, rfl⟩, rfl⟩⟩ ?_
    exact .ret _ _
  have canonical : CanonicalAbove (Text.options 3).toOptions storedAbove ["a", "b"] := by
    intro n key entry _ inner chained stored
    obtain rfl : n = 0 := by
      simp only [List.length_cons, List.length_nil] at inner
      omega
    obtain rfl := Option.some.inj chained
    obtain rfl := Option.some.inj stored
    intro v read
    rw [decoded] at read
    obtain rfl := Option.some.inj (Except.ok.inj read)
    rfl
  have settled := (setNode_all_or_nothing (Text.options 3) 0 ["a", "b"]).mpr
    (Or.inl (by decide)) (Text.options 3).toOptions rfl (some (.value 3)) none storedAbove canonical
    _ _ runs
  refine ⟨_, runs, ?_, settled.2 ⟨_, rfl⟩⟩
  rcases settled.1 with none | ends
  · exact absurd (none _ List.mem_concat_self) (by decide)
  · exact ends

/-- Below an empty key the node is written where the top node of the same name is stored. -/
theorem setNode_writes_other_key : ¬ AllOrNothing Nat String 3 ["", "a"] := by
  intro holds
  let s := (((((Session.start (World.emptyAt 0 : World String)).called (.registerChild none "")).within
    ((World.emptyAt 0).register none "")).called (.get "")).called
      (.registerChild (some "") "a")).within (((World.emptyAt 0).register none "").register (some "") "a")
  have runs : (setNode (Text.options 3).toOptions ["", "a"] (some (.value 7)) none).Runs faultyStorage
      (Session.start (World.emptyAt 0)) (.ok ())
      (((s.called (.get "a")).called (.set "a" (Text.encodeNat 7) none)).within
        (s.world.write "a" (Text.encodeNat 7) none)) := by
    refine .dateNow 0 ⟨le_refl _, rfl⟩ ?_
    refine .registerChild (.ok ()) ⟨0, le_refl _, Or.inl ⟨rfl, rfl⟩⟩ ?_
    refine .get (.ok none) ⟨0, le_refl _, rfl, Or.inl rfl⟩ ?_
    refine .registerChild (.ok ()) ⟨0, le_refl _, Or.inl ⟨rfl, rfl⟩⟩ ?_
    refine .get (.ok none) ⟨0, le_refl _, rfl, Or.inl rfl⟩ ?_
    refine .set (.ok ()) ⟨0, le_refl _, Or.inl ⟨rfl, rfl⟩⟩ ?_
    exact .ret _ _
  have empty : CanonicalAbove (Text.options 3).toOptions (World.emptyAt 0) ["", "a"] :=
    fun _ _ _ _ _ _ stored => (nomatch stored)
  have settled := (holds (Text.options 3).toOptions rfl (some (.value 7)) none _ empty _ _ runs).1
  rcases settled with none | ⟨front, target, value, ttl, split, same, _⟩
  · exact absurd (none _ List.mem_concat_self) (by decide)
  · have last := congrArg List.getLast? split
    rw [List.getLast?_concat] at last
    obtain ⟨rfl, _, _⟩ := StorageOp.set.inj (Option.some.inj last).symm
    exact absurd same (by decide +kernel)

end TreeKeyCache
