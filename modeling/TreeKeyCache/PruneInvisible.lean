import TreeKeyCache.PruneRuns
import TreeKeyCache.Calls
import TreeKeyCache.TextSerializers
import Mathlib.Tactic.NormNum
import Mathlib.Tactic.Ring

/-! # Pruning is invisible

Run without other writers at one instant, `prune` changes the entries of tree level keys
only, leaves every key the expiry it has, and clears nothing that could still be read. -/
set_option autoImplicit false
namespace TreeKeyCache

variable {Y T R : Type} [SerializedForm R]

omit [SerializedForm R] in
theorem Label.Fades.trans {now : ℚ} {first second third : Label R}
    (before : first.Fades now second) (after : second.Fades now third) : first.Fades now third := by
  rcases after with rfl | ⟨cleared, dead⟩
  · exact before
  · rcases before with rfl | ⟨_, firstDead⟩
    · exact Or.inr ⟨cleared, dead⟩
    · exact Or.inr ⟨cleared, firstDead⟩

section
variable (o : LawfulOptions T R)

def TreeKey (key : String) : Prop := (splitKey key).length = o.keyLevelNodes

/-- Every entry of a tree level key decodes. -/
def Decodable (w : World R) : Prop :=
  ∀ key entry, w.store key = some entry → TreeKey o key → ∀ r, truthy? (some entry.content) = some r →
    ∃ tree, o.treeSerializer.deserialize r = .ok tree

/-- From `now` on, `after` reads like `before`. -/
structure ContentFades (now : ℚ) (before after : R) : Prop where
  fades : ∀ keys, ((rootTree o (some before)).labelAt keys).Fades now
    ((rootTree o (some after)).labelAt keys)
  decodes : ∀ r, truthy? (some after) = some r → ∃ tree, o.treeSerializer.deserialize r = .ok tree

variable (w₀ : World R)

/-- A tree that may be written under a key: it reads like the entry the key had. -/
def Writable (key : String) (tree : Tree R) : Prop :=
  TreeKey o key ∧ tree.wellFormed = true ∧ ∃ content, w₀.read key = some content ∧
    ∀ keys, ((rootTree o (some content)).labelAt keys).Fades w₀.clock (tree.labelAt keys)

/-- The entry of a key is the one it had, or that of a tree pruned since. -/
def EntryKept (key : String) (entry : Option (Entry R)) : Prop :=
  entry = w₀.store key ∨ ∃ before after expiry, TreeKey o key ∧
    w₀.store key = some ⟨before, expiry⟩ ∧ w₀.read key = some before ∧
    entry = some ⟨after, expiry⟩ ∧ ContentFades o w₀.clock before after

def ContentKept (key : String) (content : Option R) : Prop :=
  content = w₀.read key ∨ ∃ before after, TreeKey o key ∧ w₀.read key = some before ∧
    content = some after ∧ ContentFades o w₀.clock before after

/-- A pipeline that returns writable trees only. -/
inductive ReaderKeeps : Prog Y T R (Option (String × Tree R)) → Prop where
  | nothing : ReaderKeeps (.ret (.ok none))
  | found (key : String) (tree : Tree R) (writable : Writable o w₀ key tree) :
      ReaderKeeps (.ret (.ok (some (key, tree))))
  | dateNow (k : ℚ → Prog Y T R (Option (String × Tree R))) (next : ReaderKeeps (k w₀.clock)) :
      ReaderKeeps (.dateNow k)
  | get (key : String) (k : Except Err (Option R) → Prog Y T R (Option (String × Tree R)))
      (next : ∀ content, ContentKept o w₀ key content → ReaderKeeps (k (.ok content))) :
      ReaderKeeps (.get key k)

/-- A writer that writes writable trees with the ttl the key had. -/
inductive WriterKeeps : Prog Y T R Unit → Prop where
  | done : WriterKeeps (.ret (.ok ()))
  | acquire (key : String) (k : Except Err Unit → Prog Y T R Unit) (next : WriterKeeps (k (.ok ()))) :
      WriterKeeps (.acquire key k)
  | release (key : String) (k : Prog Y T R Unit) (next : WriterKeeps k) :
      WriterKeeps (.release key k)
  | getCurrentTtl (key : String) (k : Except Err (Option ℚ) → Prog Y T R Unit)
      (next : WriterKeeps (k (.ok (w₀.currentTtl key)))) : WriterKeeps (.getCurrentTtl key k)
  | set (key : String) (tree : Tree R) (k : Except Err Unit → Prog Y T R Unit)
      (writable : Writable o w₀ key tree) (next : WriterKeeps (k (.ok ()))) :
      WriterKeeps (.set key (o.encodeTree tree) (w₀.currentTtl key) k)

/-! ## Writers -/

omit [SerializedForm R] in
theorem World.currentTtl_pos (w : World R) (key : String) (ttl : ℚ)
    (found : w.currentTtl key = some ttl) : 0 < ttl := by
  unfold World.currentTtl at found
  cases stored : w.store key with
  | none => rw [stored] at found; cases found
  | some entry =>
      rw [stored] at found
      simp only at found
      split at found
      · rename_i alive
        obtain ⟨expiry, expires, rfl⟩ := Option.map_eq_some_iff.mp found
        rw [Entry.liveAt, expires] at alive
        have : 0 < expiry - w.clock := sub_pos.mpr alive
        exact div_pos this (by norm_num)
      · cases found

theorem setTree_keeps (key : String) (tree : Tree R) (ttl : Option ℚ)
    (writable : Writable o w₀ key tree) (current : w₀.currentTtl key = ttl) :
    WriterKeeps (Y := Y) o w₀ (Prog.ret (o.treeSerializer.serialize tree) >>= fun serialized =>
      Prog.storageSet key serialized ttl >>= fun _ => Prog.dontWait key) := by
  rw [o.serialize_tree, ← current]
  exact .set key tree _ writable (.release key _ .done)

theorem pruneWrite_keeps (key : String) (tree : Tree R) (writable : Writable o w₀ key tree) :
    WriterKeeps (Y := Y) o w₀ (pruneWrite o.toOptions key tree) := by
  refine .acquire key _ ?_
  change WriterKeeps o w₀ (.getCurrentTtl key fun r => Prog.ret r >>= fun ttl =>
    persistTree o.toOptions key ttl tree >>= fun _ => Prog.dontWait key)
  refine .getCurrentTtl key _ ?_
  change WriterKeeps o w₀ (persistTree o.toOptions key (w₀.currentTtl key) tree >>= fun _ =>
    Prog.dontWait key)
  unfold persistTree
  cases current : w₀.currentTtl key with
  | none =>
      simp only [truthyNumber_none, Bool.false_eq_true, if_false, Prog.pure_eq, Prog.ret_ok_bind,
        Prog.bind_assoc]
      exact setTree_keeps o w₀ key tree none writable current
  | some ttl =>
      have truthyTtl := truthyNumber_some_of_pos ttl (w₀.currentTtl_pos key ttl current)
      simp only [truthyTtl, if_true, Prog.storageTtl, Prog.getCurrentTtl_bind, Prog.bind_assoc]
      refine .getCurrentTtl key _ ?_
      simp only [current, Prog.pure_eq, Prog.ret_ok_bind, Option.map_some, max_self]
      exact setTree_keeps o w₀ key tree (some ttl) writable current

/-! ## The pipeline -/

/-- What the pipeline does with the content of a key. -/
def pruneContent (o : Options T R) (path : List String) (now : ℚ) (nodeRef : TraversalItem R)
    (buffer : Option R) : Prog Y T R (Option (String × Tree R)) := do
  match ← Prog.ret (finishNodeRef o path true now nodeRef buffer) with
  | none => pure none
  | some item =>
      if item.ref.level = o.keyLevelNodes then do
        let now ← Prog.now
        let (tree, changed) := pruneTree now item.treeRef item.ref.parentRef
        if changed then pure (some (buildKey item.ref, tree)) else pure none
      else pure none

theorem pruneRead_eq (o : Options T R) (key : String) (positive : 1 ≤ o.keyLevelNodes) :
    let path := splitKey key
    pruneRead (Y := Y) o key = .dateNow fun now =>
      .get (joinKeys (path.take o.keyLevelNodes)) fun answer => Prog.ret answer >>= fun buffer =>
        pruneContent o path now (bareItem (path.take o.keyLevelNodes)) buffer := by
  intro path
  have listed : 0 < path.length := List.length_pos_iff.mpr (splitKey_ne_nil key)
  obtain ⟨m, upTo⟩ : ∃ m, min o.keyLevelNodes path.length = m + 1 :=
    ⟨min o.keyLevelNodes path.length - 1, by omega⟩
  have taken : path.take o.keyLevelNodes = path.take (m + 1) := by
    rw [← upTo]
    exact List.take_eq_take_min
  unfold pruneRead
  simp only [Prog.now, Prog.dateNow_bind, Prog.ret_ok_bind]
  congr 1
  funext now
  have nodes := storageNodes_eq (R := R) path now (m + 1) 0 (by omega)
  rw [show itemAfter path 0 = (none : Option (TraversalItem R)) from rfl, Nat.zero_add] at nodes
  simp only [storageNodeRef]
  rw [show min o.keyLevelNodes (splitKey key).length = m + 1 from upTo, nodes]
  simp only [itemAfter, Prog.ret_ok_bind, Prog.storageGet, Prog.get_bind,
    buildKey_bareItem path m (by omega), taken]
  rfl

theorem nodeRefOf_parentRef (path : List String) (long : 2 ≤ path.length) :
    ∃ parent, (nodeRefOf path).parentRef = some parent := by
  obtain ⟨front, last, rfl⟩ := exists_append_singleton path (by rintro rfl; simp at long)
  have nonempty : front ≠ [] := by
    rintro rfl
    simp at long
  rw [nodeRefOf_append_singleton, ChainedObject.parentRef_ofParent, chainOf_eq_some front nonempty]
  exact ⟨_, rfl⟩

theorem ContentKept.decodes {key : String} {content : Option R} (kept : ContentKept o w₀ key content)
    (decodable : Decodable o w₀) (treeKey : TreeKey o key) (r : R) (buffer : truthy? content = some r) :
    ∃ tree, o.treeSerializer.deserialize r = .ok tree := by
  rcases kept with same | ⟨before, after, _, _, same, fades⟩
  · rw [same, World.read, World.readAt] at buffer
    cases stored : w₀.store key with
    | none => rw [stored] at buffer; cases buffer
    | some entry =>
        rw [stored] at buffer
        simp only at buffer
        split at buffer
        · exact decodable key entry stored treeKey r buffer
        · cases buffer
  · rw [same] at buffer
    exact fades.decodes r buffer

theorem pruned_keeps (key : String) (twoLevels : 2 ≤ o.keyLevelNodes)
    (treeKey : (splitKey key).length = o.keyLevelNodes) (content : Option R)
    (kept : ContentKept o w₀ (joinKeys ((splitKey key).take o.keyLevelNodes)) content) (r : R)
    (buffer : truthy? content = some r) (tree : Tree R)
    (decoded : o.treeSerializer.deserialize r = .ok tree) :
    ReaderKeeps (Y := Y) o w₀ (
      let result := pruneTree w₀.clock tree (nodeRefOf (splitKey key)).parentRef
      if result.2 then .ret (.ok (some (buildKey (nodeRefOf (splitKey key)), result.1)))
      else .ret (.ok none)) := by
  obtain ⟨parent, hasParent⟩ := nodeRefOf_parentRef (splitKey key) (by omega)
  have own : joinKeys ((splitKey key).take o.keyLevelNodes) = key := by
    rw [List.take_of_length_le (by omega), joinKeys_splitKey]
  rw [own] at kept
  have stored : content = some r := by
    rw [truthy?, Option.filter_eq_some_iff] at buffer
    exact buffer.1
  have root : rootTree o (some r) = tree := by
    rw [← stored, rootTree, buffer, Option.bind_some, deserializeTree, decoded]
    rfl
  rw [hasParent]
  simp only
  split
  · rw [buildKey_nodeRefOf _ (splitKey_ne_nil key), joinKeys_splitKey]
    refine .found key _ ⟨treeKey, ?_⟩
    obtain ⟨empty, pruned⟩ := pruneTree_spec w₀.clock tree parent
      (o.treeSerializer.deserialize_wellFormed r tree decoded)
    refine ⟨pruned.wellFormed, ?_⟩
    rw [← root] at pruned
    rcases kept with same | ⟨before, after, _, read, same, fades⟩
    · refine ⟨r, by rw [← same, stored], fun keys => ?_⟩
      have := pruned.fades keys
      rw [root] at this ⊢
      exact this
    · obtain rfl : after = r := Option.some.inj (same.symm.trans stored)
      refine ⟨before, read, fun keys => ?_⟩
      have later := pruned.fades keys
      rw [root] at later
      exact (fades.fades keys).trans (by rw [root]; exact later)
  · exact .nothing

/-- The pipeline goes on with a key only if it is the key of a tree, and then with the pruned
form of the tree it holds. -/
theorem pruneContent_eq (o : Options T R) (path : List String) (nonempty : path ≠ [])
    (positive : 1 ≤ o.keyLevelNodes) (now : ℚ) (content : Option R) :
    pruneContent (Y := Y) o path now (bareItem (path.take o.keyLevelNodes)) content =
      if path.length < o.keyLevelNodes then .ret (.ok none)
      else match truthy? content with
        | none => .ret (.ok none)
        | some r => match o.treeSerializer.deserialize r with
          | .error e => .ret (.error e)
          | .ok tree =>
              if path.length = o.keyLevelNodes then .dateNow fun now =>
                let result := pruneTree now tree (nodeRefOf path).parentRef
                if result.2 then .ret (.ok (some (buildKey (nodeRefOf path), result.1)))
                else .ret (.ok none)
              else .ret (.ok none) := by
  have listed : 0 < path.length := List.length_pos_iff.mpr nonempty
  have level : (nodeRefOf path).level = path.length := nodeRefOf_level path nonempty
  by_cases short : path.length < o.keyLevelNodes
  · have whole : path.take o.keyLevelNodes = path := List.take_of_length_le (by omega)
    rw [whole, if_pos short]
    simp only [pruneContent, finishNodeRef, bareItem, level, if_pos short, Prog.pure_eq]
    rw [show (pure (some ⟨nodeRefOf path, content, Tree.empty⟩) :
      Except Err (Option (TraversalItem R))) = .ok (some ⟨nodeRefOf path, content, Tree.empty⟩) from rfl]
    simp only [Prog.ret_ok_bind, level]
    rw [if_neg (by omega)]
  · have taken : path.take o.keyLevelNodes ≠ [] := by
      intro none
      rcases List.take_eq_nil_iff.mp none with zero | none
      · omega
      · exact nonempty none
    have top : (nodeRefOf (path.take o.keyLevelNodes)).level = o.keyLevelNodes := by
      rw [nodeRefOf_level _ taken, List.length_take]
      omega
    rw [if_neg short]
    unfold pruneContent finishNodeRef
    simp only [bareItem, top, lt_irrefl, if_false, if_true]
    cases buffer : truthy? content with
    | none => rfl
    | some r =>
        cases decoded : o.treeSerializer.deserialize r with
        | error e =>
            simp only [decoded]
            rfl
        | ok tree =>
            have found := finishTreeRef_eq path now o.keyLevelNodes tree (by omega) (by omega)
            simp only [bareItem] at found
            simp only [decoded, bind, Except.bind, found]
            by_cases exact : path.length = o.keyLevelNodes
            · rw [List.drop_eq_nil_of_le (by omega), if_pos exact]
              change (if (nodeRefOf path).level = o.keyLevelNodes then _ else _) = _
              rw [level, if_pos exact]
              rfl
            · rw [if_neg exact]
              cases tree.reach (path.drop o.keyLevelNodes) with
              | none => rfl
              | some last =>
                  change (if (nodeRefOf path).level = o.keyLevelNodes then _ else _) = _
                  rw [level, if_neg exact]
                  rfl

theorem pruneContent_keeps (key : String) (twoLevels : 2 ≤ o.keyLevelNodes) (decodable : Decodable o w₀)
    (content : Option R)
    (kept : ContentKept o w₀ (joinKeys ((splitKey key).take o.keyLevelNodes)) content) (now : ℚ) :
    ReaderKeeps (Y := Y) o w₀ (pruneContent o.toOptions (splitKey key) now
      (bareItem ((splitKey key).take o.keyLevelNodes)) content) := by
  rw [pruneContent_eq o.toOptions (splitKey key) (splitKey_ne_nil key) (by omega)]
  split
  · exact .nothing
  · rename_i long
    have taken : (splitKey key).take o.keyLevelNodes ≠ [] := by
      intro none
      rcases List.take_eq_nil_iff.mp none with zero | none
      · omega
      · exact splitKey_ne_nil key none
    have treeKey : TreeKey o (joinKeys ((splitKey key).take o.keyLevelNodes)) := by
      rw [TreeKey, splitKey_joinKeys _ taken fun k member =>
        colonFree_of_mem_splitKey key k (List.mem_of_mem_take member), List.length_take]
      omega
    cases buffer : truthy? content with
    | none => exact .nothing
    | some r =>
        obtain ⟨tree, decoded⟩ := kept.decodes o w₀ decodable treeKey r buffer
        simp only [decoded]
        split
        · rename_i exact
          refine .dateNow _ ?_
          exact pruned_keeps o w₀ key twoLevels exact content kept r buffer tree decoded
        · exact .nothing

theorem pruneRead_keeps (key : String) (twoLevels : 2 ≤ o.keyLevelNodes) (decodable : Decodable o w₀) :
    ReaderKeeps (Y := Y) o w₀ (pruneRead o.toOptions key) := by
  rw [pruneRead_eq o.toOptions key (by omega)]
  refine .dateNow _ (.get _ _ fun content kept => ?_)
  exact pruneContent_keeps o w₀ key twoLevels decodable content kept w₀.clock

/-! ## Runs -/

omit [SerializedForm R] in
theorem World.exists_entry (w : World R) (t : ℚ) (key : String) (content : R)
    (read : w.readAt t key = some content) :
    ∃ expiry, w.store key = some ⟨content, expiry⟩ ∧ (⟨content, expiry⟩ : Entry R).liveAt t := by
  unfold World.readAt at read
  cases stored : w.store key with
  | none => rw [stored] at read; cases read
  | some entry =>
      rw [stored] at read
      simp only at read
      split at read
      · rename_i alive
        obtain rfl := Option.some.inj read
        exact ⟨entry.expiry, rfl, alive⟩
      · cases read

omit [SerializedForm R] in
theorem World.store_of_read (w : World R) (key : String) (content : R)
    (read : w.read key = some content) :
    w.store key = some ⟨content, (w.currentTtl key).map fun ttl => w.clock + ttl * 1000⟩ := by
  obtain ⟨expiry, stored, alive⟩ := w.exists_entry w.clock key content read
  have same : ((w.currentTtl key).map fun ttl => w.clock + ttl * 1000) = expiry := by
    rw [World.currentTtl, stored]
    simp only
    rw [if_pos alive]
    cases expiry with
    | none => rfl
    | some e =>
        simp only [Option.map_some, Option.some.injEq]
        ring
  rw [same, stored]

theorem EntryKept.contentKept {w : World R} {key : String} (kept : EntryKept o w₀ key (w.store key))
    (clock : w.clock = w₀.clock) : ContentKept o w₀ key (w.read key) := by
  rcases kept with same | ⟨before, after, expiry, treeKey, stored, read, same, fades⟩
  · left
    rw [World.read, World.read, World.readAt, World.readAt, same, clock]
  · refine Or.inr ⟨before, after, treeKey, read, ?_, fades⟩
    obtain ⟨expiry', stored', alive⟩ := w₀.exists_entry w₀.clock key before read
    obtain rfl : expiry = expiry' := by
      rw [stored'] at stored
      cases stored
      rfl
    rw [World.read, World.readAt, same, clock]
    exact if_pos alive

theorem EntryKept.currentTtl {w : World R} {key : String} (kept : EntryKept o w₀ key (w.store key))
    (clock : w.clock = w₀.clock) : w.currentTtl key = w₀.currentTtl key := by
  rcases kept with same | ⟨before, after, expiry, treeKey, stored, read, same, fades⟩
  · rw [World.currentTtl, World.currentTtl, same, clock]
  · rw [World.currentTtl, World.currentTtl, same, stored, clock]
    rfl

theorem Writable.entryKept {key : String} {tree : Tree R} (writable : Writable o w₀ key tree) :
    EntryKept o w₀ key (some ⟨o.encodeTree tree,
      (w₀.currentTtl key).map fun ttl => w₀.clock + ttl * 1000⟩) := by
  obtain ⟨treeKey, wellFormed, content, read, fades⟩ := writable
  refine Or.inr ⟨content, o.encodeTree tree, _, treeKey, w₀.store_of_read key content read, read, rfl,
    ⟨?_, ?_⟩⟩
  · intro keys
    rw [labelAt_encodeTree o tree wellFormed]
    exact fades keys
  · intro r buffer
    exact (decodes_encodeTree o tree wellFormed r buffer).imp fun _ => And.left

structure PruneKeeps (run : PruneRun Y T R) : Prop where
  clock : run.pool.world.clock = w₀.clock
  entries : ∀ key, EntryKept o w₀ key (run.pool.world.store key)
  reader : ReaderKeeps o w₀ run.reader
  threads : ∀ thread ∈ run.pool.threads, WriterKeeps o w₀ thread.prog

def PruneAction.instant : PruneAction → Prop
  | .pool (.tick _) => False
  | _ => True

variable {o} {w₀}

theorem PruneKeeps.resume {run : PruneRun Y T R} (keeps : PruneKeeps o w₀ run) (pool : Pool Y T R)
    (i : Nat) (thread : Thread Y T R) (prog : Prog Y T R Unit) (next : WriterKeeps o w₀ prog)
    (threads : pool.threads = run.pool.threads) (clock : pool.world.clock = run.pool.world.clock)
    (entries : ∀ key, EntryKept o w₀ key (pool.world.store key)) :
    PruneKeeps o w₀ { run with pool := pool.resume i thread prog } := by
  refine ⟨clock.trans keeps.clock, entries, keeps.reader, fun other member => ?_⟩
  rcases List.mem_or_eq_of_mem_set member with kept | rfl
  · rw [threads] at kept
    exact keeps.threads other kept
  · exact next

theorem PruneKeeps.advance {run : PruneRun Y T R} (keeps : PruneKeeps o w₀ run) (i : Nat)
    (thread : Thread Y T R) (found : run.pool.threads[i]? = some thread) (pool : Pool Y T R)
    (advanced : run.pool.advance i thread = some pool) :
    PruneKeeps o w₀ { run with pool := pool } := by
  have writer := keeps.threads thread (List.mem_of_getElem? found)
  obtain ⟨consumer, prog⟩ := thread
  cases writer with
  | done => cases advanced
  | acquire key k next =>
      simp only [Pool.advance] at advanced
      split at advanced
      · obtain rfl := Option.some.inj advanced
        exact keeps.resume _ i _ _ next rfl rfl keeps.entries
      · cases advanced
  | release key k next =>
      obtain rfl := Option.some.inj advanced
      exact keeps.resume _ i _ _ next rfl rfl keeps.entries
  | getCurrentTtl key k next =>
      obtain rfl := Option.some.inj advanced
      refine keeps.resume run.pool i _ _ ?_ rfl rfl keeps.entries
      rw [(keeps.entries key).currentTtl o w₀ keeps.clock]
      exact next
  | set key tree k writable next =>
      obtain rfl := Option.some.inj advanced
      refine keeps.resume _ i _ _ next rfl rfl fun other => ?_
      simp only [World.write, keeps.clock]
      by_cases same : other = key
      · subst same
        rw [Function.update_self]
        exact writable.entryKept o w₀
      · rw [Function.update_of_ne same]
        exact keeps.entries other

theorem PruneKeeps.pull {run next : PruneRun Y T R} (keeps : PruneKeeps o w₀ run)
    (twoLevels : 2 ≤ o.keyLevelNodes) (decodable : Decodable o w₀)
    (pulled : run.pull o.toOptions = some next) : PruneKeeps o w₀ next := by
  obtain ⟨pool, keys, reader⟩ := run
  have reading := keeps.reader
  simp only at reading
  cases reading with
  | nothing =>
      cases keys with
      | nil => cases pulled
      | cons key rest =>
          obtain rfl := Option.some.inj pulled
          exact ⟨keeps.clock, keeps.entries, pruneRead_keeps o w₀ key twoLevels decodable, keeps.threads⟩
  | found key tree writable =>
      obtain rfl := Option.some.inj pulled
      refine ⟨keeps.clock, keeps.entries, .nothing, fun thread member => ?_⟩
      rcases List.mem_append.mp member with before | added
      · exact keeps.threads thread before
      · obtain rfl := List.mem_singleton.mp added
        exact pruneWrite_keeps o w₀ key tree writable
  | dateNow k later =>
      obtain rfl := Option.some.inj pulled
      have clock : pool.world.clock = w₀.clock := keeps.clock
      rw [← clock] at later
      exact ⟨clock, keeps.entries, later, keeps.threads⟩
  | get key k later =>
      obtain rfl := Option.some.inj pulled
      exact ⟨keeps.clock, keeps.entries,
        later _ ((keeps.entries key).contentKept o w₀ keeps.clock), keeps.threads⟩

theorem PruneKeeps.step (twoLevels : 2 ≤ o.keyLevelNodes) (decodable : Decodable o w₀)
    (run : PruneRun Y T R) (action : PruneAction) (next : PruneRun Y T R)
    (keeps : PruneKeeps o w₀ run) (instant : action.instant)
    (stepped : run.act o.toOptions action = some next) : PruneKeeps o w₀ next := by
  cases action with
  | pull => exact keeps.pull twoLevels decodable stepped
  | pool action =>
      obtain ⟨pool, acted, rfl⟩ := Option.map_eq_some_iff.mp stepped
      cases action with
      | run i =>
          obtain ⟨thread, found, advanced⟩ := Option.bind_eq_some_iff.mp acted
          exact keeps.advance i thread found pool advanced
      | fire key =>
          simp only [Pool.act] at acted
          split at acted
          · obtain rfl := Option.some.inj acted
            exact ⟨keeps.clock, keeps.entries, keeps.reader, keeps.threads⟩
          · cases acted
      | tick t => exact absurd instant id

variable (o) (w₀)

theorem pruneKeeps_start (keys : List String) :
    PruneKeeps (Y := Y) o w₀ (PruneRun.start w₀ [] keys) :=
  ⟨rfl, fun _ => Or.inl rfl, .nothing, fun _ member => (nomatch member)⟩

/-! ## Reading after a prune -/

variable {o} {w₀}

theorem EntryKept.readAt_label {w : World R} {key : String} (kept : EntryKept o w₀ key (w.store key))
    (t : ℚ) (later : w₀.clock ≤ t) (q : List String) (deep : o.keyLevelNodes ≤ q.length) :
    (nodeLabel o (w.readAt t key) q).live t = (nodeLabel o (w₀.readAt t key) q).live t := by
  have deepNode : ¬ q.length < o.keyLevelNodes := by omega
  rcases kept with same | ⟨before, after, expiry, _, stored, _, same, fades⟩
  · rw [World.readAt, World.readAt, same]
  · rw [World.readAt, World.readAt, same, stored]
    by_cases alive : (⟨before, expiry⟩ : Entry R).liveAt t
    · have alive' : (⟨after, expiry⟩ : Entry R).liveAt t := alive
      simp only [if_pos alive, if_pos alive', nodeLabel, if_neg deepNode]
      exact (fades.fades (q.drop o.keyLevelNodes)).live_eq t later
    · have gone : ¬ (⟨after, expiry⟩ : Entry R).liveAt t := alive
      simp only [if_neg alive, if_neg gone]

variable (o)

/-- The keys above the tree level are free of the separator. -/
def SeparatorFree (q : List String) : Prop := ∀ key ∈ q.take (o.keyLevelNodes - 1), ColonFree key

variable {o}

theorem serializedAt_kept {w : World R} (entries : ∀ key, EntryKept o w₀ key (w.store key))
    (positive : 1 ≤ o.keyLevelNodes) (t : ℚ) (later : w₀.clock ≤ t) (q : List String)
    (nonempty : q ≠ []) (free : SeparatorFree o q) :
    serializedAt o.toOptions (w.readAt t) t q = serializedAt o.toOptions (w₀.readAt t) t q := by
  by_cases short : q.length < o.keyLevelNodes
  · have unsplit : splitKey (joinKeys q) = q := by
      refine splitKey_joinKeys q nonempty fun key member => free key ?_
      rw [List.take_of_length_le (by omega)]
      exact member
    have same : w.store (joinKeys q) = w₀.store (joinKeys q) := by
      rcases entries (joinKeys q) with same | ⟨_, _, _, treeKey, _⟩
      · exact same
      · rw [TreeKey, unsplit] at treeKey
        omega
    rw [serializedAt, serializedAt, if_pos short, if_pos short, World.readAt, World.readAt, same]
  · rw [serializedAt_eq_live o _ t q (by omega), serializedAt_eq_live o _ t q (by omega)]
    exact (entries _).readAt_label t later q (by omega)

end

/-- Nobody can tell `after` from `before`: only entries of tree level keys differ, every key
expires when it did, and the point reads answer the same from now on. -/
structure Invisible (o : Options T R) (before after : World R) : Prop where
  others : ∀ key, (splitKey key).length ≠ o.keyLevelNodes → after.store key = before.store key
  expiry : ∀ key, (after.store key).map Entry.expiry = (before.store key).map Entry.expiry
  reads : ∀ q, (∀ key ∈ q.take (o.keyLevelNodes - 1), ColonFree key) → ∀ t, before.clock ≤ t →
    getNode o (after.readAt t) t q = getNode o (before.readAt t) t q ∧
      iteratePath o (after.readAt t) t q = iteratePath o (before.readAt t) t q

theorem PruneKeeps.invisible {o : LawfulOptions T R} {w₀ : World R} {run : PruneRun Y T R}
    (keeps : PruneKeeps o w₀ run) (twoLevels : 2 ≤ o.keyLevelNodes) :
    Invisible o.toOptions w₀ run.pool.world := by
  refine ⟨fun key other => ?_, fun key => ?_, fun q free t later => ⟨?_, ?_⟩⟩
  · rcases keeps.entries key with same | ⟨_, _, _, treeKey, _⟩
    · exact same
    · exact absurd treeKey other
  · rcases keeps.entries key with same | ⟨_, _, _, _, stored, _, same, _⟩
    · rw [same]
    · rw [same, stored]
      rfl
  · by_cases nonempty : q = []
    · rw [nonempty, getNode_nil, getNode_nil]
    · rw [getNode_eq o.toOptions _ t q (by omega) nonempty, getNode_eq o.toOptions _ t q (by omega) nonempty,
        serializedAt_kept keeps.entries (by omega) t later q nonempty free]
  · rw [iteratePath_eq o.toOptions _ t q twoLevels, iteratePath_eq o.toOptions _ t q twoLevels]
    congr 1
    apply List.filterMap_congr
    intro p member
    obtain ⟨onPath, nonempty, _⟩ := (mem_prefixesFrom_iff q q.length (le_refl _) p).mp member
    have free' : SeparatorFree o p := by
      intro key listed
      obtain ⟨rest, rfl⟩ := onPath
      refine free key ?_
      rw [List.take_append]
      exact List.mem_append_left _ listed
    rw [stepAt, stepAt, serializedAt_kept keeps.entries (by omega) t later p nonempty free']

/-- At every point of a run of `prune` without other writers, at one instant, nothing has
failed and nobody can tell that it runs. -/
theorem prune_invisible (o : LawfulOptions T R) (twoLevels : 2 ≤ o.keyLevelNodes) (w : World R)
    (decodable : Decodable o w) (keys : List String) (schedule : List PruneAction)
    (instant : ∀ action ∈ schedule, action.instant) (run : PruneRun Y T R)
    (executed : (PruneRun.start w [] keys).exec o.toOptions schedule = some run) :
    (∀ e, run.reader ≠ .ret (.error e)) ∧
      (∀ thread ∈ run.pool.threads, ∀ e, thread.prog ≠ .ret (.error e)) ∧
      Invisible o.toOptions w run.pool.world := by
  have keeps := PruneRun.exec_invariant o.toOptions PruneAction.instant
    (fun run action next => PruneKeeps.step twoLevels decodable run action next) schedule instant _ run
    (pruneKeeps_start o w keys) executed
  refine ⟨fun e failed => ?_, fun thread member e failed => ?_, keeps.invisible twoLevels⟩
  · have reading := keeps.reader
    rw [failed] at reading
    cases reading
  · have writing := keeps.threads thread member
    rw [failed] at writing
    cases writing

/-- One child is alive at the clock of `staleWorld`, the other is not. -/
def staleTree : Tree String :=
  .mk none none (some [("x", some (.mk (some (Text.encodeNat 1)) (some 5) none)),
    ("y", some (.mk (some (Text.encodeNat 2)) (some 20) none))])

def staleWorld : World String :=
  ⟨fun key => if key = "a:b" then some ⟨Text.encodeTree staleTree, none⟩ else none, 10, []⟩

def pruneOneKey : List PruneAction :=
  List.replicate 5 .pull ++ List.replicate 4 (.pool (.run 0))

theorem staleWorld_decodable (o : LawfulOptions T String)
    (encoder : o.encodeTree = Text.encodeTree) : Decodable o staleWorld := by
  intro key entry stored _ r buffer
  simp only [staleWorld] at stored
  split at stored
  · obtain rfl := Option.some.inj stored
    rw [← encoder] at buffer
    exact (decodes_encodeTree o staleTree (by decide +kernel) r buffer).imp fun _ => And.left
  · cases stored

theorem prune_invisible_staleWorld :
    ∃ run : PruneRun (Step Nat) Nat String,
      (PruneRun.start staleWorld [] ["a:b"]).exec (Text.options 2).toOptions pruneOneKey = some run ∧
        run.finished = true ∧ Invisible (Text.options 2).toOptions staleWorld run.pool.world := by
  have ends : ((PruneRun.start (Y := Step Nat) staleWorld [] ["a:b"]).exec
      (Text.options 2).toOptions pruneOneKey).map PruneRun.finished = some true := by decide +kernel
  obtain ⟨run, executed, finished⟩ := Option.map_eq_some_iff.mp ends
  have instant : ∀ action ∈ pruneOneKey, action.instant := by
    intro action member
    rcases List.mem_append.mp member with pulls | writes
    · rw [List.eq_of_mem_replicate pulls]
      trivial
    · rw [List.eq_of_mem_replicate writes]
      trivial
  exact ⟨run, executed, finished,
    (prune_invisible (Text.options 2) (by decide) staleWorld (staleWorld_decodable _ rfl) ["a:b"]
      pruneOneKey instant run executed).2.2⟩

namespace Text

/-- Strings marked as values, in a store of text. -/
def markedValues : ValueSerializer String String where
  serialize v := .ok (String.ofList ('v' :: v.toList))
  deserialize r := .ok (some (String.ofList r.toList.tail))

theorem serialize_encodeTree (tree : Tree String) : treeSerializer.serialize tree = .ok (encodeTree tree) :=
  rfl

def markedOptions (keyLevelNodes : Nat) : LawfulOptions String String where
  keyLevelNodes := keyLevelNodes
  valueSerializer := markedValues
  treeSerializer := treeSerializer
  encode v := String.ofList ('v' :: v.toList)
  encodeTree := encodeTree
  serialize_value _ := rfl
  deserialize_value v := by
    simp only [markedValues, String.toList_ofList, List.tail_cons, String.ofList_toList]
  truthy_value v := by
    apply decide_eq_true
    intro empty
    have written := congrArg String.toList empty
    simp at written
  serialize_tree := serialize_encodeTree
  deserialize_tree := (Text.options keyLevelNodes).deserialize_tree
  truthy_tree := (Text.options keyLevelNodes).truthy_tree

end Text

/-- A path with the separator in a key reads the entry of a tree level key as a value. -/
theorem prune_visible_through_separator :
    ∃ run : PruneRun (Step String) String String,
      (PruneRun.start staleWorld [] ["a:b"]).exec (Text.markedOptions 2).toOptions pruneOneKey =
          some run ∧ run.finished = true ∧
        getNode (Text.markedOptions 2).toOptions (run.pool.world.readAt 10) 10 ["a:b"] ≠
          getNode (Text.markedOptions 2).toOptions (staleWorld.readAt 10) 10 ["a:b"] := by
  have ends : ((PruneRun.start (Y := Step String) staleWorld [] ["a:b"]).exec
      (Text.markedOptions 2).toOptions pruneOneKey).map (fun run => (run.finished, decide (
        (getNode (Text.markedOptions 2).toOptions (run.pool.world.readAt 10) 10 ["a:b"]).toOption =
          (getNode (Text.markedOptions 2).toOptions (staleWorld.readAt 10) 10 ["a:b"]).toOption))) =
      some (true, false) := by decide +kernel
  obtain ⟨run, executed, final⟩ := Option.map_eq_some_iff.mp ends
  obtain ⟨finished, differ⟩ := Prod.mk.inj final
  refine ⟨run, executed, finished, fun same => of_decide_eq_false differ ?_⟩
  rw [same]

end TreeKeyCache
