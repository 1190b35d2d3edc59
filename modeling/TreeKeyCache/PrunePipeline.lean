import TreeKeyCache.PruneInvisible

/-! # A prune that comes to an entry that does not decode

`getNodeRef` with `lastValue` decodes without a guard, so that the pipeline of `prune` throws at
such an entry.  The writers it has started go on, and the keys after it are never looked at.
As before, `prune` runs at one instant and without other writers. -/
set_option autoImplicit false
namespace TreeKeyCache

variable {Y T R : Type} [SerializedForm R]

/-! ## What the pipeline makes of a key -/

/-- The tree to write back for the content of the tree level entry that a path leads to, if there
is one. -/
def prunedForm (o : Options T R) (now : ℚ) (path : List String) (content : Option R) :
    Except Err (Option (Tree R)) :=
  if path.length < o.keyLevelNodes then .ok none
  else match truthy? content with
    | none => .ok none
    | some r => match o.treeSerializer.deserialize r with
      | .error e => .error e
      | .ok tree =>
          let result := pruneTree now tree (nodeRefOf path).parentRef
          .ok (if path.length = o.keyLevelNodes ∧ result.2 = true then some result.1 else none)

def prunedAt (o : Options T R) (w : World R) (key : String) : Except Err (Option (Tree R)) :=
  prunedForm o w.clock (splitKey key) (w.read (joinKeys ((splitKey key).take o.keyLevelNodes)))

def Throws (o : Options T R) (w : World R) (key : String) : Prop := ∃ e, prunedAt o w key = .error e

section
variable (o : LawfulOptions T R) (w₀ : World R)

inductive Reading (key : String) : Prog Y T R (Option (String × Tree R)) → Prop where
  | asked (k : ℚ → Prog Y T R (Option (String × Tree R))) (next : Reading key (k w₀.clock)) :
      Reading key (.dateNow k)
  | looking (k : Except Err (Option R) → Prog Y T R (Option (String × Tree R)))
      (next : ∀ content, prunedForm o.toOptions w₀.clock (splitKey key) content =
        prunedAt o.toOptions w₀ key → Reading key (k (.ok content))) :
      Reading key (.get (joinKeys ((splitKey key).take o.keyLevelNodes)) k)
  | failed (e : Err) (throws : prunedAt o.toOptions w₀ key = .error e) : Reading key (.ret (.error e))
  | nothing (same : prunedAt o.toOptions w₀ key = .ok none) : Reading key (.ret (.ok none))
  | found (tree : Tree R) (changes : prunedAt o.toOptions w₀ key = .ok (some tree)) :
      Reading key (.ret (.ok (some (key, tree))))

/-- A writer that holds the semaphore of its key. -/
inductive Holding (key : String) (tree : Tree R) : Prog Y T R Unit → Prop where
  | getCurrentTtl (k : Except Err (Option ℚ) → Prog Y T R Unit)
      (next : Holding key tree (k (.ok (w₀.currentTtl key)))) : Holding key tree (.getCurrentTtl key k)
  | set : Holding key tree (.set key (o.encodeTree tree) (w₀.currentTtl key) fun r =>
      Prog.ret r >>= fun _ => Prog.dontWait key)

inductive Writing (key : String) (tree : Tree R) : Prog Y T R Unit → Prop where
  | waiting (k : Except Err Unit → Prog Y T R Unit) (next : Holding o w₀ key tree (k (.ok ()))) :
      Writing key tree (.acquire key k)
  | holding (prog : Prog Y T R Unit) (holds : Holding o w₀ key tree prog) : Writing key tree prog

inductive Releasing : Prog Y T R Unit → Prop where
  | release (key : String) : Releasing (.release key (.ret (.ok ())))
  | done : Releasing (.ret (.ok ()))

theorem pruneRead_reading (key : String) (positive : 1 ≤ o.keyLevelNodes) :
    Reading (Y := Y) o w₀ key (pruneRead o.toOptions key) := by
  rw [pruneRead_eq o.toOptions key positive]
  refine .asked _ (.looking _ fun content same => ?_)
  change Reading o w₀ key (pruneContent o.toOptions (splitKey key) w₀.clock
    (bareItem ((splitKey key).take o.keyLevelNodes)) content)
  rw [pruneContent_eq o.toOptions (splitKey key) (splitKey_ne_nil key) positive]
  rw [prunedForm] at same
  split at same
  · rename_i short
    rw [if_pos short]
    exact .nothing same.symm
  · rename_i long
    rw [if_neg long]
    cases buffer : truthy? content with
    | none =>
        rw [buffer] at same
        exact .nothing same.symm
    | some r =>
        rw [buffer] at same
        cases decoded : o.treeSerializer.deserialize r with
        | error e =>
            simp only [decoded] at same ⊢
            exact .failed e same.symm
        | ok tree =>
            simp only [decoded] at same ⊢
            by_cases exact : (splitKey key).length = o.keyLevelNodes
            · rw [if_pos exact]
              refine .asked _ ?_
              by_cases changed : (pruneTree w₀.clock tree (nodeRefOf (splitKey key)).parentRef).2 = true
              · rw [if_pos ⟨exact, changed⟩] at same
                rw [if_pos changed, buildKey_nodeRefOf _ (splitKey_ne_nil key), joinKeys_splitKey]
                exact .found _ same.symm
              · rw [if_neg fun both => changed both.2] at same
                rw [if_neg changed]
                exact .nothing same.symm
            · rw [if_neg fun both => exact both.1] at same
              rw [if_neg exact]
              exact .nothing same.symm

theorem pruneWrite_writing (key : String) (tree : Tree R) :
    Writing (Y := Y) o w₀ key tree (pruneWrite o.toOptions key tree) := by
  refine .waiting _ ?_
  change Holding o w₀ key tree (.getCurrentTtl key fun r => Prog.ret r >>= fun ttl =>
    persistTree o.toOptions key ttl tree >>= fun _ => Prog.dontWait key)
  refine .getCurrentTtl _ ?_
  change Holding o w₀ key tree (persistTree o.toOptions key (w₀.currentTtl key) tree >>= fun _ =>
    Prog.dontWait key)
  unfold persistTree
  have last : Holding (Y := Y) o w₀ key tree (Prog.ret (o.treeSerializer.serialize tree) >>=
      fun serialized => Prog.storageSet key serialized (w₀.currentTtl key) >>= fun _ =>
        Prog.dontWait key) := by
    rw [o.serialize_tree]
    exact .set
  cases current : w₀.currentTtl key with
  | none =>
      rw [current] at last
      simp only [truthyNumber_none, Bool.false_eq_true, if_false, Prog.pure_eq, Prog.ret_ok_bind,
        Prog.bind_assoc]
      exact last
  | some ttl =>
      have truthyTtl := truthyNumber_some_of_pos ttl (w₀.currentTtl_pos key ttl current)
      rw [current] at last
      simp only [truthyTtl, if_true, Prog.storageTtl, Prog.getCurrentTtl_bind, Prog.bind_assoc]
      refine .getCurrentTtl _ ?_
      simp only [current, Prog.pure_eq, Prog.ret_ok_bind, Option.map_some, max_self]
      exact last

/-! ## The invariant -/

/-- The entry that a pruned tree leaves: it expires when the old one did. -/
def prunedEntry (key : String) (tree : Tree R) : Entry R :=
  ⟨o.encodeTree tree, (w₀.currentTtl key).map fun ttl => w₀.clock + ttl * 1000⟩

/-- The keys that are done are a prefix of the keys enumerated; each of them that has a tree to
write back has a writer, or its entry is written. -/
structure PruneProgress (keys done : List String) (run : PruneRun Y T R) : Prop where
  clock : run.pool.world.clock = w₀.clock
  reader : (run.reader = .ret (.ok none) ∧ keys = done ++ run.keys) ∨
    ∃ key, keys = done ++ key :: run.keys ∧ Reading o w₀ key run.reader
  quiet : ∀ key ∈ done, ¬ Throws o.toOptions w₀ key
  entries : ∀ key, run.pool.world.store key = w₀.store key ∨ ∃ tree, key ∈ done ∧
    prunedAt o.toOptions w₀ key = .ok (some tree) ∧
      run.pool.world.store key = some (prunedEntry o w₀ key tree)
  handed : ∀ key ∈ done, ∀ tree, prunedAt o.toOptions w₀ key = .ok (some tree) →
    run.pool.world.store key = some (prunedEntry o w₀ key tree) ∨
      ∃ thread ∈ run.pool.threads, Writing o w₀ key tree thread.prog
  writers : ∀ thread ∈ run.pool.threads, Releasing thread.prog ∨ ∃ key ∈ done, ∃ tree,
    prunedAt o.toOptions w₀ key = .ok (some tree) ∧ Writing o w₀ key tree thread.prog

theorem pruneProgress_start (keys : List String) :
    PruneProgress (Y := Y) o w₀ keys [] (PruneRun.start w₀ [] keys) := by
  constructor
  · rfl
  · exact Or.inl ⟨rfl, rfl⟩
  · exact fun _ member => (nomatch member)
  · exact fun _ => Or.inl rfl
  · exact fun _ member => (nomatch member)
  · exact fun _ member => (nomatch member)

variable {o w₀}

theorem prunedAt_some {key : String} {tree : Tree R}
    (changes : prunedAt o.toOptions w₀ key = .ok (some tree)) :
    (splitKey key).length = o.keyLevelNodes ∧ ∃ r old, w₀.read key = some r ∧
      o.treeSerializer.deserialize r = .ok old ∧ tree.wellFormed = true := by
  rw [prunedAt, prunedForm] at changes
  split at changes
  · cases changes
  · cases buffer : truthy? (w₀.read (joinKeys ((splitKey key).take o.keyLevelNodes))) with
    | none =>
        rw [buffer] at changes
        cases changes
    | some r =>
        rw [buffer] at changes
        cases decoded : o.treeSerializer.deserialize r with
        | error e =>
            simp only [decoded] at changes
            cases changes
        | ok old =>
            simp only [decoded] at changes
            split at changes
            · rename_i both
              have own : joinKeys ((splitKey key).take o.keyLevelNodes) = key := by
                rw [List.take_of_length_le (le_of_eq both.1), joinKeys_splitKey]
              have stored : w₀.read key = some r := by
                rw [own, truthy?, Option.filter_eq_some_iff] at buffer
                exact buffer.1
              obtain rfl := Option.some.inj (Except.ok.inj changes)
              exact ⟨both.1, r, old, stored, decoded, pruneTree_wellFormed _ old _
                (o.treeSerializer.deserialize_wellFormed r old decoded)⟩
            · cases changes

theorem read_prunedEntry {w : World R} {key : String} {tree : Tree R} {r : R}
    (stored : w.store key = some (prunedEntry o w₀ key tree)) (clock : w.clock = w₀.clock)
    (before : w₀.read key = some r) : w.read key = some (o.encodeTree tree) := by
  obtain ⟨expiry, held, alive⟩ := w₀.exists_entry w₀.clock key r before
  rw [w₀.store_of_read key r before] at held
  have same : ((w₀.currentTtl key).map fun ttl => w₀.clock + ttl * 1000) = expiry :=
    congrArg Entry.expiry (Option.some.inj held)
  have live : (prunedEntry o w₀ key tree).liveAt w.clock := by
    rw [clock, prunedEntry, same]
    exact alive
  rw [World.read, World.readAt, stored]
  exact if_pos live

theorem prunedForm_long {now : ℚ} {path : List String} {content : Option R}
    (long : o.keyLevelNodes < path.length)
    (decodes : ∀ r, truthy? content = some r → ∃ tree, o.treeSerializer.deserialize r = .ok tree) :
    prunedForm o.toOptions now path content = .ok none := by
  rw [prunedForm, if_neg (by omega)]
  cases buffer : truthy? content with
  | none => rfl
  | some r =>
      obtain ⟨tree, decoded⟩ := decodes r buffer
      simp only [decoded]
      rw [if_neg fun both => absurd both.1 (by omega)]

namespace PruneProgress
variable {keys done : List String} {run : PruneRun Y T R} (progress : PruneProgress o w₀ keys done run)
include progress

theorem form_eq (distinct : keys.Nodup) {key : String} (split : keys = done ++ key :: run.keys) :
    prunedForm o.toOptions w₀.clock (splitKey key)
        (run.pool.world.read (joinKeys ((splitKey key).take o.keyLevelNodes))) =
      prunedAt o.toOptions w₀ key := by
  have fresh : key ∉ done := by
    intro old
    rw [split] at distinct
    exact (List.nodup_append.mp distinct).2.2 key old key List.mem_cons_self rfl
  rcases progress.entries (joinKeys ((splitKey key).take o.keyLevelNodes)) with
    same | ⟨tree, listed, changes, stored⟩
  · rw [prunedAt, World.read, World.read, World.readAt, World.readAt, same, progress.clock]
  · by_cases short : (splitKey key).length < o.keyLevelNodes
    · rw [prunedAt, prunedForm, prunedForm, if_pos short, if_pos short]
    · by_cases exact : (splitKey key).length = o.keyLevelNodes
      · rw [List.take_of_length_le (le_of_eq exact), joinKeys_splitKey] at listed
        exact absurd listed fresh
      · have long : o.keyLevelNodes < (splitKey key).length := by omega
        obtain ⟨_, r, old, before, decoded, wellFormed⟩ := prunedAt_some changes
        rw [read_prunedEntry stored progress.clock before, prunedForm_long long, prunedAt, before,
          prunedForm_long long]
        · intro r' buffer
          rw [truthy?, Option.filter_eq_some_iff] at buffer
          rw [← Option.some.inj buffer.1]
          exact ⟨old, decoded⟩
        · intro r' buffer
          exact (decodes_encodeTree o tree wellFormed r' buffer).imp fun _ => And.left

theorem next_key {key : String} (quiet : ¬ Throws o.toOptions w₀ key) (pool : Pool Y T R)
    (world : pool.world = run.pool.world)
    (threads : ∀ thread ∈ run.pool.threads, thread ∈ pool.threads)
    (handed : ∀ tree, prunedAt o.toOptions w₀ key = .ok (some tree) →
      ∃ thread ∈ pool.threads, Writing o w₀ key tree thread.prog)
    (writers : ∀ thread ∈ pool.threads, thread ∈ run.pool.threads ∨ ∃ tree,
      prunedAt o.toOptions w₀ key = .ok (some tree) ∧ Writing o w₀ key tree thread.prog)
    (later : List String) (reader : Prog Y T R (Option (String × Tree R)))
    (reading : (reader = .ret (.ok none) ∧ keys = done ++ [key] ++ later) ∨
      ∃ key', keys = done ++ [key] ++ key' :: later ∧ Reading o w₀ key' reader) :
    PruneProgress o w₀ keys (done ++ [key]) ⟨pool, later, reader⟩ := by
  constructor
  · exact (congrArg World.clock world).trans progress.clock
  · exact reading
  · intro other member
    rcases List.mem_append.mp member with old | new
    · exact progress.quiet other old
    · rw [List.mem_singleton.mp new]
      exact quiet
  · intro other
    rcases progress.entries other with same | ⟨tree, listed, changes, stored⟩
    · exact Or.inl ((congrArg (fun w : World R => w.store other) world).trans same)
    · exact Or.inr ⟨tree, List.mem_append_left _ listed, changes,
        (congrArg (fun w : World R => w.store other) world).trans stored⟩
  · intro other member tree changes
    rcases List.mem_append.mp member with old | new
    · rcases progress.handed other old tree changes with written | ⟨thread, listed, writing⟩
      · exact Or.inl ((congrArg (fun w : World R => w.store other) world).trans written)
      · exact Or.inr ⟨thread, threads thread listed, writing⟩
    · rw [List.mem_singleton.mp new] at changes ⊢
      exact Or.inr (handed tree changes)
  · intro thread listed
    rcases writers thread listed with old | ⟨tree, changes, writing⟩
    · rcases progress.writers thread old with releasing | ⟨other, member, tree, changes, writing⟩
      · exact Or.inl releasing
      · exact Or.inr ⟨other, List.mem_append_left _ member, tree, changes, writing⟩
    · exact Or.inr ⟨key, List.mem_append_right _ List.mem_cons_self, tree, changes, writing⟩

theorem reads {key : String} (split : keys = done ++ key :: run.keys)
    (reader : Prog Y T R (Option (String × Tree R))) (reading : Reading o w₀ key reader) :
    PruneProgress o w₀ keys done { run with reader := reader } :=
  ⟨progress.clock, Or.inr ⟨key, split, reading⟩, progress.quiet, progress.entries, progress.handed,
    progress.writers⟩

theorem pull (positive : 1 ≤ o.keyLevelNodes) (distinct : keys.Nodup) {next : PruneRun Y T R}
    (pulled : run.pull o.toOptions = some next) : ∃ done', PruneProgress o w₀ keys done' next := by
  obtain ⟨pool, later, reader⟩ := run
  rcases progress.reader with ⟨idle, split⟩ | ⟨key, split, reading⟩
  · simp only at idle
    subst idle
    cases later with
    | nil => cases pulled
    | cons key rest =>
        obtain rfl := Option.some.inj pulled
        exact ⟨done, progress.clock, Or.inr ⟨key, split, pruneRead_reading o w₀ key positive⟩,
          progress.quiet, progress.entries, progress.handed, progress.writers⟩
  · simp only at reading split
    cases reading with
    | asked k further =>
        obtain rfl := Option.some.inj pulled
        have clock : pool.world.clock = w₀.clock := progress.clock
        rw [← clock] at further
        exact ⟨done, progress.reads split _ further⟩
    | looking k further =>
        obtain rfl := Option.some.inj pulled
        exact ⟨done, progress.reads split _ (further _ (progress.form_eq distinct split))⟩
    | failed e throws => cases pulled
    | nothing same =>
        have quiet : ¬ Throws o.toOptions w₀ key := by
          rintro ⟨e, throws⟩
          rw [same] at throws
          cases throws
        cases later with
        | nil => cases pulled
        | cons key' rest =>
            obtain rfl := Option.some.inj pulled
            refine ⟨done ++ [key], progress.next_key quiet pool rfl (fun _ listed => listed) ?_
              (fun _ listed => Or.inl listed) rest _
              (Or.inr ⟨key', ?_, pruneRead_reading o w₀ key' positive⟩)⟩
            · intro tree changes
              rw [same] at changes
              cases changes
            · rw [split, List.append_assoc, List.singleton_append]
    | found tree changes =>
        have quiet : ¬ Throws o.toOptions w₀ key := by
          rintro ⟨e, throws⟩
          rw [changes] at throws
          cases throws
        obtain rfl := Option.some.inj pulled
        refine ⟨done ++ [key], progress.next_key quiet { pool with
          threads := pool.threads ++ [⟨fun _ => none, pruneWrite o.toOptions key tree⟩] } rfl
          (fun _ listed => List.mem_append_left _ listed) ?_ ?_ later _ (Or.inl ⟨rfl, ?_⟩)⟩
        · intro tree' changes'
          obtain rfl : tree = tree' := Option.some.inj (Except.ok.inj (changes.symm.trans changes'))
          exact ⟨_, List.mem_append_right _ List.mem_cons_self, pruneWrite_writing o w₀ key tree⟩
        · intro thread listed
          rcases List.mem_append.mp listed with old | new
          · exact Or.inl old
          · rw [List.mem_singleton.mp new]
            exact Or.inr ⟨tree, changes, pruneWrite_writing o w₀ key tree⟩
        · rw [split, List.append_assoc, List.singleton_append]

theorem currentTtl_eq (key : String) :
    run.pool.world.currentTtl key = w₀.currentTtl key := by
  rcases progress.entries key with same | ⟨tree, _, changes, stored⟩
  · rw [World.currentTtl, World.currentTtl, same, progress.clock]
  · obtain ⟨_, r, _, before, _⟩ := prunedAt_some changes
    rw [World.currentTtl, World.currentTtl, stored, w₀.store_of_read key r before, progress.clock]
    rfl

theorem resumes {i : Nat} {thread : Thread Y T R} (found : run.pool.threads[i]? = some thread)
    (pool : Pool Y T R) (threads : pool.threads = run.pool.threads)
    (clock : pool.world.clock = run.pool.world.clock) (prog : Prog Y T R Unit)
    (entries : ∀ key, pool.world.store key = run.pool.world.store key ∨ ∃ tree, key ∈ done ∧
      prunedAt o.toOptions w₀ key = .ok (some tree) ∧
        pool.world.store key = some (prunedEntry o w₀ key tree))
    (kept : ∀ key tree, Writing o w₀ key tree thread.prog → Writing o w₀ key tree prog ∨
      pool.world.store key = some (prunedEntry o w₀ key tree))
    (writes : Releasing prog ∨ ∃ key ∈ done, ∃ tree, prunedAt o.toOptions w₀ key = .ok (some tree) ∧
      Writing o w₀ key tree prog) :
    PruneProgress o w₀ keys done { run with pool := pool.resume i thread prog } := by
  constructor
  · exact clock.trans progress.clock
  · exact progress.reader
  · exact progress.quiet
  · intro key
    rcases entries key with same | written
    · rcases progress.entries key with old | ⟨tree, listed, changes, stored⟩
      · exact Or.inl (same.trans old)
      · exact Or.inr ⟨tree, listed, changes, same.trans stored⟩
    · exact Or.inr written
  · intro key listed tree changes
    rcases progress.handed key listed tree changes with stored | ⟨other, member, writing⟩
    · rcases entries key with same | ⟨tree', _, changes', written⟩
      · exact Or.inl (same.trans stored)
      · obtain rfl : tree = tree' := Option.some.inj (Except.ok.inj (changes.symm.trans changes'))
        exact Or.inl written
    · obtain ⟨j, at_⟩ := List.mem_iff_getElem?.mp member
      by_cases same : i = j
      · rw [← same, found] at at_
        obtain rfl := Option.some.inj at_
        rcases kept key tree writing with further | written
        · refine Or.inr ⟨{ thread with prog := prog }, ?_, further⟩
          have bound : i < pool.threads.length := by
            rw [threads]
            exact (List.getElem?_eq_some_iff.mp found).1
          exact List.mem_iff_getElem?.mpr ⟨i, List.getElem?_set_self bound⟩
        · exact Or.inl written
      · refine Or.inr ⟨other, ?_, writing⟩
        rw [← threads] at at_
        exact List.mem_iff_getElem?.mpr ⟨j, (List.getElem?_set_ne same).trans at_⟩
  · intro other member
    rcases List.mem_or_eq_of_mem_set member with old | rfl
    · rw [threads] at old
      exact progress.writers other old
    · exact writes

theorem advance {i : Nat} {thread : Thread Y T R} (found : run.pool.threads[i]? = some thread)
    {pool : Pool Y T R} (advanced : run.pool.advance i thread = some pool) :
    PruneProgress o w₀ keys done { run with pool := pool } := by
  obtain ⟨consumer, prog⟩ := thread
  rcases progress.writers _ (List.mem_of_getElem? found) with releasing | ⟨key, listed, tree, changes,
    writing⟩
  · simp only at releasing
    cases releasing with
    | done => cases advanced
    | release key =>
        obtain rfl := Option.some.inj advanced
        apply progress.resumes found
        · rfl
        · rfl
        · exact fun _ => Or.inl rfl
        · intro key' tree' writing
          cases writing with
          | holding _ holds => cases holds
        · exact Or.inl .done
  · simp only at writing
    cases writing with
    | waiting k further =>
        simp only [Pool.advance] at advanced
        split at advanced
        · obtain rfl := Option.some.inj advanced
          apply progress.resumes found
          · rfl
          · rfl
          · exact fun _ => Or.inl rfl
          · intro key' tree' writing
            cases writing with
            | waiting _ further => exact Or.inl (.holding _ further)
            | holding _ holds => cases holds
          · exact Or.inr ⟨key, listed, tree, changes, .holding _ further⟩
        · cases advanced
    | holding _ holds =>
        cases holds with
        | getCurrentTtl k further =>
            obtain rfl := Option.some.inj advanced
            rw [progress.currentTtl_eq key]
            refine progress.resumes found run.pool rfl rfl _ (fun _ => Or.inl rfl) ?_
              (Or.inr ⟨key, listed, tree, changes, .holding _ further⟩)
            intro key' tree' writing
            cases writing with
            | holding _ holds =>
                cases holds with
                | getCurrentTtl _ further => exact Or.inl (.holding _ further)
        | set =>
            obtain rfl := Option.some.inj advanced
            have written : ∀ tree', (run.pool.world.write key (o.encodeTree tree')
                (w₀.currentTtl key)).store key = some (prunedEntry o w₀ key tree') := by
              intro tree'
              simp only [World.write, Function.update_self, progress.clock]
              rfl
            apply progress.resumes found
            · rfl
            · rfl
            · intro other
              by_cases same : other = key
              · subst same
                exact Or.inr ⟨tree, listed, changes, written tree⟩
              · exact Or.inl (Function.update_of_ne same _ _)
            · intro key' tree' writing
              generalize same : o.encodeTree tree = content at writing
              cases writing with
              | holding _ holds =>
                  cases holds with
                  | set => exact Or.inr (written tree')
            · exact Or.inl (.release key)

theorem step (positive : 1 ≤ o.keyLevelNodes) (distinct : keys.Nodup) {action : PruneAction}
    {next : PruneRun Y T R} (instant : action.instant)
    (stepped : run.act o.toOptions action = some next) :
    ∃ done', PruneProgress o w₀ keys done' next := by
  cases action with
  | pull => exact progress.pull positive distinct stepped
  | pool action =>
      obtain ⟨pool, acted, rfl⟩ := Option.map_eq_some_iff.mp stepped
      cases action with
      | run i =>
          obtain ⟨thread, found, advanced⟩ := Option.bind_eq_some_iff.mp acted
          exact ⟨done, progress.advance found advanced⟩
      | fire key =>
          simp only [Pool.act] at acted
          split at acted
          · obtain rfl := Option.some.inj acted
            exact ⟨done, progress.clock, progress.reader, progress.quiet, progress.entries,
              progress.handed, progress.writers⟩
          · cases acted
      | tick t => exact absurd instant id

end PruneProgress

/-! ## Runs that can go no further -/

/-- The pipeline has come to its end or has thrown, and all writers have ended. -/
def PruneRun.settled (o : Options T R) (run : PruneRun Y T R) : Prop :=
  run.pull o = none ∧ run.pool.finished = true

/-- In a run that can go no further, what is done comes before the first key that throws. -/
theorem PruneProgress.settled {keys done : List String} {run : PruneRun Y T R}
    (progress : PruneProgress o w₀ keys done run) (settled : run.settled o.toOptions) :
    ∃ later, keys = done ++ later ∧
      ∀ key ∈ later, (∀ tree, prunedAt o.toOptions w₀ key ≠ .ok (some tree)) ∨
        ∃ bad rest, later = bad :: rest ∧ key ∈ rest ∧ Throws o.toOptions w₀ bad := by
  obtain ⟨pool, keys', reader⟩ := run
  obtain ⟨stuck, _⟩ := settled
  rcases progress.reader with ⟨idle, split⟩ | ⟨key, split, reading⟩
  · simp only at idle
    subst idle
    cases keys' with
    | nil => exact ⟨[], split, fun _ member => (nomatch member)⟩
    | cons key rest => cases stuck
  · simp only at reading split
    refine ⟨key :: keys', split, ?_⟩
    cases reading with
    | asked k further => cases stuck
    | looking k further => cases stuck
    | failed e throws =>
        intro other member
        rcases List.mem_cons.mp member with rfl | later
        · left
          intro tree changes
          rw [throws] at changes
          cases changes
        · exact Or.inr ⟨key, keys', rfl, later, e, throws⟩
    | nothing same =>
        intro other member
        cases keys' with
        | nil =>
            left
            intro tree changes
            rw [List.mem_singleton.mp member, same] at changes
            cases changes
        | cons key' rest => cases stuck
    | found tree changes => cases stuck

theorem PruneProgress.written {keys done : List String} {run : PruneRun Y T R}
    (progress : PruneProgress o w₀ keys done run) (settled : run.settled o.toOptions) {key : String}
    (listed : key ∈ done) {tree : Tree R} (changes : prunedAt o.toOptions w₀ key = .ok (some tree)) :
    run.pool.world.read key = some (o.encodeTree tree) := by
  obtain ⟨_, r, _, before, _⟩ := prunedAt_some changes
  rcases progress.handed key listed tree changes with stored | ⟨thread, member, writing⟩
  · exact read_prunedEntry stored progress.clock before
  · have ended := List.all_eq_true.mp settled.2 thread member
    cases prog : thread.prog with
    | ret result =>
        rw [prog] at writing
        cases writing with
        | holding _ holds => cases holds
    | _ =>
        rw [prog] at ended
        cases ended

omit [SerializedForm R] in
theorem mem_prefix_of_later {before after done later : List String} {bad key : String}
    (same : before ++ bad :: after = done ++ later) (distinct : (before ++ bad :: after).Nodup)
    (afterBad : key ∈ after) (inDone : key ∈ done) : bad ∈ done := by
  have notBefore : key ∉ before := by
    intro early
    exact (List.nodup_append.mp distinct).2.2 key early key (List.mem_cons_of_mem _ afterBad) rfl
  rcases List.append_eq_append_iff.mp same with ⟨prior, longer, rest⟩ | ⟨prior, shorter, _⟩
  · cases prior with
    | nil =>
        rw [longer, List.append_nil] at inDone
        exact absurd inDone notBefore
    | cons first prior =>
        obtain ⟨rfl, _⟩ := List.cons.inj rest
        rw [longer]
        exact List.mem_append_right _ List.mem_cons_self
  · rw [shorter] at notBefore
    exact absurd (List.mem_append_left _ inDone) notBefore

/-- Pruning leaves other content under the key than it has. -/
def Shrinks (o : LawfulOptions T R) (w : World R) (key : String) (tree : Tree R) : Prop :=
  prunedAt o.toOptions w key = .ok (some tree) ∧ w.read key ≠ some (o.encodeTree tree)

/-- No tree that pruning shrinks comes after an entry at which the pipeline throws. -/
def NoTreeAfterThrow (o : LawfulOptions T R) (w : World R) (keys : List String) : Prop :=
  ∀ before bad after, keys = before ++ bad :: after → Throws o.toOptions w bad →
    ∀ key ∈ after, ∀ tree, ¬ Shrinks o w key tree

/-- In a run that can go no further, every tree is shrunk exactly if none of them comes after an
entry at which the pipeline throws. -/
theorem shrunk_iff_noTreeAfterThrow (positive : 1 ≤ o.keyLevelNodes) {keys : List String}
    (distinct : keys.Nodup) {schedule : List PruneAction}
    (instant : ∀ action ∈ schedule, action.instant) {run : PruneRun Y T R}
    (executed : (PruneRun.start w₀ [] keys).exec o.toOptions schedule = some run)
    (settled : run.settled o.toOptions) :
    (∀ key ∈ keys, ∀ tree, Shrinks o w₀ key tree →
      run.pool.world.read key = some (o.encodeTree tree)) ↔ NoTreeAfterThrow o w₀ keys := by
  obtain ⟨done, progress⟩ := PruneRun.exec_invariant o.toOptions
    (P := fun run => ∃ done, PruneProgress o w₀ keys done run) PruneAction.instant
    (fun run action next holds instant stepped =>
      holds.choose_spec.step positive distinct instant stepped) schedule instant _ run
    ⟨[], pruneProgress_start o w₀ keys⟩ executed
  obtain ⟨later, split, afterThrow⟩ := progress.settled settled
  constructor
  · intro shrunk before bad after listed throws key member tree shrinks
    have inKeys : key ∈ keys := by
      rw [listed]
      exact List.mem_append_right _ (List.mem_cons_of_mem _ member)
    have now := shrunk key inKeys tree shrinks
    rcases progress.entries key with same | ⟨_, keyDone, _⟩
    · apply shrinks.2
      rw [← now, World.read, World.read, World.readAt, World.readAt, same, progress.clock]
    · -- the key that throws comes before one that is done, so it is done itself
      rw [listed] at split distinct
      exact progress.quiet bad (mem_prefix_of_later split distinct member keyDone) throws
  · intro none key member tree shrinks
    rw [split] at member
    rcases List.mem_append.mp member with inDone | inLater
    · exact progress.written settled inDone shrinks.1
    · rcases afterThrow key inLater with never | ⟨bad, rest, same, after, throws⟩
      · exact absurd shrinks.1 (never tree)
      · exact absurd shrinks (none done bad rest (by rw [split, same]) throws key after tree)

/-! ## Every prune comes to such a point -/

/-- A run leads to another one without the passing of time. -/
def Leads (o : Options T R) (run next : PruneRun Y T R) : Prop :=
  ∃ schedule : List PruneAction, (∀ action ∈ schedule, action.instant) ∧ run.exec o schedule = some next

theorem Leads.refl (o : Options T R) (run : PruneRun Y T R) : Leads o run run :=
  ⟨[], fun _ member => (nomatch member), rfl⟩

theorem Leads.step {o : Options T R} {run next last : PruneRun Y T R} (action : PruneAction)
    (instant : action.instant) (acted : run.act o action = some next) (later : Leads o next last) :
    Leads o run last := by
  obtain ⟨schedule, instants, executed⟩ := later
  refine ⟨action :: schedule, fun other member => ?_, ?_⟩
  · rcases List.mem_cons.mp member with rfl | member
    · exact instant
    · exact instants other member
  · rw [PruneRun.exec, acted]
    exact executed

theorem Leads.trans {o : Options T R} {run next last : PruneRun Y T R} (first : Leads o run next)
    (later : Leads o next last) : Leads o run last := by
  obtain ⟨schedule, instants, executed⟩ := first
  induction schedule generalizing run with
  | nil =>
      obtain rfl := Option.some.inj executed
      exact later
  | cons action rest ih =>
      rw [PruneRun.exec, Option.bind_eq_some_iff] at executed
      obtain ⟨between, acted, onward⟩ := executed
      exact .step action (instants action List.mem_cons_self) acted
        (ih (fun other member => instants other (List.mem_cons_of_mem _ member)) onward)

theorem reading_leads {key : String} {pool : Pool Y T R} (later : List String)
    (clock : pool.world.clock = w₀.clock)
    (form : prunedForm o.toOptions w₀.clock (splitKey key)
      (pool.world.read (joinKeys ((splitKey key).take o.keyLevelNodes))) = prunedAt o.toOptions w₀ key)
    {reader : Prog Y T R (Option (String × Tree R))} (reading : Reading o w₀ key reader) :
    ∃ result, Leads o.toOptions ⟨pool, later, reader⟩ ⟨pool, later, .ret result⟩ ∧
      Reading (Y := Y) o w₀ key (.ret result) := by
  induction reading with
  | asked k further ih =>
      obtain ⟨result, leads, ends⟩ := ih
      rw [← clock] at leads
      exact ⟨result, .step .pull trivial rfl leads, ends⟩
  | looking k further ih =>
      obtain ⟨result, leads, ends⟩ := ih _ form
      exact ⟨result, .step .pull trivial rfl leads, ends⟩
  | failed e throws => exact ⟨_, .refl _ _, .failed e throws⟩
  | nothing same => exact ⟨_, .refl _ _, .nothing same⟩
  | found tree changes => exact ⟨_, .refl _ _, .found tree changes⟩

theorem advance_last {o : Options T R} {old : List (Thread Y T R)} {world world' : World R}
    {locks locks' : String → SharedCells.Lock Nat} {acquired acquired' : List (Nat × String)}
    {consumer : Y → Option T} {prog prog' : Prog Y T R Unit} (later : List String)
    (reader : Prog Y T R (Option (String × Tree R)))
    (advanced : Pool.advance ⟨world, locks, old ++ [⟨consumer, prog⟩], acquired⟩ old.length
      ⟨consumer, prog⟩ = some (Pool.resume ⟨world', locks', old ++ [⟨consumer, prog⟩], acquired'⟩
        old.length ⟨consumer, prog⟩ prog')) :
    PruneRun.act o ⟨⟨world, locks, old ++ [⟨consumer, prog⟩], acquired⟩, later, reader⟩
        (.pool (.run old.length)) =
      some ⟨⟨world', locks', old ++ [⟨consumer, prog'⟩], acquired'⟩, later, reader⟩ := by
  rw [PruneRun.act, Pool.act, List.getElem?_concat_length, Option.bind_some, advanced, Pool.resume]
  simp

theorem holding_leads {key : String} {tree : Tree R} (old : List (Thread Y T R))
    (consumer : Y → Option T) {world : World R} (locks : String → SharedCells.Lock Nat)
    (acquired : List (Nat × String)) (later : List String)
    (reader : Prog Y T R (Option (String × Tree R)))
    (ttl : world.currentTtl key = w₀.currentTtl key) {prog : Prog Y T R Unit}
    (holds : Holding o w₀ key tree prog) :
    ∃ world', Leads o.toOptions ⟨⟨world, locks, old ++ [⟨consumer, prog⟩], acquired⟩, later, reader⟩
      ⟨⟨world', Function.update locks key .free, old ++ [⟨consumer, .ret (.ok ())⟩], acquired⟩, later,
        reader⟩ := by
  induction holds with
  | getCurrentTtl k further ih =>
      obtain ⟨world', leads⟩ := ih
      rw [← ttl] at leads
      exact ⟨world', .step (.pool (.run old.length)) trivial (advance_last later reader rfl) leads⟩
  | set =>
      refine ⟨world.write key (o.encodeTree tree) (w₀.currentTtl key), ?_⟩
      refine .step (.pool (.run old.length)) trivial (advance_last later reader rfl) ?_
      refine .step (.pool (.run old.length)) trivial (advance_last later reader rfl) ?_
      refine .step (.pool (.fire key)) trivial ?_ (.refl _ _)
      rw [PruneRun.act, Pool.act]
      simp

theorem writing_leads {key : String} {tree : Tree R} {pool : Pool Y T R} (consumer : Y → Option T)
    (later : List String) (reader : Prog Y T R (Option (String × Tree R)))
    (free : pool.locks = fun _ => .free) (ttl : pool.world.currentTtl key = w₀.currentTtl key)
    {prog : Prog Y T R Unit} (writing : Writing o w₀ key tree prog) :
    ∃ next : Pool Y T R, Leads o.toOptions
        ⟨{ pool with threads := pool.threads ++ [⟨consumer, prog⟩] }, later, reader⟩
        ⟨next, later, reader⟩ ∧ next.locks = (fun _ => .free) ∧
      next.threads = pool.threads ++ [⟨consumer, .ret (.ok ())⟩] := by
  obtain ⟨world, locks, old, acquired⟩ := pool
  simp only at free
  subst free
  let noneHeld : String → SharedCells.Lock Nat := fun _ => .free
  have released : ∀ lock, Function.update (Function.update noneHeld key lock) key .free =
      noneHeld := by
    intro lock
    rw [Function.update_idem, Function.update_eq_self_iff]
  cases writing with
  | waiting k further =>
      obtain ⟨world', leads⟩ := holding_leads old consumer (Function.update noneHeld key
        (.held old.length)) (acquired ++ [(old.length, key)]) later reader ttl further
      refine ⟨_, .step (.pool (.run old.length)) trivial (advance_last later reader ?_) leads,
        released _, rfl⟩
      rfl
  | holding _ holds =>
      obtain ⟨world', leads⟩ := holding_leads old consumer noneHeld acquired later reader ttl
        holds
      exact ⟨_, leads, Function.update_eq_self_iff.mpr rfl, rfl⟩

theorem PruneProgress.leads (positive : 1 ≤ o.keyLevelNodes) {keys done : List String}
    (distinct : keys.Nodup) {run next : PruneRun Y T R} (progress : PruneProgress o w₀ keys done run)
    (onward : Leads o.toOptions run next) : ∃ done', PruneProgress o w₀ keys done' next := by
  obtain ⟨schedule, instant, executed⟩ := onward
  refine PruneRun.exec_invariant o.toOptions (P := fun run => ∃ done, PruneProgress o w₀ keys done run)
    PruneAction.instant ?_ schedule instant run next ⟨done, progress⟩ executed
  intro run action next holds instant stepped
  obtain ⟨_, holds⟩ := holds
  exact holds.step positive distinct instant stepped

/-- A run whose pipeline is between two keys comes to a point where it can go no further. -/
theorem settles (positive : 1 ≤ o.keyLevelNodes) {keys : List String} (distinct : keys.Nodup) :
    ∀ (later done : List String) (pool : Pool Y T R),
      PruneProgress o w₀ keys done ⟨pool, later, .ret (.ok none)⟩ →
      pool.locks = (fun _ => .free) → pool.finished = true →
        ∃ run, Leads o.toOptions ⟨pool, later, .ret (.ok none)⟩ run ∧ run.settled o.toOptions := by
  intro later
  induction later with
  | nil => exact fun done pool _ _ finished => ⟨_, .refl _ _, rfl, finished⟩
  | cons key rest ih =>
      intro done pool progress free finished
      have pulled : PruneRun.pull o.toOptions ⟨pool, key :: rest, .ret (.ok none)⟩ =
          some ⟨pool, rest, pruneRead o.toOptions key⟩ := rfl
      obtain ⟨done', asking⟩ := progress.pull positive distinct pulled
      have begins : Leads o.toOptions ⟨pool, key :: rest, .ret (.ok none)⟩
          ⟨pool, rest, pruneRead o.toOptions key⟩ := .step .pull trivial rfl (.refl _ _)
      rcases asking.reader with ⟨idle, _⟩ | ⟨key', split, reading⟩
      · simp only [pruneRead_eq o.toOptions key positive] at idle
        cases idle
      · obtain ⟨result, reads, ends⟩ := reading_leads rest asking.clock
          (asking.form_eq distinct split) reading
        cases ends with
        | failed e throws => exact ⟨_, begins.trans reads, rfl, finished⟩
        | nothing same =>
            obtain ⟨run, leads, settled⟩ := ih done' pool (asking.reads split _ (.nothing same)) free
              finished
            exact ⟨run, (begins.trans reads).trans leads, settled⟩
        | found tree changes =>
            obtain ⟨next, writes, released, threads⟩ := writing_leads (fun _ => none) rest
              (.ret (.ok none)) free (asking.currentTtl_eq key') (pruneWrite_writing o w₀ key' tree)
            have there : Leads o.toOptions ⟨pool, rest, .ret (.ok (some (key', tree)))⟩
                ⟨next, rest, .ret (.ok none)⟩ := .step .pull trivial rfl writes
            obtain ⟨done'', further⟩ := (asking.reads split _ (.found tree changes)).leads positive
              distinct there
            have ended : next.finished = true := by
              rw [Pool.finished, threads, List.all_append, Bool.and_eq_true]
              exact ⟨finished, rfl⟩
            obtain ⟨run, leads, settled⟩ := ih done'' next further released ended
            exact ⟨run, ((begins.trans reads).trans there).trans leads, settled⟩

/-- `prune` ends, and then it has shrunk every tree that decodes. -/
def PruneShrinksOthers (o : LawfulOptions T R) (w : World R) (keys : List String) : Prop :=
  (∃ run : PruneRun (Step T) T R, Leads o.toOptions (PruneRun.start w [] keys) run ∧
    run.settled o.toOptions) ∧
  ∀ run : PruneRun (Step T) T R, Leads o.toOptions (PruneRun.start w [] keys) run →
    run.settled o.toOptions → ∀ key ∈ keys, ∀ tree, Shrinks o w key tree →
      run.pool.world.read key = some (o.encodeTree tree)

theorem pruneShrinksOthers_iff (positive : 1 ≤ o.keyLevelNodes) {keys : List String}
    (distinct : keys.Nodup) : PruneShrinksOthers o w₀ keys ↔ NoTreeAfterThrow o w₀ keys := by
  have ends := settles (Y := Step T) positive distinct keys [] (Pool.start w₀ [])
    (pruneProgress_start o w₀ keys) rfl rfl
  constructor
  · intro shrinks
    obtain ⟨run, leads, settled⟩ := ends
    obtain ⟨schedule, instant, executed⟩ := leads
    exact (shrunk_iff_noTreeAfterThrow positive distinct instant executed settled).mp
      (shrinks.2 run ⟨schedule, instant, executed⟩ settled)
  · intro none
    refine ⟨ends, fun run leads settled => ?_⟩
    obtain ⟨schedule, instant, executed⟩ := leads
    exact (shrunk_iff_noTreeAfterThrow positive distinct instant executed settled).mpr none

end

end TreeKeyCache
