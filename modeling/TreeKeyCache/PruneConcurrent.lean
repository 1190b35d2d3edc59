import TreeKeyCache.PruneWatched
import TreeKeyCache.InheritedKeys

/-! # Pruning next to writers

`prune` reads a tree before it takes the semaphore of its key, and writes the pruned tree
under the semaphore.  What a `deepTreeSet` run stores in between is lost.  As long as the key of
every tree that `prune` writes back still holds what `prune` read, a stored value stays until
another write or a ttl removes it. -/
set_option autoImplicit false
namespace TreeKeyCache

variable {Y T R : Type} [SerializedForm R]

/-! ## What is read -/

section
variable {o : LawfulOptions T R} {last : ℚ} {path : List String} {step : Step T} {w w' : World R}

/-- From now on until `last`, `getNode` answers with the step. -/
def ReadUntil (o : Options T R) (last : ℚ) (path : List String) (step : Step T) (w : World R) : Prop :=
  ∀ t, w.clock ≤ t → t ≤ last → getNode o (w.readAt t) t path = .ok (some step)

theorem ReadUntil.nonempty (reads : ReadUntil o.toOptions last path step w) (before : w.clock ≤ last) :
    path ≠ [] := by
  rintro rfl
  have read := reads w.clock (le_refl _) before
  rw [getNode_nil] at read
  cases read

theorem ReadUntil.later (reads : ReadUntil o.toOptions last path step w) (store : w'.store = w.store)
    (clock : w.clock ≤ w'.clock) : ReadUntil o.toOptions last path step w' := by
  intro t later inTime
  have same : w'.readAt t = w.readAt t := by
    funext key
    rw [World.readAt, World.readAt, store]
  rw [same]
  exact reads t (clock.trans later) inTime

theorem ReadUntil.exists_content (reads : ReadUntil o.toOptions last path step w)
    (positive : 1 ≤ o.keyLevelNodes) {t : ℚ} (later : w.clock ≤ t) (inTime : t ≤ last) :
    ∃ content, w.readAt t (nodeKey o path) = some content := by
  have read := reads t later inTime
  cases found : w.readAt t (nodeKey o path) with
  | some content => exact ⟨content, rfl⟩
  | none =>
      rw [getNode_label o positive _ t path (reads.nonempty (later.trans inTime)), found,
        nodeLabel_none] at read
      cases read

section
variable {content : Option R} {key : String} {value : R} {ttl : Option ℚ}

theorem live_pruned (kind : pruneKind o content key (w.store key) w.clock value ttl)
    (unchanged : w.read key = content) {t : ℚ} (later : w.clock ≤ t) {r : R}
    (present : w.readAt t key = some r) (deep : ¬ path.length < o.keyLevelNodes) :
    (nodeLabel o ((w.write key value ttl).readAt t key) path).live t =
      (nodeLabel o (w.readAt t key) path).live t := by
  obtain ⟨_, ⟨tree, rfl, r', old, t₀, stored, truthy, decoded, earlier, wellFormed, fades⟩, lives⟩ := kind
  rw [stored] at unchanged
  obtain ⟨expiry', entry', _⟩ := w.exists_entry w.clock key r' unchanged
  obtain ⟨expiry, entry, alive⟩ := w.exists_entry t key r present
  have same : r = r' := by
    rw [entry'] at entry
    cases entry
    rfl
  have written : (w.write key (o.encodeTree tree) ttl).readAt t key = some (o.encodeTree tree) := by
    rw [World.readAt_eq, World.store_write_self]
    exact if_pos (lives ⟨r, expiry⟩ entry t later alive)
  have root : rootTree o (some r') = old := by
    rw [rootTree, truthy?, Option.filter_some_pos truthy, Option.bind_some, deserializeTree, decoded]
    rfl
  rw [written, present, same, nodeLabel, nodeLabel, if_neg deep, if_neg deep, root,
    labelAt_encodeTree o tree wellFormed]
  exact (fades (path.drop o.keyLevelNodes)).live_eq t (earlier.trans later)

theorem ReadUntil.pruned (reads : ReadUntil o.toOptions last path step w)
    (positive : 1 ≤ o.keyLevelNodes) (before : w.clock ≤ last)
    (own : path.length < o.keyLevelNodes → ¬ TreeKey o (joinKeys path))
    (kind : pruneKind o content key (w.store key) w.clock value ttl)
    (fresh : ∀ r, w.read key = some r → content = some r) :
    ReadUntil o.toOptions last path step (w.write key value ttl) := by
  have nonempty := reads.nonempty before
  intro t later inTime
  have read := reads t later inTime
  rw [getNode_label o positive _ t path nonempty] at read ⊢
  by_cases here : nodeKey o path = key
  · have deep : ¬ path.length < o.keyLevelNodes := by
      intro short
      refine own short ?_
      rw [nodeKey, List.take_of_length_le (by omega)] at here
      rw [here]
      exact kind.1
    obtain ⟨now, presentNow⟩ := reads.exists_content positive (le_refl _) before
    obtain ⟨r, present⟩ := reads.exists_content positive later inTime
    rw [here] at presentNow present read ⊢
    rw [live_pruned kind (presentNow.trans (fresh now presentNow).symm) later present deep]
    exact read
  · have unchanged : (w.write key value ttl).readAt t (nodeKey o path) = w.readAt t (nodeKey o path) := by
      rw [World.readAt_eq, World.readAt_eq, World.store_write_of_ne w value ttl here]
    rw [unchanged]
    exact read

end

end

/-! ## Runs next to writers -/

/-- A `deepTreeSet` call with the default `minLevelSemaphore`, and what its consumer assigns. -/
structure StoringRun (T : Type) where
  path : List String
  createValue : Option (CreateValue T)
  ttl : Option (StepTtl T)
  previousKeys : List String
  consumer : Step T → Option T

def StoringRun.thread (o : Options T R) (run : StoringRun T) : Thread (Step T) T R :=
  ⟨run.consumer, deepTreeSet o run.path run.createValue run.ttl run.previousKeys 0⟩

/-- The first `n` threads do not take the step at `path` away. -/
def OthersKeep (o : Options T R) (n : Nat) (last : ℚ) (path : List String) (step : Step T) :
    PruneRun Y T R → List PruneAction → Prop
  | _, [] => True
  | run, action :: rest => ∀ next, run.act o action = some next →
      (∀ i, i < n → action = .pool (.run i) → ReadUntil o last path step run.pool.world →
        ReadUntil o last path step next.pool.world) ∧ OthersKeep o n last path step next rest

/-- What a run has stored at a node of its path is read at the end, unless its ttl is over by then or
a write of the runs has taken it away. -/
def KeepsStored (o : LawfulOptions T R) (runs : List (StoringRun T)) (start : PruneRun (Step T) T R)
    (schedule : List PruneAction) : Prop :=
  ∀ before i after storing, schedule = before ++ .pool (.run i) :: after → runs[i]? = some storing →
    ∀ run consumer key value ttl k, start.exec o.toOptions before = some run →
      run.pool.threads[i]? = some ⟨consumer, .set key value ttl k⟩ →
        ∀ stored final, run.act o.toOptions (.pool (.run i)) = some stored →
          stored.exec o.toOptions after = some final →
            ∀ path step, path <+: storing.path → nodeKey o path = key →
              ReadUntil o.toOptions final.pool.world.clock path step stored.pool.world →
                OthersKeep o.toOptions runs.length final.pool.world.clock path step stored after →
                  getNode o.toOptions final.pool.world.read final.pool.world.clock path = .ok (some step)

theorem PruneRun.pull_world {o : Options T R} {run next : PruneRun Y T R}
    (pulled : run.pull o = some next) : next.pool.world = run.pool.world := by
  obtain ⟨pool, keys, reader⟩ := run
  cases reader with
  | ret result =>
      cases result with
      | error e => cases pulled
      | ok found =>
          cases found with
          | none =>
              cases keys with
              | nil => cases pulled
              | cons key rest =>
                  obtain rfl := Option.some.inj pulled
                  rfl
          | some item =>
              obtain rfl := Option.some.inj pulled
              rfl
  | dateNow k =>
      obtain rfl := Option.some.inj pulled
      rfl
  | get key k =>
      obtain rfl := Option.some.inj pulled
      rfl
  | set key v ttl k => cases pulled
  | getCurrentTtl key k => cases pulled
  | registerChild parent child k => cases pulled
  | acquire key k => cases pulled
  | release key k => cases pulled
  | yield item k => cases pulled

theorem PruneRun.act_clock {o : Options T R} {run next : PruneRun Y T R} {action : PruneAction}
    (acted : run.act o action = some next) : run.pool.world.clock ≤ next.pool.world.clock := by
  cases action with
  | pull => exact le_of_eq (congrArg World.clock (pull_world acted)).symm
  | pool action =>
      obtain ⟨pool, stepped, rfl⟩ := Option.map_eq_some_iff.mp acted
      exact Pool.act_clock stepped

theorem PruneRun.exec_clock {o : Options T R} : ∀ (schedule : List PruneAction) {run final : PruneRun Y T R},
    run.exec o schedule = some final → run.pool.world.clock ≤ final.pool.world.clock := by
  intro schedule
  induction schedule with
  | nil =>
      intro run final executed
      obtain rfl := Option.some.inj executed
      exact le_refl _
  | cons action rest ih =>
      intro run final executed
      obtain ⟨next, acted, later⟩ := Option.bind_eq_some_iff.mp executed
      exact (act_clock acted).trans (ih later)

section
variable {o : LawfulOptions T R} {n : Nat} {last : ℚ} {path : List String} {step : Step T}

theorem ReadUntil.act {s : Watched Y T R} {next : PruneRun Y T R} {action : PruneAction}
    (guards : WatchedGuards o n s) (positive : 1 ≤ o.keyLevelNodes)
    (acted : s.run.act o.toOptions action = some next) (fresh : s.Fresh n action)
    (others : ∀ i, i < n → action = .pool (.run i) →
      ReadUntil o.toOptions last path step s.run.pool.world →
        ReadUntil o.toOptions last path step next.pool.world)
    (before : s.run.pool.world.clock ≤ last)
    (own : path.length < o.keyLevelNodes → ¬ TreeKey o (joinKeys path))
    (reads : ReadUntil o.toOptions last path step s.run.pool.world) :
    ReadUntil o.toOptions last path step next.pool.world := by
  cases action with
  | pull =>
      rw [PruneRun.pull_world acted]
      exact reads
  | pool action =>
      obtain ⟨pool, stepped, rfl⟩ := Option.map_eq_some_iff.mp acted
      cases action with
      | run i =>
          by_cases writer : n ≤ i
          · obtain ⟨thread, running, advanced⟩ := Option.bind_eq_some_iff.mp stepped
            rcases Pool.advance_world advanced with ⟨key, value, ttl, k, writing, written⟩ | ⟨store, clock⟩
            · have kind := guards.written writer running writing
              obtain ⟨consumer, prog⟩ := thread
              obtain rfl : prog = .set key value ttl k := writing
              simp only [Watched.Fresh, running] at fresh
              change ReadUntil _ _ _ _ pool.world
              rw [written]
              refine reads.pruned positive before own kind fun r found => ?_
              rw [fresh writer r found]
              rfl
            · exact reads.later store (le_of_eq clock.symm)
          · exact others i (Nat.lt_of_not_le writer) rfl reads
      | fire key =>
          simp only [Pool.act] at stepped
          split at stepped
          · obtain rfl := Option.some.inj stepped
            exact reads
          · cases stepped
      | tick t =>
          simp only [Pool.act] at stepped
          split at stepped
          · rename_i later
            obtain rfl := Option.some.inj stepped
            exact reads.later rfl later
          · cases stepped

theorem ReadUntil.exec (positive : 1 ≤ o.keyLevelNodes)
    (own : path.length < o.keyLevelNodes → ¬ TreeKey o (joinKeys path)) :
    ∀ (schedule : List PruneAction) (s : Watched Y T R) (final : PruneRun Y T R),
      WatchedGuards o n s → s.AllFresh o.toOptions n schedule →
        OthersKeep o.toOptions n last path step s.run schedule →
          s.run.exec o.toOptions schedule = some final → final.pool.world.clock ≤ last →
            ReadUntil o.toOptions last path step s.run.pool.world →
              ReadUntil o.toOptions last path step final.pool.world := by
  intro schedule
  induction schedule with
  | nil =>
      intro s final _ _ _ executed _ reads
      obtain rfl := Option.some.inj executed
      exact reads
  | cons action rest ih =>
      intro s final guards fresh others executed ends reads
      obtain ⟨next, acted, later⟩ := Option.bind_eq_some_iff.mp executed
      obtain ⟨keeps, othersLater⟩ := others next acted
      have watched : s.act o.toOptions action =
          some ⟨next, s.seenAfter action, s.handedAfter action⟩ := by
        rw [Watched.act, acted]
        rfl
      have before : s.run.pool.world.clock ≤ last :=
        (PruneRun.act_clock acted).trans ((PruneRun.exec_clock rest later).trans ends)
      exact ih _ final (guards.act positive watched) (fresh.2 _ watched) othersLater later ends
        (reads.act guards positive acted fresh.1 keeps before own)

theorem WatchedGuards.exec (positive : 1 ≤ o.keyLevelNodes) (after : List PruneAction) :
    ∀ (before : List PruneAction) (s : Watched Y T R) (run : PruneRun Y T R),
      WatchedGuards o n s → s.AllFresh o.toOptions n (before ++ after) →
        s.run.exec o.toOptions before = some run →
          ∃ s' : Watched Y T R, s'.run = run ∧ WatchedGuards o n s' ∧ s'.AllFresh o.toOptions n after := by
  intro before
  induction before with
  | nil =>
      intro s run guards fresh executed
      exact ⟨s, Option.some.inj executed, guards, fresh⟩
  | cons action rest ih =>
      intro s run guards fresh executed
      obtain ⟨next, acted, later⟩ := Option.bind_eq_some_iff.mp executed
      have watched : s.act o.toOptions action =
          some ⟨next, s.seenAfter action, s.handedAfter action⟩ := by
        rw [Watched.act, acted]
        rfl
      exact ih _ run (guards.act positive watched) (fresh.2 _ watched) later

/-- A run of `prune` next to `deepTreeSet` runs keeps what these store if it writes no tree back over
another content than the one it had read, and no node above the trees has the key of a tree. -/
theorem prune_keepsStored (o : LawfulOptions T R) (positive : 1 ≤ o.keyLevelNodes) (w : World R)
    (runs : List (StoringRun T)) (keys : List String) (schedule : List PruneAction)
    (own : ∀ run ∈ runs, ∀ path, path <+: run.path → path.length < o.keyLevelNodes →
      ¬ TreeKey o (joinKeys path))
    (fresh : (Watched.start w (runs.map (StoringRun.thread o.toOptions)) keys).AllFresh o.toOptions
      runs.length schedule) :
    KeepsStored o runs (PruneRun.start w (runs.map (StoringRun.thread o.toOptions)) keys) schedule := by
  have guards : WatchedGuards o runs.length
      (Watched.start w (runs.map (StoringRun.thread o.toOptions)) keys) := by
    have length : (runs.map (StoringRun.thread o.toOptions)).length = runs.length := List.length_map ..
    rw [← length]
    refine watchedGuards_start w _ keys fun thread member t => ?_
    obtain ⟨run, _, rfl⟩ := List.mem_map.mp member
    exact deepTreeSet_guarded o.toOptions run.createValue run.ttl run.consumer run.path
      run.previousKeys rfl
  rintro before i after storing rfl there run consumer key value ttl k executed _ stored final acted
    finished path step onPath _ reads others
  obtain ⟨s, rfl, guarded, freshLater⟩ := guards.exec positive _ before _ run fresh executed
  have watched : s.act o.toOptions (.pool (.run i)) =
      some ⟨stored, s.seenAfter (.pool (.run i)), s.handedAfter (.pool (.run i))⟩ := by
    rw [Watched.act, acted]
    rfl
  have kept := ReadUntil.exec positive (own storing (List.mem_of_getElem? there) path onPath) after _ final
    (guarded.act positive watched) (freshLater.2 _ watched) others finished (le_refl _) reads
  exact kept final.pool.world.clock (le_refl _) (le_refl _)

end

def storesSeven : StoringRun Nat := ⟨["a", "b", "c"], some fun _ => .ok (some 7), none, [], Step.value⟩

def pruneAndStore : PruneRun (Step Nat) Nat String :=
  PruneRun.start staleWorld [storesSeven.thread (Text.options 2).toOptions] ["a:b"]

/-- What the node of `storesSeven` answers, and when. -/
def sevenAnswer (run : PruneRun (Step Nat) Nat String) : Option (Option (Step Nat)) × ℚ :=
  ((getNode (Text.options 2).toOptions run.pool.world.read run.pool.world.clock ["a", "b", "c"]).toOption,
    run.pool.world.clock)

def sevenStep : Step Nat := mountStep (nodeRefOf ["a", "b", "c"]) (some 7)

/-- The value is stored while `prune` is at the key, before it reads the entry. -/
def storedThenRead : List PruneAction :=
  List.replicate 2 .pull ++ List.replicate 13 (.pool (.run 0)) ++ List.replicate 3 .pull ++
    [.pool (.fire "a:b")] ++ List.replicate 4 (.pool (.run 1))

theorem prune_keepsStored_storesSeven :
    KeepsStored (Text.options 2) [storesSeven] pruneAndStore storedThenRead ∧
      (pruneAndStore.exec (Text.options 2).toOptions storedThenRead).map (fun run =>
        (run.finished, sevenAnswer run)) = some (true, some (some sevenStep), 10) := by
  refine ⟨prune_keepsStored (Text.options 2) (by decide) staleWorld [storesSeven] ["a:b"] storedThenRead
    ?_ (by decide +kernel), by decide +kernel⟩
  intro run member path onPath short
  obtain rfl := List.mem_singleton.mp member
  rw [List.prefix_iff_eq_take.mp onPath]
  change path.length < 2 at short
  have above : path.length = 0 ∨ path.length = 1 := by omega
  rcases above with root | first
  · rw [root, TreeKey]
    decide +kernel
  · rw [first, TreeKey]
    decide +kernel

/-! ## A write between the read and the write of `prune` -/

def Prog.writtenKey {A : Type} : Prog Y T R A → Option String
  | .set key _ _ _ => some key
  | _ => none

omit [SerializedForm R] in
theorem Prog.exists_of_writtenKey {A : Type} {p : Prog Y T R A} {key : String}
    (writes : p.writtenKey = some key) : ∃ value ttl k, p = .set key value ttl k := by
  cases p with
  | set other value ttl k =>
      obtain rfl := Option.some.inj writes
      exact ⟨value, ttl, k, rfl⟩
  | ret result => cases writes
  | dateNow k => cases writes
  | get other k => cases writes
  | getCurrentTtl other k => cases writes
  | registerChild parent child k => cases writes
  | acquire other k => cases writes
  | release other k => cases writes
  | yield item k => cases writes

theorem readUntil_now {o : Options T R} {last : ℚ} {path : List String} {step : Step T} {w : World R}
    (ends : last ≤ w.clock) (read : (getNode o w.read w.clock path).toOption = some (some step)) :
    ReadUntil o last path step w := by
  intro t later inTime
  obtain rfl : t = w.clock := le_antisymm (inTime.trans ends) later
  change getNode o w.read w.clock path = _
  cases answer : getNode o w.read w.clock path with
  | error e =>
      rw [answer] at read
      cases read
  | ok found =>
      rw [answer] at read
      exact congrArg Except.ok (Option.some.inj read)

theorem othersKeep_of_idle {o : Options T R} {n : Nat} {last : ℚ} {path : List String} {step : Step T} :
    ∀ (schedule : List PruneAction) (run : PruneRun Y T R),
      (∀ action ∈ schedule, ∀ i, i < n → action ≠ .pool (.run i)) →
        OthersKeep o n last path step run schedule := by
  intro schedule
  induction schedule with
  | nil => exact fun _ _ => trivial
  | cons action rest ih =>
      intro run idle next _
      refine ⟨fun i bound same => absurd same (idle action List.mem_cons_self i bound), ?_⟩
      exact ih next fun other member => idle other (List.mem_cons_of_mem _ member)

/-- `prune` has read the tree, then the value is stored up to its last write. -/
def readThenStored : List PruneAction :=
  List.replicate 5 .pull ++ List.replicate 11 (.pool (.run 0))

/-- The semaphore is released, and `prune` writes the tree back. -/
def writtenBack : List PruneAction :=
  [.pool (.run 0), .pool (.fire "a:b")] ++ List.replicate 4 (.pool (.run 1))

/-- `prune` reads a tree, a value is stored under it, and `prune` writes the tree back without it. -/
theorem prune_loses_stored :
    (∃ final, pruneAndStore.exec (Text.options 2).toOptions
        (readThenStored ++ .pool (.run 0) :: writtenBack) = some final ∧ final.finished = true) ∧
      ¬ KeepsStored (Text.options 2) [storesSeven] pruneAndStore
        (readThenStored ++ .pool (.run 0) :: writtenBack) := by
  have ends : (pruneAndStore.exec (Text.options 2).toOptions
      (readThenStored ++ .pool (.run 0) :: writtenBack)).map PruneRun.finished = some true := by
    decide +kernel
  refine ⟨Option.map_eq_some_iff.mp ends, fun keeps => ?_⟩
  have writes : (pruneAndStore.exec (Text.options 2).toOptions readThenStored).map (fun run =>
      run.pool.threads[0]?.bind fun thread => thread.prog.writtenKey) = some (some "a:b") := by
    decide +kernel
  have answers : ((pruneAndStore.exec (Text.options 2).toOptions readThenStored).bind fun run =>
      (run.act (Text.options 2).toOptions (.pool (.run 0))).bind fun stored =>
        (stored.exec (Text.options 2).toOptions writtenBack).bind fun final =>
          (stored.act (Text.options 2).toOptions (.pool (.run 0))).map fun released =>
            [sevenAnswer stored, sevenAnswer released, sevenAnswer final]) =
      some [(some (some sevenStep), 10), (some (some sevenStep), 10), (some none, 10)] := by
    decide +kernel
  obtain ⟨run, executed, writing⟩ := Option.map_eq_some_iff.mp writes
  obtain ⟨⟨consumer, prog⟩, there, writing⟩ := Option.bind_eq_some_iff.mp writing
  obtain ⟨value, ttl, k, rfl⟩ := Prog.exists_of_writtenKey writing
  rw [executed, Option.bind_some] at answers
  obtain ⟨stored, acted, answers⟩ := Option.bind_eq_some_iff.mp answers
  obtain ⟨final, finished, answers⟩ := Option.bind_eq_some_iff.mp answers
  obtain ⟨released, acted', answers⟩ := Option.map_eq_some_iff.mp answers
  obtain ⟨now, later⟩ := List.cons.inj answers
  obtain ⟨stays, later⟩ := List.cons.inj later
  obtain ⟨gone, _⟩ := List.cons.inj later
  obtain ⟨storedAnswer, storedClock⟩ := Prod.mk.inj now
  obtain ⟨releasedAnswer, releasedClock⟩ := Prod.mk.inj stays
  obtain ⟨finalAnswer, finalClock⟩ := Prod.mk.inj gone
  have lost := keeps readThenStored 0 writtenBack storesSeven rfl rfl run consumer "a:b" value ttl k
    executed there stored final acted finished ["a", "b", "c"] sevenStep (List.prefix_refl _)
    (by decide +kernel) (readUntil_now (by rw [finalClock, storedClock]) storedAnswer) ?_
  · rw [lost] at finalAnswer
    cases finalAnswer
  · intro next acted
    rw [acted'] at acted
    obtain rfl := Option.some.inj acted
    refine ⟨fun i _ _ _ => readUntil_now (by rw [finalClock, releasedClock]) releasedAnswer, ?_⟩
    refine othersKeep_of_idle _ _ fun action member i bound => ?_
    obtain rfl : i = 0 := Nat.lt_one_iff.mp bound
    rintro rfl
    rcases List.mem_cons.mp member with first | later
    · cases first
    · cases List.eq_of_mem_replicate later

end TreeKeyCache
