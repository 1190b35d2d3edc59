import TreeKeyCache.Writers
import TreeKeyCache.DistinctKeys
import TreeKeyCache.Calls

/-! # Concurrent `deepTreeSet` runs

With the default `minLevelSemaphore` every section of a run holds the semaphore of its
key from before the read until after the write.  Whatever the schedule, no edit is lost:
each node ends with the edits of exactly the runs through it, in the order in which they
acquired the key that holds it. -/
set_option autoImplicit false
namespace TreeKeyCache

open SharedCells

variable {T R : Type} [SerializedForm R]

/-- A fully consumed `deepTreeSet(path, createValue)`: its consumer assigns `edit step`. -/
structure DeepRun (T : Type) where
  path : List String
  createValue : Option (ChainedObject → Option T)
  edit : Step T → Option T
  plain : PlainPath path

def DeepRun.thread (o : Options T R) (run : DeepRun T) : Thread (Step T) T R :=
  ⟨run.edit, deepTreeSet o run.path (pureCreate run.createValue) none [] 0⟩

def DeepRun.writer (o : LawfulOptions T R) (twoLevels : 2 ≤ o.keyLevelNodes) (run : DeepRun T) :
    Writer o where
  path := run.path
  create := run.createValue
  edit := run.edit
  thread := run.thread o.toOptions
  plan := deepSections o run.createValue run.edit none run.path 0
  plain := run.plain
  starts := deepTreeSet_starts o run.createValue run.edit none run.path 0 twoLevels run.plain
  visits now := deepSections_visits o run.createValue run.edit run.path 0 now (by omega)

/-- The threads that acquired the semaphore of `key`, oldest acquisition first. -/
def Pool.acquisitions {Y : Type} (p : Pool Y T R) (key : String) : List Nat :=
  (p.acquired.filter fun entry => decide (entry.2 = key)).map Prod.fst

/-- The path of run `i` passes through the node at `q`. -/
def passes (runs : List (DeepRun T)) (q : List String) (i : Nat) : Bool :=
  match runs[i]? with
  | none => false
  | some run => decide (q <+: run.path)

/-- The edit of run `i` at the node at `q`. -/
def editOf (runs : List (DeepRun T)) (q : List String) (v : Option T) (i : Nat) : Option T :=
  match runs[i]? with
  | none => v
  | some run => applyEdit run.createValue run.edit q v

/-- Every run returned, and every node holds the edits of the runs through it in the order of
their acquisitions. -/
def EditsCompose (o : LawfulOptions T R) (runs : List (DeepRun T)) (f : List String → Option T)
    (p : Pool (Step T) T R) : Prop :=
  (∀ thread ∈ p.threads, thread.prog = .ret (.ok ())) ∧
    ∀ q, PlainPath q → q ≠ [] →
      let order := (p.acquisitions (nodeKey o q)).filter (passes runs q)
      order.Perm ((List.range runs.length).filter (passes runs q)) ∧
        ∀ now, getNode o.toOptions (p.world.readAt now) now q =
          .ok ((order.foldl (editOf runs q) (f q)).map (foundStep q))

/-! ## Every section is locked -/

section
variable (o : LawfulOptions T R) (twoLevels : 2 ≤ o.keyLevelNodes) (runs : List (DeepRun T))

def writersOf : List (Writer o) := runs.map (DeepRun.writer o twoLevels)

variable {o} {twoLevels} {runs}

theorem deepSections_locked (create : Option (ChainedObject → Option T)) (edit : Step T → Option T)
    (path : List String) (now : ℚ) (s : Section (Step T) R)
    (member : s ∈ deepSections o create edit none path 0 now) : s.locked = true := by
  unfold deepSections at member
  rcases List.mem_append.mp member with key | tree
  · obtain ⟨n, _, rfl⟩ := List.mem_map.mp key
    simp [keySection]
  · split at tree
    · obtain rfl := List.mem_singleton.mp tree
      simp [treeSection]
    · cases tree

theorem run_locked (i : Nat) (job : Job String (Option R))
    (admitted : Admits (plansOf (writersOf o twoLevels runs)) i job) : job.locked = true := by
  obtain ⟨plan, now, planned, member⟩ := admitted
  rw [plansOf, writersOf, List.map_map, List.getElem?_map, Option.map_eq_some_iff] at planned
  obtain ⟨run, _, rfl⟩ := planned
  obtain ⟨s, listed, rfl⟩ := List.mem_map.mp member
  exact deepSections_locked run.createValue run.edit run.path now s listed

/-! ## The order of acquisitions -/

omit [SerializedForm R] in
theorem count_entries (key : String) (i : Nat) : ∀ log : List (Nat × Job String (Option R)),
    ((log.filter fun entry => decide (entry.2.key = key)).map Prod.fst).count i =
      (((log.filter fun entry => decide (entry.1 = i)).map Prod.snd).map Job.key).count key := by
  intro log
  induction log with
  | nil => rfl
  | cons entry log ih =>
      obtain ⟨j, job⟩ := entry
      by_cases keySame : job.key = key
      · by_cases threadSame : j = i
        · simp [keySame, threadSame, ih]
        · simp [keySame, threadSame, ih]
      · by_cases threadSame : j = i
        · simp [keySame, threadSame, ih]
        · simp [keySame, threadSame, ih]

theorem map_key_of_visits {create : Option (ChainedObject → Option T)} {edit : Step T → Option T}
    {path : List String} {ps : List (List String)} {ss : List (Section (Step T) R)}
    (visits : List.Forall₂ (Visits o create edit path) ps ss) :
    (ss.map Section.job).map Job.key = ps.map joinKeys := by
  rw [List.map_map]
  exact map_key_of_forall₂ (visits.imp fun _ _ visit => visit.key)

theorem count_keys (path q : List String) (plain : PlainPath path) (nonempty : q ≠ [])
    (positive : 1 ≤ o.keyLevelNodes) (onPath : q <+: path) :
    ((deepPrefixes o path).map joinKeys).count (nodeKey o q) = 1 := by
  have listed : q.take o.keyLevelNodes ∈ deepPrefixes o path := by
    rw [mem_deepPrefixes]
    exact ⟨( List.take_prefix _ _).trans onPath, take_keyLevels_ne_nil o q positive nonempty,
      by rw [List.length_take]; omega⟩
  have member : nodeKey o q ∈ (deepPrefixes o path).map joinKeys :=
    List.mem_map.mpr ⟨_, listed, rfl⟩
  rw [(deepKeys_nodup o path plain).count, if_pos member]

theorem acquisitions_perm (p : Pool (Step T) T R) (s : State Nat String (Option R))
    (sim : Sim (TreeEntry o) (plansOf (writersOf o twoLevels runs)) p s)
    (logged : ∀ entry ∈ s.log, Admits (plansOf (writersOf o twoLevels runs)) entry.1 entry.2)
    (done : ∀ i, i < runs.length → Done (plansOf (writersOf o twoLevels runs)) p s i)
    (q : List String) (nonempty : q ≠ []) :
    p.acquisitions (nodeKey o q) =
        (s.log.filter fun entry => decide (entry.2.key = nodeKey o q)).map Prod.fst ∧
      ((p.acquisitions (nodeKey o q)).filter (passes runs q)).Perm
        ((List.range runs.length).filter (passes runs q)) := by
  have listed : p.acquisitions (nodeKey o q) =
      (s.log.filter fun entry => decide (entry.2.key = nodeKey o q)).map Prod.fst := by
    have all : s.log.filter (fun entry => entry.2.locked) = s.log :=
      List.filter_eq_self.mpr fun entry member => run_locked entry.1 entry.2 (logged entry member)
    rw [Pool.acquisitions, sim.acquired, all, List.filter_map, List.map_map]
    rfl
  refine ⟨listed, List.perm_iff_count.mpr fun i => ?_⟩
  by_cases passing : passes runs q i = true
  · rw [List.count_filter passing, List.count_filter passing]
    unfold passes at passing
    cases found : runs[i]? with
    | none => rw [found] at passing; cases passing
    | some run =>
        rw [found] at passing
        have bound : i < runs.length := (List.getElem?_eq_some_iff.mp found).1
        obtain ⟨_, plan, now, _, planned, _, mine⟩ := done i bound
        rw [plansOf, writersOf, List.map_map, List.getElem?_map, found, Option.map_some,
          Option.some.injEq] at planned
        subst planned
        have visits : List.Forall₂ (Visits o run.createValue run.edit run.path)
            (deepPrefixes o run.path) (deepSections o run.createValue run.edit none run.path 0 now) :=
          (run.writer o twoLevels).visits now
        have entered : (s.log.filter fun entry => decide (entry.1 = i)).map Prod.snd =
            (deepSections o run.createValue run.edit none run.path 0 now).map Section.job := mine
        rw [listed, count_entries, entered, map_key_of_visits visits,
          count_keys (o := o) run.path q run.plain nonempty
          (by omega) (of_decide_eq_true passing), List.nodup_range.count,
          if_pos (List.mem_range.mpr bound)]
  · rw [List.count_eq_zero_of_not_mem fun h => passing (List.mem_filter.mp h).2,
      List.count_eq_zero_of_not_mem fun h => passing (List.mem_filter.mp h).2]

theorem editBy_eq (q : List String) (v : Option T) (i : Nat) :
    editBy (writersOf o twoLevels runs) q v i =
      if passes runs q i then editOf runs q v i else v := by
  unfold editBy passes editOf
  rw [writersOf, List.getElem?_map]
  cases runs[i]? with
  | none => rfl
  | some run =>
      simp only [Option.map_some, DeepRun.writer, decide_eq_true_eq]

end

theorem edits_compose (o : LawfulOptions T R) (twoLevels : 2 ≤ o.keyLevelNodes)
    (runs : List (DeepRun T)) (w : World R) (f : List String → Option T)
    (represents : Represents o w f) (schedule : List Action) (p : Pool (Step T) T R)
    (executed : (Pool.start w (runs.map (DeepRun.thread o.toOptions))).exec schedule = some p)
    (finished : p.finished = true) : EditsCompose o runs f p := by
  have positive : 1 ≤ o.keyLevelNodes := by omega
  have threads : runs.map (DeepRun.thread o.toOptions) =
      (writersOf o twoLevels runs).map Writer.thread := by
    rw [writersOf, List.map_map]
    rfl
  have length : (writersOf o twoLevels runs).length = runs.length := by simp [writersOf]
  rw [threads] at executed
  obtain ⟨s, moves, sane, sim, idle, done⟩ := writers_settle
    (fun _ _ (good : GoodContent o _ _) => good) goodContent_closed w represents.permanent
    represents.goodContent schedule p
    executed finished
  rw [length] at done
  have quiet : ∀ (q : List String) (i : Nat) (job : Job String (Option R)) (v : Option R),
      (fun _ : Nat => true) i = false → Admits (plansOf (writersOf o twoLevels runs)) i job →
      job.key = nodeKey o q → GoodContent o (nodeKey o q) v → job.writes v = none :=
    fun _ _ _ _ h => (nomatch h)
  have exclusive : ∀ (q : List String) (s : State Nat String (Option R)),
      Sane (Admits (plansOf (writersOf o twoLevels runs))) (GoodContent o) s → LocksHeld s →
      Exclusive (fun _ => true) (nodeKey o q) s :=
    fun q => exclusive_of_locked fun i job _ admitted _ => run_locked i job admitted
  have settled : ∀ q, PlainPath q → q ≠ [] → _ := fun q plain nonempty =>
    node_settles goodContent_closed positive w f represents represents.goodContent s moves idle q
      plain nonempty (fun _ => true) (quiet q) (exclusive q)
  have final := sim.represents sane.cell
  refine ⟨fun thread member => ?_, fun q plain nonempty => ?_⟩
  · obtain ⟨i, bound, rfl⟩ := List.getElem_of_mem member
    have inRuns : i < runs.length := by
      have := sim.length
      simp only [plansOf, List.length_map, length] at this
      omega
    obtain ⟨_, _, _, consumer, _, found, _⟩ := done i inRuns
    rw [List.getElem?_eq_getElem bound, Option.some.injEq] at found
    rw [found]
  · obtain ⟨listed, perm⟩ := acquisitions_perm p s sim sane.logged done q nonempty
    refine ⟨perm, fun now => ?_⟩
    have held := (settled q plain nonempty).2
    simp only [Bool.true_and] at held
    rw [← listed] at held
    have edits : editBy (writersOf o twoLevels runs) q =
        fun v i => if passes runs q i then editOf runs q v i else v := by
      funext v i
      exact editBy_eq q v i
    rw [final.getNode_eq positive now q plain nonempty, held, List.foldl_filter, edits]

/-! ## Counting -/

/-- `step.value ??= 0; step.value++`. -/
def countRun (path : {path : List String // PlainPath path}) : DeepRun Nat where
  path := path.1
  createValue := none
  edit step := some (step.value.getD 0 + 1)
  plain := path.2

theorem length_filter_passes (q : List String) : ∀ runs : List (DeepRun T),
    ((List.range runs.length).filter (passes runs q)).length =
      (runs.filter fun run => decide (q <+: run.path)).length := by
  intro runs
  induction runs with
  | nil => rfl
  | cons run runs ih =>
      have shifted : (passes (run :: runs) q) ∘ Nat.succ = passes runs q := by
        funext i
        simp [passes]
      have head : passes (run :: runs) q 0 = decide (q <+: run.path) := by simp [passes]
      rw [List.length_cons, List.range_succ_eq_map, List.filter_cons, List.filter_map, shifted, head,
        List.filter_cons]
      split
      · simp [ih]
      · simp [ih]

theorem foldl_countRun (paths : List {path : List String // PlainPath path}) (q : List String) :
    ∀ (order : List Nat), (∀ i ∈ order, i < paths.length) → ∀ v : Option Nat,
      (order.foldl (editOf (paths.map countRun) q) v).getD 0 = v.getD 0 + order.length := by
  intro order
  induction order with
  | nil => intro _ v; rfl
  | cons i order ih =>
      intro bound v
      have counted : editOf (paths.map countRun) q v i = some (v.getD 0 + 1) := by
        have inPaths := bound i List.mem_cons_self
        rw [editOf, List.getElem?_map, List.getElem?_eq_getElem inPaths]
        cases v <;> rfl
      rw [List.foldl_cons, counted, ih (fun j member => bound j (List.mem_cons_of_mem _ member)),
        Option.getD_some, List.length_cons]
      omega

/-- Every node counts the runs through it. -/
def CountsRuns (o : Options Nat R) (paths : List {path : List String // PlainPath path})
    (f : List String → Option Nat) (p : Pool (Step Nat) Nat R) : Prop :=
  ∀ q, PlainPath q → q ≠ [] → ∃ total : Option Nat,
    (∀ now, getNode o (p.world.readAt now) now q = .ok (total.map (foundStep q))) ∧
      total.getD 0 = (f q).getD 0 + (paths.filter fun path => decide (q <+: path.1)).length

theorem EditsCompose.counts {o : LawfulOptions Nat R}
    {paths : List {path : List String // PlainPath path}} {f : List String → Option Nat}
    {p : Pool (Step Nat) Nat R} (compose : EditsCompose o (paths.map countRun) f p) :
    CountsRuns o.toOptions paths f p := by
  intro q plain nonempty
  obtain ⟨perm, reads⟩ := compose.2 q plain nonempty
  refine ⟨_, reads, ?_⟩
  have length := perm.length_eq
  rw [length_filter_passes, List.filter_map, List.length_map] at length
  have bound : ∀ i ∈ (p.acquisitions (nodeKey o q)).filter (passes (paths.map countRun) q),
      i < paths.length := by
    intro i member
    have listed := perm.mem_iff.mp member
    have inRange := List.mem_range.mp (List.mem_filter.mp listed).1
    rwa [List.length_map] at inRange
  rw [foldl_countRun paths q _ bound, length]
  rfl

/-- No update is lost between concurrent `deepTreeSet` runs. -/
theorem deepTreeSet_no_lost_update :
    (∀ (T R : Type) [SerializedForm R] (o : LawfulOptions T R) (_ : 2 ≤ o.keyLevelNodes)
      (runs : List (DeepRun T)) (w : World R) (f : List String → Option T)
      (_ : Represents o w f) (schedule : List Action) (p : Pool (Step T) T R)
      (_ : (Pool.start w (runs.map (DeepRun.thread o.toOptions))).exec schedule = some p)
      (_ : p.finished = true), EditsCompose o runs f p) ∧
    (∀ (R : Type) [SerializedForm R] (o : LawfulOptions Nat R) (_ : 2 ≤ o.keyLevelNodes)
      (paths : List {path : List String // PlainPath path}) (w : World R)
      (f : List String → Option Nat) (_ : Represents o w f) (schedule : List Action)
      (p : Pool (Step Nat) Nat R)
      (_ : (Pool.start w ((paths.map countRun).map (DeepRun.thread o.toOptions))).exec schedule =
        some p)
      (_ : p.finished = true), CountsRuns o.toOptions paths f p) :=
  ⟨fun _ _ _ o twoLevels runs w f represents schedule p executed finished =>
      edits_compose o twoLevels runs w f represents schedule p executed finished,
    fun _ _ o twoLevels _ w f represents schedule p executed finished =>
      (edits_compose o twoLevels _ w f represents schedule p executed finished).counts⟩

def nestedPaths : List {path : List String // PlainPath path} :=
  [⟨["a", "b"], by decide +kernel⟩, ⟨["a", "b", "c"], by decide +kernel⟩]

-- The first run loses the race for "a" and the second one enters "a:b" before it.
def overlapping : List Action :=
  List.flatten [[.run 0, .run 1, .run 0], List.replicate 6 (.run 1), [.fire "a"],
    List.replicate 5 (.run 0), [.run 1, .fire "a"], List.replicate 5 (.run 1), [.fire "a:b"],
    List.replicate 5 (.run 0)]

def overlappingPool : Option (Pool (Step Nat) Nat String) :=
  (Pool.start (World.emptyAt 0) ((nestedPaths.map countRun).map
    (DeepRun.thread (Text.options 2).toOptions))).exec overlapping

theorem deepTreeSet_no_lost_update_overlapping :
    ∃ p, overlappingPool = some p ∧ p.finished = true ∧
      EditsCompose (Text.options 2) (nestedPaths.map countRun) (fun _ => none) p ∧
      CountsRuns (Text.options 2).toOptions nestedPaths (fun _ => none) p := by
  have ends : overlappingPool.map Pool.finished = some true := by decide +kernel
  obtain ⟨p, executed, finished⟩ := Option.map_eq_some_iff.mp ends
  have empty := represents_empty (Text.options 2) 0
  exact ⟨p, executed, finished,
    deepTreeSet_no_lost_update.1 Nat String (Text.options 2) (by decide) _ _ _ empty overlapping p
      executed finished,
    deepTreeSet_no_lost_update.2 String (Text.options 2) (by decide) _ _ _ empty overlapping p
      executed finished⟩

/-! ## A falsy serialized tree -/

def samePaths : List {path : List String // PlainPath path} :=
  [⟨["a", "b"], by decide +kernel⟩, ⟨["a", "b"], by decide +kernel⟩]

def oneAfterTheOther : List Action :=
  List.flatten [List.replicate 12 (.run 0), [.fire "a", .fire "a:b"], List.replicate 12 (.run 1),
    [.fire "a", .fire "a:b"]]

def tersePool : Option (Pool (Step Nat) Nat String) :=
  (Pool.start (World.emptyAt 0) ((samePaths.map countRun).map
    (DeepRun.thread (Text.terseOptions 2)))).exec oneAfterTheOther

/-- The tree the first run wrote is an absent entry to the second. -/
theorem deepTreeSet_loses_update_of_falsy_tree :
    2 ≤ (Text.terseOptions 2).keyLevelNodes ∧ RoundTrips (Text.terseOptions 2) ∧
      ∃ p, tersePool = some p ∧ p.finished = true ∧
        ¬ CountsRuns (Text.terseOptions 2) samePaths (fun _ => none) p := by
  have ends : tersePool.map (fun p => (p.finished,
      (getNode (Text.terseOptions 2) (p.world.readAt 0) 0 ["a", "b"]).toOption)) =
        some (true, some none) := by decide +kernel
  obtain ⟨p, executed, ended⟩ := Option.map_eq_some_iff.mp ends
  obtain ⟨finished, absent⟩ := Prod.mk.inj ended
  refine ⟨by decide, Text.terseOptions_roundTrips 2, p, executed, finished, fun counts => ?_⟩
  obtain ⟨total, reads, twice⟩ := counts ["a", "b"] (by decide) (by decide)
  rw [reads 0] at absent
  cases total with
  | none => simp [samePaths] at twice
  | some n => simp [Except.toOption] at absent

end TreeKeyCache
