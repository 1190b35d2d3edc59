import TreeKeyCache.ConcurrentRuns

/-! # Concurrent `setNode` calls

`setNode` passes the length of its path as `minLevelSemaphore`.  The key levels compare
it with the number of keys before the current one, so no key level locks, and the tree
level compares it with `keyLevelNodes`, so that it locks only for a path that ends at
the root of the tree.  What still protects a call is that no other call changes the key
that holds its node. -/
set_option autoImplicit false
namespace TreeKeyCache

open SharedCells

variable {T R : Type} [SerializedForm R]

structure SetCall (T : Type) where
  path : List String
  value : T
  plain : PlainPath path
  nonempty : path ≠ []

/-- `setNode` consumes its own items: the consumer of the thread is never asked. -/
def SetCall.thread (o : Options T R) (call : SetCall T) : Thread (Step T) T R :=
  ⟨Step.value, setNode o call.path (some (.value call.value)) none⟩

theorem SetCall.starts (o : LawfulOptions T R) (twoLevels : 2 ≤ o.keyLevelNodes) (call : SetCall T) :
    Starts (call.thread o.toOptions).consumer (TreeEntry o) (call.thread o.toOptions).prog
      (setSections o call.path call.value none) :=
  setNode_starts o Step.value call.path call.value none twoLevels call.plain

theorem SetCall.visits (o : LawfulOptions T R) (twoLevels : 2 ≤ o.keyLevelNodes) (call : SetCall T)
    (now : ℚ) : List.Forall₂ (Visits o (some fun _ => none) (setEdit call.path.length call.value) call.path)
      (deepPrefixes o call.path) (setSections o call.path call.value none now) :=
  setSections_visits o call.path call.value now (by omega)

def SetCall.writer (o : LawfulOptions T R) (twoLevels : 2 ≤ o.keyLevelNodes) (call : SetCall T) :
    Writer o where
  path := call.path
  create := some fun _ => none
  edit := setEdit call.path.length call.value
  thread := call.thread o.toOptions
  plan := setSections o call.path call.value none
  plain := call.plain
  starts := SetCall.starts o twoLevels call
  visits := SetCall.visits o twoLevels call

/-- However the calls interleave, each value is there after they have finished. -/
def SetsSurvive (o : Options T R) (calls : List (SetCall T)) (w : World R) : Prop :=
  ∀ (schedule : List Action) (p : Pool (Step T) T R),
    (Pool.start w (calls.map (SetCall.thread o))).exec schedule = some p → p.finished = true →
      ∀ (i : Nat) (call : SetCall T), calls[i]? = some call →
        ∀ now, getNode o (p.world.readAt now) now call.path =
          .ok (some (foundStep call.path call.value))

section
variable (o : LawfulOptions T R)

/-- Serialized values are compared by content, as strings are. -/
def ByContent : Prop := ∀ v, SerializedForm.same (o.encode v) (o.encode v) = true

/-- No key is changed by two calls. -/
structure Apart (calls : List (SetCall T)) (w : World R) : Prop where
  tree : ∀ (i j : Nat) (call call' : SetCall T), i ≠ j → calls[i]? = some call → calls[j]? = some call' →
    o.keyLevelNodes ≤ call.path.length → o.keyLevelNodes ≤ call'.path.length →
      call.path.take o.keyLevelNodes ≠ call'.path.take o.keyLevelNodes
  key : (ByContent o ∧ ∀ key, Canonical o key (w.read key)) ∨
    ∀ (i j : Nat) (call call' : SetCall T), i ≠ j → calls[i]? = some call → calls[j]? = some call' →
      call.path.length < o.keyLevelNodes → ¬ call.path <+: call'.path

/-! ## Sections of a call -/

theorem mem_setSections (path : List String) (v : T) (now : ℚ) (s : Section (Step T) R)
    (member : s ∈ setSections o path v none now) :
    (∃ n, n + 1 < o.keyLevelNodes ∧ n < path.length ∧ s = (keySection o (some fun _ => none)
        (setEdit path.length v) none path path.length n).silent) ∨
      (o.keyLevelNodes ≤ path.length ∧ s = (treeSection o (some fun _ => none)
        (setEdit path.length v) none path path.length now).silent) := by
  obtain ⟨s, listed, rfl⟩ := List.mem_map.mp member
  unfold deepSections at listed
  rcases List.mem_append.mp listed with key | tree
  · obtain ⟨n, inRange, rfl⟩ := List.mem_map.mp key
    have := List.mem_range.mp inRange
    exact Or.inl ⟨n, by omega, by omega, rfl⟩
  · split at tree
    · obtain rfl := List.mem_singleton.mp tree
      exact Or.inr ⟨‹_›, rfl⟩
    · cases tree

theorem keySection_quiet (byContent : ByContent o) (path : List String) (v : T) (n : Nat)
    (above : n + 1 < path.length) (content : Option R)
    (canonical : ∀ r, content = some r → ∃ v, r = o.encode v) :
    (keySection o (some fun _ => none) (setEdit path.length v) none path path.length n).writes
      content = none := by
  have length : (path.take (n + 1)).length = n + 1 := List.length_take_of_le (by omega)
  have level : (nodeRefOf (path.take (n + 1))).level = n + 1 := by
    rw [nodeRefOf_level _ (take_ne_nil path n (by omega)), length]
  have kept : ∀ old : Option T, setEdit path.length v (mountStep (nodeRefOf (path.take (n + 1))) old) =
      old := by
    intro old
    rw [setEdit, if_neg (by simp only [mountStep, level]; omega)]
    rfl
  simp only [keySection, stepWrites, editStep, present, kept]
  cases content with
  | none => rfl
  | some r =>
      obtain ⟨v, rfl⟩ := canonical r rfl
      simp [deserializeValue_encode, differs, byContent v]

section
variable {o} {twoLevels : 2 ≤ o.keyLevelNodes} {calls : List (SetCall T)}

theorem admits_of_call (i : Nat) (job : Job String (Option R))
    (admitted : Admits (plansOf (calls.map (SetCall.writer o twoLevels))) i job) :
    ∃ call now, calls[i]? = some call ∧ ∃ s ∈ setSections o call.path call.value none now,
      s.job = job := by
  obtain ⟨plan, now, planned, member⟩ := admitted
  rw [plansOf, List.map_map, List.getElem?_map, Option.map_eq_some_iff] at planned
  obtain ⟨call, listed, rfl⟩ := planned
  obtain ⟨s, found, same⟩ := List.mem_map.mp member
  exact ⟨call, now, listed, s, found, same⟩

theorem Apart.quiet {w : World R} (apart : Apart o calls w)
    (distinct : ∀ (i j : Nat) (call call' : SetCall T), i ≠ j → calls[i]? = some call →
      calls[j]? = some call' → call.path ≠ call'.path)
    {good : String → Option R → Prop}
    (unchanged : (ByContent o ∧ ∀ key content, good key content → Canonical o key content) ∨
      ∀ (i j : Nat) (call call' : SetCall T), i ≠ j → calls[i]? = some call →
        calls[j]? = some call' → call.path.length < o.keyLevelNodes → ¬ call.path <+: call'.path)
    (i : Nat) (call : SetCall T) (listed : calls[i]? = some call) (j : Nat)
    (job : Job String (Option R)) (content : Option R) (other : j ≠ i)
    (admitted : Admits (plansOf (calls.map (SetCall.writer o twoLevels))) j job)
    (atNode : job.key = nodeKey o call.path) (sound : good (nodeKey o call.path) content) :
    job.writes content = none := by
  obtain ⟨call', now, listed', s, found, rfl⟩ := admits_of_call j job admitted
  have different := distinct i j call call' (Ne.symm other) listed listed'
  have nodeNonempty : call.path.take o.keyLevelNodes ≠ [] :=
    take_keyLevels_ne_nil o call.path (by omega) call.nonempty
  rcases mem_setSections o call'.path call'.value now s found with
    ⟨n, keyLevel, bound, rfl⟩ | ⟨deep, rfl⟩
  · have same : call'.path.take (n + 1) = call.path.take o.keyLevelNodes :=
      (joinKeys_eq_iff _ _ (call'.plain.take _) (call.plain.take _) (take_ne_nil _ n bound)
        nodeNonempty).mp atNode
    have whole : call.path = call'.path.take (n + 1) :=
      eq_of_take_eq_of_lt call.path _ _ same.symm (by rw [List.length_take]; omega)
    have length : call.path.length = n + 1 := by
      rw [whole]
      exact List.length_take_of_le (by omega)
    have above : n + 1 < call'.path.length := by
      by_contra last
      rw [List.take_of_length_le (by omega)] at whole
      exact different whole
    rcases unchanged with ⟨byContent, canonical⟩ | never
    · have unwritten := keySection_quiet o byContent call'.path call'.value n above content
        fun r stored => canonical _ content sound call.path r call.plain call.nonempty rfl
          (by rw [nodeLabel, if_pos (by omega)]; exact stored)
      simp only [Section.job, Section.silent, unwritten, Option.map_none]
    · refine absurd ?_ (never i j call call' (Ne.symm other) listed listed' (by omega))
      rw [whole]
      exact List.take_prefix _ _
  · have same : call'.path.take o.keyLevelNodes = call.path.take o.keyLevelNodes :=
      (joinKeys_eq_iff _ _ (call'.plain.take _) (call.plain.take _)
        (take_keyLevels_ne_nil o call'.path (by omega) call'.nonempty) nodeNonempty).mp atNode
    have lengths := congrArg List.length same
    rw [List.length_take, List.length_take] at lengths
    exact absurd same.symm (apart.tree i j call call' (Ne.symm other) listed listed' (by omega) deep)

theorem foldl_editBy_call (i : Nat) (call : SetCall T) (listed : calls[i]? = some call) :
    ∀ order : List Nat, (∀ j ∈ order, j = i) → order ≠ [] → ∀ old : Option T,
      order.foldl (editBy (calls.map (SetCall.writer o twoLevels)) call.path) old =
        some call.value := by
  intro order
  induction order with
  | nil => intro _ nonempty; exact absurd rfl nonempty
  | cons j order ih =>
      intro own _ old
      obtain rfl := own j List.mem_cons_self
      have written : editBy (calls.map (SetCall.writer o twoLevels)) call.path old j =
          some call.value := by
        rw [editBy, List.getElem?_map, listed, Option.map_some]
        simp only [SetCall.writer, List.prefix_refl, if_true]
        rw [applyEdit_setEdit call.path call.path call.value old call.nonempty (List.prefix_refl _),
          if_pos rfl]
      rw [List.foldl_cons, written]
      cases order with
      | nil => rfl
      | cons k rest =>
          exact ih (fun k member => own k (List.mem_cons_of_mem _ member)) (List.cons_ne_nil _ _) _

theorem exists_ownJob (call : SetCall T) (now : ℚ) (positive : 1 ≤ o.keyLevelNodes) :
    ∃ job ∈ (setSections o call.path call.value none now).map Section.job,
      job.key = nodeKey o call.path := by
  have listed : call.path.take o.keyLevelNodes ∈ deepPrefixes o call.path := by
    rw [mem_deepPrefixes]
    exact ⟨List.take_prefix _ _, take_keyLevels_ne_nil o call.path positive call.nonempty,
      by rw [List.length_take]; omega⟩
  have keys := map_key_of_visits (setSections_visits o call.path call.value now positive)
  have member : nodeKey o call.path ∈
      ((setSections o call.path call.value none now).map Section.job).map Job.key := by
    rw [keys]
    exact List.mem_map.mpr ⟨_, listed, rfl⟩
  obtain ⟨job, found, same⟩ := List.mem_map.mp member
  exact ⟨job, found, same⟩

theorem locked_iff (call : SetCall T) (now : ℚ) (s : Section (Step T) R)
    (member : s ∈ setSections o call.path call.value none now) (atNode : s.key = nodeKey o call.path)
    (positive : 1 ≤ o.keyLevelNodes) :
    s.locked = true ↔ call.path.length = o.keyLevelNodes := by
  rcases mem_setSections o call.path call.value now s member with ⟨n, keyLevel, bound, rfl⟩ | ⟨deep, rfl⟩
  · have same : call.path.take (n + 1) = call.path.take o.keyLevelNodes :=
      (joinKeys_eq_iff _ _ (call.plain.take _) (call.plain.take _) (take_ne_nil _ n bound)
        (take_keyLevels_ne_nil o call.path positive call.nonempty)).mp atNode
    have lengths := congrArg List.length same
    rw [List.length_take, List.length_take] at lengths
    simp only [Section.silent, keySection, decide_eq_true_eq]
    omega
  · simp only [Section.silent, treeSection, decide_eq_true_eq]
    omega

variable (twoLevels) in
theorem calls_settle {w : World R} {f : List String → Option T} (represents : Represents o w f)
    {good : String → Option R → Prop}
    (goodContent : ∀ key content, good key content → GoodContent o key content)
    (closed : ∀ i job v v', Admits (plansOf (calls.map (SetCall.writer o twoLevels))) i job →
      good job.key v → job.writes v = some v' → good job.key v')
    (initially : ∀ key, good key (w.read key))
    (quiet : ∀ (i : Nat) (call : SetCall T), calls[i]? = some call → ∀ (j : Nat)
      (job : Job String (Option R)) (content : Option R), j ≠ i →
      Admits (plansOf (calls.map (SetCall.writer o twoLevels))) j job →
      job.key = nodeKey o call.path → good (nodeKey o call.path) content → job.writes content = none) :
    SetsSurvive o.toOptions calls w := by
  intro schedule p executed finished i call listed now
  have positive : 1 ≤ o.keyLevelNodes := by omega
  have threads : calls.map (SetCall.thread o.toOptions) =
      (calls.map (SetCall.writer o twoLevels)).map Writer.thread := by
    rw [List.map_map]
    rfl
  rw [threads] at executed
  obtain ⟨s, moves, sane, sim, idle, done⟩ := writers_settle goodContent closed w
    represents.permanent initially schedule p executed finished
  obtain ⟨_, held⟩ := node_settles closed positive w f represents initially s moves idle call.path
    call.plain call.nonempty (fun j => decide (j = i))
    (fun j job content other => quiet i call listed j job content (of_decide_eq_false other))
    fun s _ _ => exclusive_of_single (fun j k jOwn kOwn =>
      (of_decide_eq_true jOwn).trans (of_decide_eq_true kOwn).symm) s
  have bound : i < (calls.map (SetCall.writer o twoLevels)).length := by
    rw [List.length_map]
    exact (List.getElem?_eq_some_iff.mp listed).1
  obtain ⟨_, plan, began, _, planned, _, mine⟩ := done i bound
  rw [plansOf, List.map_map, List.getElem?_map, listed, Option.map_some, Option.some.injEq] at planned
  subst planned
  -- the call has entered the key of its node, and only its own entries count there
  obtain ⟨job, found, atNode⟩ := exists_ownJob (o := o) call began positive
  have entered : job ∈ jobsOf s i := by
    rw [mine]
    exact found
  obtain ⟨entry, inLog, rfl⟩ := List.mem_map.mp entered
  obtain ⟨logged, own⟩ := List.mem_filter.mp inLog
  rw [foldl_editBy_call i call listed] at held
  · rw [(sim.represents fun key => goodContent key _ (sane.cell key)).getNode_eq positive now call.path
      call.plain call.nonempty, held]
    rfl
  · intro j member
    obtain ⟨entry', kept, rfl⟩ := List.mem_map.mp member
    have chosen := (List.mem_filter.mp kept).2
    rw [Bool.and_eq_true] at chosen
    exact of_decide_eq_true chosen.1
  · refine List.ne_nil_of_mem (List.mem_map.mpr ⟨entry, List.mem_filter.mpr ⟨logged, ?_⟩, rfl⟩)
    rw [Bool.and_eq_true]
    exact ⟨own, decide_eq_true atNode⟩

/-- A call that has finished has taken the semaphore of the key of its node exactly when its path
has `keyLevelNodes` keys. -/
theorem acquired_iff {w : World R} {f : List String → Option T} (represents : Represents o w f)
    (schedule : List Action) (p : Pool (Step T) T R)
    (executed : (Pool.start w ((calls.map (SetCall.writer o twoLevels)).map Writer.thread)).exec
      schedule = some p)
    (finished : p.finished = true) (i : Nat) (call : SetCall T) (listed : calls[i]? = some call) :
    (i, nodeKey o call.path) ∈ p.acquired ↔ call.path.length = o.keyLevelNodes := by
  have positive : 1 ≤ o.keyLevelNodes := by omega
  obtain ⟨s, _, _, sim, _, done⟩ := writers_settle
    (fun _ _ (good : GoodContent o _ _) => good) goodContent_closed w represents.permanent
    represents.goodContent schedule p executed finished
  have bound : i < (calls.map (SetCall.writer o twoLevels)).length := by
    rw [List.length_map]
    exact (List.getElem?_eq_some_iff.mp listed).1
  obtain ⟨_, plan, began, _, planned, _, mine⟩ := done i bound
  rw [plansOf, List.map_map, List.getElem?_map, listed, Option.map_some, Option.some.injEq] at planned
  subst planned
  have own : ∀ job : Job String (Option R), (i, job) ∈ s.log ↔
      job ∈ (setSections o call.path call.value none began).map Section.job := by
    intro job
    have jobs : jobsOf s i = (setSections o call.path call.value none began).map Section.job := mine
    rw [← jobs, jobsOf, List.mem_map]
    simp
  rw [sim.acquired, List.mem_map]
  constructor
  · rintro ⟨⟨j, job⟩, kept, same⟩
    obtain ⟨logged, locked⟩ := List.mem_filter.mp kept
    obtain ⟨rfl, atNode⟩ := Prod.mk.inj same
    obtain ⟨sec, member, rfl⟩ := List.mem_map.mp ((own job).mp logged)
    exact (locked_iff call began sec member atNode positive).mp locked
  · intro root
    obtain ⟨job, found, atNode⟩ := exists_ownJob (o := o) call began positive
    obtain ⟨sec, member, rfl⟩ := List.mem_map.mp found
    have locked : sec.job.locked = true := (locked_iff call began sec member atNode positive).mpr root
    exact ⟨(i, sec.job), List.mem_filter.mpr ⟨(own _).mpr found, locked⟩, by rw [atNode]⟩

end

end

/-- Calls on different paths survive each other when no key is changed by two of them; only a
path of `keyLevelNodes` keys is ever protected by its semaphore. -/
theorem setNode_no_lost_update (o : LawfulOptions T R) (twoLevels : 2 ≤ o.keyLevelNodes)
    (calls : List (SetCall T)) (distinct : (calls.map SetCall.path).Nodup) (w : World R)
    (f : List String → Option T) (represents : Represents o w f) :
    (Apart o calls w → SetsSurvive o.toOptions calls w) ∧
      ∀ (schedule : List Action) (p : Pool (Step T) T R),
        (Pool.start w (calls.map (SetCall.thread o.toOptions))).exec schedule = some p →
        p.finished = true → ∀ (i : Nat) (call : SetCall T), calls[i]? = some call →
          ((i, nodeKey o call.path) ∈ p.acquired ↔ call.path.length = o.keyLevelNodes) := by
  have different : ∀ (i j : Nat) (call call' : SetCall T), i ≠ j → calls[i]? = some call →
      calls[j]? = some call' → call.path ≠ call'.path := by
    intro i j call call' apart listed listed' same
    have iPath : (calls.map SetCall.path)[i]? = some call.path := by
      rw [List.getElem?_map, listed, Option.map_some]
    have jPath : (calls.map SetCall.path)[j]? = some call.path := by
      rw [List.getElem?_map, listed', Option.map_some, same]
    have bound : i < (calls.map SetCall.path).length := (List.getElem?_eq_some_iff.mp iPath).1
    exact apart ((List.getElem?_inj bound distinct).mp (iPath.trans jPath.symm))
  refine ⟨fun apart => ?_, fun schedule p executed finished i call listed => ?_⟩
  · rcases apart.key with ⟨byContent, canonical⟩ | never
    · refine calls_settle twoLevels represents
        (fun key content (good : GoodContent o key content ∧ Canonical o key content) => good.1) ?_
        (fun key => ⟨represents.goodContent key, canonical key⟩) ?_
      · intro i job v v' admitted good written
        exact ⟨goodContent_closed i job v v' admitted good.1 written,
          canonical_closed (by omega) i job v v' admitted good.2 written⟩
      · exact apart.quiet different (Or.inl ⟨byContent, fun _ _ => And.right⟩)
    · exact calls_settle twoLevels represents (fun key content (good : GoodContent o key content) => good)
        goodContent_closed represents.goodContent (apart.quiet different (Or.inr never))
  · have threads : calls.map (SetCall.thread o.toOptions) =
        (calls.map (SetCall.writer o twoLevels)).map Writer.thread := by
      rw [List.map_map]
      rfl
    rw [threads] at executed
    exact acquired_iff represents schedule p executed finished i call listed

/-- A call on a key level above the node of another call. -/
def nestedSets : List (SetCall Nat) :=
  [⟨["a"], 1, by decide +kernel, by decide⟩, ⟨["a", "b", "x"], 2, by decide +kernel, by decide⟩]

theorem nestedSets_apart : Apart (Text.options 2) nestedSets (World.emptyAt 0) := by
  have shallow : ∀ (i : Nat) (call : SetCall Nat), nestedSets[i]? = some call →
      (Text.options 2).keyLevelNodes ≤ call.path.length → i = 1 := by
    intro i call listed deep
    match i with
    | 0 =>
        cases listed
        exact absurd deep (by decide)
    | 1 => rfl
    | n + 2 => simp [nestedSets] at listed
  refine ⟨fun i j call call' other listed listed' deep deep' => ?_, Or.inl ⟨fun v => ?_, ?_⟩⟩
  · exact absurd ((shallow i call listed deep).trans (shallow j call' listed' deep').symm) other
  · exact PrimitiveForm.same_refl _
  · intro key q r _ _ _ stored
    have nothing : (World.emptyAt 0 : World String).read key = none := rfl
    rw [nothing, nodeLabel] at stored
    split at stored
    · cases stored
    · rw [show rootTree (Text.options 2) none = Tree.empty from rfl, Tree.labelAt_empty] at stored
      cases stored

theorem setNode_no_lost_update_nested :
    SetsSurvive (Text.options 2).toOptions nestedSets (World.emptyAt 0) :=
  (setNode_no_lost_update (Text.options 2) (by decide) nestedSets (by decide) (World.emptyAt 0) _
    (represents_empty (Text.options 2) 0)).1 nestedSets_apart

def siblingSets : List (SetCall Nat) :=
  [⟨["a", "b", "x"], 1, by decide +kernel, by decide⟩,
    ⟨["a", "b", "y"], 2, by decide +kernel, by decide⟩]

-- Both calls read "a:b" before either writes it.
def bothRead : List Action :=
  List.flatten [List.replicate 4 (.run 0), List.replicate 4 (.run 1), [.run 0, .run 1]]

theorem setNode_loses_update :
    (siblingSets.map SetCall.path).Nodup ∧
      ¬ SetsSurvive (Text.options 2).toOptions siblingSets (World.emptyAt 0) := by
  refine ⟨by decide, fun survive => ?_⟩
  have ends : ((Pool.start (World.emptyAt 0) (siblingSets.map
      (SetCall.thread (Text.options 2).toOptions))).exec bothRead).map (fun p => (p.finished,
        (getNode (Text.options 2).toOptions (p.world.readAt 0) 0 ["a", "b", "x"]).toOption)) =
      some (true, some none) := by
    decide +kernel
  obtain ⟨p, executed, final⟩ := Option.map_eq_some_iff.mp ends
  obtain ⟨finished, read⟩ := Prod.mk.inj final
  rw [survive bothRead p executed finished 0 _ rfl 0] at read
  cases read

end TreeKeyCache
