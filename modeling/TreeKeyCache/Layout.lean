import TreeKeyCache.AnyKeys
import TreeKeyCache.Calls

/-! # Layouts

`keyLevelNodes` decides which nodes have a storage key of their own.  From two levels
on every layout stands for the same map, and reads it alike at every path whose keys do
not contain the separator.  With one level `deepTreeSet` finds no chained key when it
reaches the tree level and rejects, whatever the path. -/
set_option autoImplicit false
namespace TreeKeyCache

variable {T R : Type} [SerializedForm R]

/-- Any call without ttl: `setNode` may be given nothing or a callback, and `createValue` may
throw. -/
inductive LayoutCall (T : Type) where
  | setNode (path : List String) (value : Option (NodeValue T))
  | deepTreeSet (path : List String) (createValue : Option (CreateValue T))
      (consumer : Step T → Option T)

namespace LayoutCall

def path : LayoutCall T → List String
  | setNode path _ => path
  | deepTreeSet path _ _ => path

def consumer : LayoutCall T → Step T → Option T
  | setNode _ _ => Step.value
  | deepTreeSet _ _ consumer => consumer

def prog (o : Options T R) : LayoutCall T → Prog (Step T) T R Unit
  | setNode path value => TreeKeyCache.setNode o path value none
  | deepTreeSet path createValue _ => TreeKeyCache.deepTreeSet o path createValue none [] 0

def Plain (call : LayoutCall T) : Prop := PlainPath call.path ∧ call.path ≠ []

/-- `createValue` returns. -/
def Creates : LayoutCall T → Prop
  | setNode _ _ => True
  | deepTreeSet _ createValue _ => ∃ create, createValue = pureCreate create

/-- With two levels or more, only a callback that throws makes a call fail. -/
def succeeds : LayoutCall T → Bool
  | setNode _ (some (.callback (.error _))) => false
  | _ => true

/-- `setNode` without a value, the only call that does not come to the storage. -/
def isEmpty : LayoutCall T → Bool
  | setNode _ none => true
  | _ => false

/-- The call stores nothing: it has no value, or throws instead of giving one. -/
def Idle (call : LayoutCall T) : Prop := call.succeeds = call.isEmpty

/-- What the callback of `createValue` gives where it does not throw. -/
def created (createValue : Option (CreateValue T)) : Option (ChainedObject → Option T) :=
  createValue.map fun f nodeRef => (f nodeRef).toOption.join

def apply (m : PathMap T) : LayoutCall T → PathMap T
  | setNode path (some (.value v)) => m.assign path v
  | setNode path (some (.callback (.ok (some v)))) => m.assign path v
  | setNode _ _ => m
  | deepTreeSet path createValue consumer => m.visit (created createValue) consumer path

end LayoutCall

/-- Whether each call succeeded, and the storage after the calls. -/
def runLayout (o : Options T R) : List (ℚ × LayoutCall T) → World R → List Bool × World R
  | [], w => ([], w)
  | (t, call) :: rest, w =>
      let outcome := (call.prog o).run call.consumer { w with clock := t }
      let later := runLayout o rest outcome.world
      (outcome.result.isOk :: later.1, later.2)

omit [SerializedForm R] in
theorem created_pureCreate (create : Option (ChainedObject → Option T)) :
    LayoutCall.created (pureCreate create) = create := by
  cases create <;> rfl

/-- The storage stands for a map on plain paths, and holds nothing else. -/
structure Stands (o : LawfulOptions T R) (w : World R) (m : PathMap T) : Prop where
  represents : Represents o w m.find
  bare : Bare o w
  plain : ∀ q, ¬ (PlainPath q ∧ q ≠ []) → m.find q = none

section
variable (o : LawfulOptions T R)

variable {o} {w : World R} {m : PathMap T}

theorem Stands.wait (stands : Stands o w m) (t : ℚ) : Stands o { w with clock := t } m := by
  refine ⟨stands.represents.wait t, ⟨stands.bare.apart, fun q above unplain => ?_⟩, stands.plain⟩
  have below := stands.bare.below q above unplain
  rw [World.read, readAt_of_permanent w stands.represents.permanent _ t] at below
  exact below

theorem visit_unplain (stands : Stands o w m) {path : List String} (plain : PlainPath path)
    (create : Option (ChainedObject → Option T)) (edit : Step T → Option T) (q : List String)
    (unplain : ¬ (PlainPath q ∧ q ≠ [])) : (m.visit create edit path).find q = none := by
  have aside : ¬ (q ≠ [] ∧ q <+: path) := fun both => unplain ⟨plain.above both.2, both.1⟩
  rw [PathMap.visit]
  simp only [if_neg aside]
  exact stands.plain q unplain

theorem Stands.deepTreeSet (stands : Stands o w m) (create : Option (ChainedObject → Option T))
    (edit : Step T → Option T) (path : List String) (minLevelSemaphore : Nat)
    (twoLevels : 2 ≤ o.keyLevelNodes) (plain : PlainPath path) :
    ∃ w', (TreeKeyCache.deepTreeSet o.toOptions path (pureCreate create) none []
        minLevelSemaphore).run edit w = ⟨.ok (), w', m.steps create path⟩ ∧
      Stands o w' (m.visit create edit path) := by
  obtain ⟨w', ran, represents, bare⟩ := deepTreeSet_represents o create edit path minLevelSemaphore
    twoLevels plain w m stands.represents
  exact ⟨w', ran, represents, bare stands.bare, visit_unplain stands plain create edit⟩

/-- What `setNode` assigns when its callback resolves to `value`. -/
def resolvedEdit (length : Nat) (value : Option T) (item : Step T) : Option T :=
  if item.level = length then value else item.value

theorem assignAt_callback (length : Nat) (value : Option T) :
    assignAt length (.callback (.ok value)) = fun item => .ok (resolvedEdit length value item) := by
  funext item
  unfold assignAt resolvedEdit
  split <;> rfl

theorem visit_resolvedEdit_none (path : List String) :
    m.visit (some fun _ => none) (resolvedEdit path.length none) path = m := by
  ext1 q
  simp only [PathMap.visit, applyEdit, resolvedEdit]
  split
  · cases m.find q <;> split <;> rfl
  · rfl

theorem editOn_passing (path : List String) (ps : List (List String)) (f : List String → Option T) :
    editOn o (some fun _ => none) Step.value path ps f = f := by
  funext q
  rw [editOn, applyEdit]
  split
  · cases f q <;> rfl
  · rfl

theorem Stands.sectionsAbove (stands : Stands o w m) (path : List String)
    (twoLevels : 2 ≤ o.keyLevelNodes) (plain : PlainPath path) (nonempty : path ≠ []) :
    Stands o (performAll w (sectionsAbove o (some fun _ => none) Step.value none path)) m := by
  have length := List.length_pos_iff.mpr nonempty
  have visits : List.Forall₂ (Visits o (some fun _ => none) Step.value path)
      (prefixesFrom path 0 (min (o.keyLevelNodes - 1) (path.length - 1)))
      (TreeKeyCache.sectionsAbove o (some fun _ => none) Step.value none path) := by
    rw [prefixesFrom, List.range'_eq_map_range, TreeKeyCache.sectionsAbove, List.map_map,
      List.forall₂_map_left_iff, List.forall₂_map_right_iff, List.forall₂_same]
    intro n member
    have bound := List.mem_range.mp member
    have key := keySection_visits o (some fun _ => none) Step.value path 0 n (by omega) (by omega)
    rw [Function.comp_apply, show 0 + 1 + n = n + 1 by omega]
    refine ⟨?_, key.untimed, key.sound, key.held, key.values⟩
    change (chainedKeyOf (path.take (n + 1))).getD "" = _
    rw [chainedKeyOf_eq_joinKeys path (fun key h => (plain key h).nonempty) n (by omega)]
    rfl
  have listed : ∀ p ∈ prefixesFrom path 0 (min (o.keyLevelNodes - 1) (path.length - 1)),
      p <+: path ∧ p ≠ [] ∧ p.length ≤ o.keyLevelNodes := by
    intro p member
    obtain ⟨onPath, pNonempty, short⟩ := (mem_prefixesFrom_iff path _ (by omega) p).mp member
    exact ⟨onPath, pNonempty, by omega⟩
  have after := (Represents.performAll path (by omega) plain _ _ visits
    (prefixesFrom_nodup _ 0 _ (by omega)) listed w m.find stands.represents).2
  rw [editOn_passing] at after
  exact ⟨after, Bare.performAll path (by omega) plain _ _ visits listed w m.find stands.represents
    stands.bare, stands.plain⟩

theorem Stands.setNode_throws (stands : Stands o w m) (e : Err) (path : List String)
    (consumer : Step T → Option T) (twoLevels : 2 ≤ o.keyLevelNodes) (plain : PlainPath path)
    (nonempty : path ≠ []) :
    let outcome := (setNode o.toOptions path (some (.callback (.error e))) none).run consumer w
    outcome.result = .error e ∧ Stands o outcome.world m := by
  have above := stands.sectionsAbove path twoLevels plain nonempty
  have keysNonempty : ∀ key ∈ path, key ≠ "" := fun key h => (plain key h).nonempty
  have reached : o.keyLevelNodes ≤ path.length → ReachesTree o path := by
    intro deep
    refine ⟨deep, ?_⟩
    obtain ⟨n, level⟩ := Nat.exists_eq_add_of_le twoLevels
    rw [show o.keyLevelNodes - 1 = n + 1 by omega,
      chainedKeyOf_eq_joinKeys path keysNonempty n (by omega), Option.getD_some]
    exact joinKeys_ne_empty _ (take_ne_nil path n (by omega)) fun key h =>
      keysNonempty key (List.mem_of_mem_take h)
  have decodes : o.keyLevelNodes ≤ path.length → DecodesRoot o ((performAll w
      (TreeKeyCache.sectionsAbove o (some fun _ => none) Step.value none path)).read
        (anyTreeSection o (some fun _ => none) Step.value none path w.clock).key) := by
    intro deep
    have key : (anyTreeSection o (some fun _ => none) Step.value none path w.clock).key =
        joinKeys (path.take o.keyLevelNodes) := by
      have joined := chainedKeyOf_eq_joinKeys path keysNonempty (o.keyLevelNodes - 1) (by omega)
      rw [show o.keyLevelNodes - 1 + 1 = o.keyLevelNodes by omega] at joined
      change (chainedKeyOf (path.take o.keyLevelNodes)).getD "" = _
      rw [joined, Option.getD_some]
    rw [key]
    have long : (path.take o.keyLevelNodes).length = o.keyLevelNodes := List.length_take_of_le deep
    have sound := above.represents.sound (path.take o.keyLevelNodes) (plain.take _)
      (take_keyLevels_ne_nil o path (by omega) nonempty) (le_of_eq long)
    generalize World.read _ (joinKeys (path.take o.keyLevelNodes)) = content at sound ⊢
    unfold DecodesRoot decodeRoot
    cases buffer : truthy? content with
    | none => exact ⟨Tree.empty, rfl⟩
    | some serialized => exact sound.tree long serialized buffer
  obtain ⟨failed, world⟩ := TreeKeyCache.setNode_throws o none e path consumer nonempty w reached
    decodes
  refine ⟨failed, ?_⟩
  rcases world with same | ⟨parent, child, same⟩
  · rw [same]
    exact above
  · rw [same]
    exact ⟨⟨above.represents.permanent, above.represents.sound, above.represents.held⟩,
      ⟨above.bare.apart, above.bare.below⟩, above.plain⟩

theorem Stands.call (stands : Stands o w m) (call : LayoutCall T) (twoLevels : 2 ≤ o.keyLevelNodes)
    (plain : call.Plain) (creates : call.Creates) :
    ((call.prog o.toOptions).run call.consumer w).result.isOk = call.succeeds ∧
      Stands o ((call.prog o.toOptions).run call.consumer w).world (call.apply m) := by
  cases call with
  | deepTreeSet path createValue consumer =>
      obtain ⟨create, rfl⟩ := creates
      obtain ⟨w', ran, after⟩ := stands.deepTreeSet create consumer path 0 twoLevels plain.1
      simp only [LayoutCall.prog, LayoutCall.consumer, ran, LayoutCall.apply, created_pureCreate]
      exact ⟨rfl, after⟩
  | setNode path value =>
      have assigned : ∀ (value : NodeValue T) (edit : Step T → Option T),
          assignAt path.length value = (fun item => .ok (edit item)) →
          ((setNode o.toOptions path (some value) none).run Step.value w).result.isOk = true ∧
            Stands o ((setNode o.toOptions path (some value) none).run Step.value w).world
              (m.visit (some fun _ => none) edit path) := by
        intro value edit assigns
        obtain ⟨w', ran, after⟩ := stands.deepTreeSet (some fun _ => none) edit path path.length
          twoLevels plain.1
        rw [setNode_assigns o path value none edit assigns, forAwait_run, ran]
        exact ⟨rfl, after⟩
      rcases value with _ | ⟨v⟩ | ⟨⟨e⟩ | ⟨_ | v⟩⟩
      · exact ⟨rfl, stands⟩
      · have after := assigned (.value v) _ (assignAt_value path.length v)
        rw [m.visit_setEdit path v plain.2] at after
        exact after
      · obtain ⟨failed, after⟩ := stands.setNode_throws e path Step.value twoLevels plain.1 plain.2
        refine ⟨?_, after⟩
        change Except.isOk ((setNode o.toOptions path (some (.callback (.error e))) none).run Step.value
          w).result = false
        rw [failed]
        rfl
      · have after := assigned (.callback (.ok none)) _ (assignAt_callback path.length none)
        rw [visit_resolvedEdit_none] at after
        exact after
      · have after := assigned (.callback (.ok (some v))) (setEdit path.length v)
          (assignAt_callback path.length (some v))
        rw [m.visit_setEdit path v plain.2] at after
        exact after

theorem Stands.runLayout (twoLevels : 2 ≤ o.keyLevelNodes) : ∀ (calls : List (ℚ × LayoutCall T)),
    (∀ call ∈ calls, call.2.Plain) → (∀ call ∈ calls, call.2.Creates) →
      ∀ (w : World R) (m : PathMap T), Stands o w m →
        (TreeKeyCache.runLayout o.toOptions calls w).1 = calls.map (fun call => call.2.succeeds) ∧
          Stands o (TreeKeyCache.runLayout o.toOptions calls w).2
            (calls.foldl (fun m call => call.2.apply m) m) := by
  intro calls
  induction calls with
  | nil => exact fun _ _ w m stands => ⟨rfl, stands⟩
  | cons head rest ih =>
      intro plain creates w m stands
      obtain ⟨result, after⟩ := (stands.wait head.1).call head.2 twoLevels
        (plain head List.mem_cons_self) (creates head List.mem_cons_self)
      obtain ⟨flags, last⟩ := ih (fun c h => plain c (List.mem_cons_of_mem _ h))
        (fun c h => creates c (List.mem_cons_of_mem _ h)) _ _ after
      simp only [TreeKeyCache.runLayout, result, flags, List.map_cons, List.foldl_cons]
      exact ⟨trivial, last⟩

theorem Stands.readsAs (stands : Stands o w m) (positive : 1 ≤ o.keyLevelNodes) (now : ℚ)
    (q : List String) (colonFree : ∀ key ∈ q, ColonFree key) (nonempty : q ≠ []) :
    ReadsAs o (w.readAt now) now q (m.find q) := by
  by_cases plain : PlainPath q
  · exact stands.represents.readsAs positive now q plain nonempty
  · rw [stands.plain q fun both => plain both.1]
    have taken := take_keyLevels_ne_nil o q positive nonempty
    by_cases above : PlainPath (q.take o.keyLevelNodes)
    · have sound := stands.represents.sound _ above taken (by rw [List.length_take]; omega)
      rw [← stands.bare.below q above plain]
      exact stands.represents.readsAs_of_sound now q sound
    · have absent : w.read (nodeKey o q) = none := by
        rw [World.read, World.readAt, nodeKey, stands.bare.apart _
          (fun key h => colonFree key (List.mem_of_mem_take h)) taken above]
      have reads := stands.represents.readsAs_of_sound now q (absent ▸ sound_none o _)
      rw [absent] at reads
      have nothing : (nodeLabel o (none : Option R) q).held o = none := by
        unfold nodeLabel
        split
        · rfl
        · rw [show rootTree o (none : Option R) = Tree.empty from rfl, Tree.labelAt_empty]
          rfl
      rw [nothing] at reads
      exact reads

theorem Stands.reads (stands : Stands o w m) (twoLevels : 2 ≤ o.keyLevelNodes) (now : ℚ)
    (q : List String) (colonFree : ∀ key ∈ q, ColonFree key) :
    getNode o.toOptions (w.readAt now) now q = .ok ((m.find q).map (foundStep q)) ∧
      iteratePath o.toOptions (w.readAt now) now q =
        .ok ((nonemptyPrefixes q).filterMap fun p => (m.find p).map (foundStep p)) := by
  constructor
  · by_cases nonempty : q = []
    · rw [nonempty, getNode_nil, stands.plain [] fun both => both.2 rfl]
      rfl
    · exact (stands.readsAs (by omega) now q colonFree nonempty).getNode_eq (by omega) nonempty
  · exact iteratePath_of_readsAs twoLevels q fun p onPath nonempty =>
      stands.readsAs (by omega) now p (fun key h => colonFree key (onPath.subset h)) nonempty

end

/-! ## Two layouts -/

theorem LayoutCall.Idle.apply {call : LayoutCall T} (idle : call.Idle) (m : PathMap T) :
    call.apply m = m := by
  rcases call with ⟨path, _ | ⟨v⟩ | ⟨⟨e⟩ | ⟨_ | v⟩⟩⟩ | ⟨path, createValue, consumer⟩
  · rfl
  · cases idle
  · rfl
  · cases idle
  · cases idle
  · cases idle

section
variable (o : LawfulOptions T R) (calls : List (ℚ × LayoutCall T)) (start : ℚ)
  (plain : ∀ call ∈ calls, call.2.Plain) (creates : ∀ call ∈ calls, call.2.Creates)
include plain creates

end

end TreeKeyCache
