import TreeKeyCache.Calls
import TreeKeyCache.ConcurrentEnumerations

/-! # Copying a cache

The steps of an enumeration carry a cache: set one by one, in any order, into an empty storage,
they make a cache in which every path reads as in the first one, whatever the `keyLevelNodes`,
the serializers and the storage type of the two caches are. -/
set_option autoImplicit false
namespace TreeKeyCache

variable {T R R' : Type}

/-- The calls that set the values of the steps, each at its own time. -/
def copyCalls (time : Step T → ℚ) (steps : List (Step T)) : List (ℚ × Call T) :=
  steps.filterMap fun step => step.value.map fun v => (time step, .setNode step.nodeRef.keys v)

theorem copyCalls_cons_some (time : Step T → ℚ) {step : Step T} {v : T} (value : step.value = some v)
    (steps : List (Step T)) :
    copyCalls time (step :: steps) = (time step, .setNode step.nodeRef.keys v) :: copyCalls time steps := by
  rw [copyCalls, List.filterMap_cons, value]
  rfl

theorem copyCalls_cons_none (time : Step T → ℚ) {step : Step T} (value : step.value = none)
    (steps : List (Step T)) : copyCalls time (step :: steps) = copyCalls time steps := by
  rw [copyCalls, List.filterMap_cons, value]
  rfl

def SetsOnce (steps : List (Step T)) : Prop :=
  ((steps.filter fun step => step.value.isSome).map fun step => step.nodeRef.keys).Nodup

theorem SetsOnce.cons_some {step : Step T} {steps : List (Step T)} {v : T} (value : step.value = some v)
    (once : SetsOnce (step :: steps)) : (∀ other ∈ steps, other.value ≠ none →
      other.nodeRef.keys ≠ step.nodeRef.keys) ∧ SetsOnce steps := by
  rw [SetsOnce, List.filter_cons_of_pos (by rw [value]; rfl), List.map_cons, List.nodup_cons] at once
  refine ⟨fun other listed valued same => once.1 ?_, once.2⟩
  exact List.mem_map.mpr ⟨other, List.mem_filter.mpr ⟨listed, Option.isSome_iff_ne_none.mpr valued⟩, same⟩

theorem SetsOnce.cons_none {step : Step T} {steps : List (Step T)} (value : step.value = none)
    (once : SetsOnce (step :: steps)) : SetsOnce steps := by
  rwa [SetsOnce, List.filter_cons_of_neg (by rw [value]; exact Bool.false_ne_true)] at once

theorem applyAll_copyCalls_other (time : Step T → ℚ) (q : List String) : ∀ (steps : List (Step T))
    (m : PathMap T), (∀ step ∈ steps, step.value ≠ none → step.nodeRef.keys ≠ q) →
      (applyAll m (copyCalls time steps)).find q = m.find q := by
  intro steps
  induction steps with
  | nil => exact fun _ _ => rfl
  | cons step rest ih =>
      intro m others
      have later : ∀ other ∈ rest, other.value ≠ none → other.nodeRef.keys ≠ q :=
        fun other listed => others other (List.mem_cons_of_mem _ listed)
      cases value : step.value with
      | none => rw [copyCalls_cons_none time value, ih m later]
      | some v =>
          have apart : q ≠ step.nodeRef.keys := by
            refine Ne.symm (others step List.mem_cons_self ?_)
            rw [value]
            exact Option.some_ne_none v
          rw [copyCalls_cons_some time value]
          show (applyAll (m.assign step.nodeRef.keys v) (copyCalls time rest)).find q = _
          rw [ih _ later]
          exact if_neg apart

theorem applyAll_copyCalls (time : Step T → ℚ) : ∀ (steps : List (Step T)) (m : PathMap T),
    SetsOnce steps → ∀ step ∈ steps, ∀ v, step.value = some v →
      (applyAll m (copyCalls time steps)).find step.nodeRef.keys = some v := by
  intro steps
  induction steps with
  | nil => exact fun _ _ _ listed => (List.not_mem_nil listed).elim
  | cons first rest ih =>
      intro m once step listed v valued
      cases value : first.value with
      | none =>
          rw [copyCalls_cons_none time value]
          rcases List.mem_cons.mp listed with rfl | later
          · rw [value] at valued
            cases valued
          · exact ih m (once.cons_none value) step later v valued
      | some u =>
          rw [copyCalls_cons_some time value]
          show (applyAll (m.assign first.nodeRef.keys u) (copyCalls time rest)).find _ = _
          obtain ⟨others, onceRest⟩ := once.cons_some value
          rcases List.mem_cons.mp listed with rfl | later
          · obtain rfl := Option.some.inj (value.symm.trans valued)
            rw [applyAll_copyCalls_other time _ rest _ others]
            exact if_pos rfl
          · exact ih _ onceRest step later v valued

theorem copyCalls_plain (time : Step T → ℚ) {steps : List (Step T)}
    (plain : ∀ step ∈ steps, step.value ≠ none → PlainPath step.nodeRef.keys) :
    ∀ call ∈ copyCalls time steps, call.2.Plain := by
  intro call listed
  obtain ⟨step, there, made⟩ := List.mem_filterMap.mp listed
  obtain ⟨v, value, rfl⟩ := Option.map_eq_some_iff.mp made
  refine ⟨plain step there ?_, step.nodeRef.keys_ne_nil⟩
  rw [value]
  exact Option.some_ne_none v

section
variable [SerializedForm R] [SerializedForm R'] (o : LawfulOptions T R) (o' : LawfulOptions T R')

/-- The steps, set into an empty storage: no call throws, and from then on every path reads as it
read at `now`. -/
def Copies (get : String → Option R) (now : ℚ) (time : Step T → ℚ) (start : ℚ) (steps : List (Step T)) :
    Prop :=
  let copied := runCalls o'.toOptions (copyCalls time steps) (World.emptyAt start)
  (∀ reply ∈ copied.1, reply.result = .ok ()) ∧
    ∀ q, PlainPath q → ∀ later,
      getNode o'.toOptions (copied.2.readAt later) later q = getNode o.toOptions get now q ∧
      iteratePath o'.toOptions (copied.2.readAt later) later q = iteratePath o.toOptions get now q

omit [SerializedForm R] in
theorem repliesAll_ok : ∀ (calls : List (ℚ × Call T)) (m : PathMap T),
    ∀ reply ∈ repliesAll m calls, reply.result = .ok () := by
  intro calls
  induction calls with
  | nil => exact fun _ _ listed => (List.not_mem_nil listed).elim
  | cons head rest ih =>
      intro m reply listed
      rcases List.mem_cons.mp listed with rfl | later
      · rfl
      · exact ih _ reply later

variable {o} in
theorem ListsStored.getNode_eq {get : String → Option R} (positive : 1 ≤ o.keyLevelNodes) {now : ℚ}
    {steps : List (Step T)} (lists : ListsStored o.toOptions get now steps)
    (valued : ∀ q step, PlainPath q → getNode o.toOptions get now q = .ok (some step) → step.value ≠ none)
    (time : Step T → ℚ) {q : List String} (plain : PlainPath q) (nonempty : q ≠ []) :
    getNode o.toOptions get now q =
      .ok (((applyAll PathMap.empty (copyCalls time steps)).find q).map (foundStep q)) := by
  have answers := TreeKeyCache.getNode_eq o.toOptions get now q positive nonempty
  cases found : (truthy? (serializedAt o.toOptions get now q)).map (stepFor o.toOptions q) with
  | none =>
      have absent : (applyAll PathMap.empty (copyCalls time steps)).find q = none := by
        refine applyAll_copyCalls_other time q steps _ fun step listed value same => ?_
        have shown := lists.sound step listed value
        rw [same, answers, found] at shown
        cases shown
      rw [answers, found, absent]
      rfl
  | some step =>
      rw [found] at answers
      obtain ⟨r, _, made⟩ := Option.map_eq_some_iff.mp found
      have value := valued q step plain answers
      have listed := lists.complete q (plain.take o.keyLevelNodes).proper step value answers
      obtain ⟨v, held⟩ := Option.ne_none_iff_exists'.mp value
      have keys : step.nodeRef.keys = q := by
        rw [← made]
        exact nodeRefOf_keys q nonempty
      have set := applyAll_copyCalls time steps PathMap.empty lists.once step listed v held
      rw [keys] at set
      have same : foundStep q v = step := by
        rw [← made] at held ⊢
        exact congrArg (mountStep (nodeRefOf q)) held.symm
      rw [answers, set, Option.map_some, same]

theorem ListsStored.copies {get : String → Option R} (store : PlainStore o.toOptions get)
    (twoLevels : 2 ≤ o.keyLevelNodes) (twoLevels' : 2 ≤ o'.keyLevelNodes) {now : ℚ} {steps : List (Step T)}
    (lists : ListsStored o.toOptions get now steps)
    (plain : ∀ step ∈ steps, step.value ≠ none → PlainPath step.nodeRef.keys)
    (valued : ∀ q step, PlainPath q → getNode o.toOptions get now q = .ok (some step) → step.value ≠ none)
    (time : Step T → ℚ) (start : ℚ) : Copies o o' get now time start steps := by
  have calls := copyCalls_plain time plain
  obtain ⟨replies, represents⟩ := runCalls_represents o' twoLevels' (copyCalls time steps) calls
    (World.emptyAt start) PathMap.empty (represents_empty o' start)
  have root := applyAll_find_nil (copyCalls time steps) calls PathMap.empty rfl
  refine ⟨fun reply listed => ?_, fun q plainPath later => ?_⟩
  · rw [replies] at listed
    exact repliesAll_ok _ _ reply listed
  · obtain ⟨node, path⟩ := represents.reads o' twoLevels' root q plainPath later
    have agree : ∀ p, PlainPath p → p ≠ [] → getNode o.toOptions get now p = _ :=
      fun p plainPrefix nonempty => lists.getNode_eq (by omega) valued time plainPrefix nonempty
    rw [node, path]
    constructor
    · by_cases nonempty : q = []
      · rw [nonempty, root, getNode_nil]
        rfl
      · rw [agree q plainPath nonempty]
    · rw [iteratePath_eq o.toOptions get now q twoLevels]
      refine congrArg Except.ok (List.filterMap_congr fun p member => ?_)
      obtain ⟨n, started, bound, rfl⟩ := (mem_nonemptyPrefixes q p).mp member
      have nonempty : q.take n ≠ [] := by
        refine List.ne_nil_of_length_pos ?_
        rw [List.length_take_of_le bound]
        exact started
      have answers := agree (q.take n) (plainPath.take n) nonempty
      rw [TreeKeyCache.getNode_eq o.toOptions get now _ (by omega) nonempty] at answers
      rw [← answerAt_of_truthy o.toOptions get now fun r held =>
        store.truthy_serializedAt (by omega) held]
      exact (Except.ok.inj answers).symm

/-- The paths of the steps with a value are plain. -/
def PlainSteps (steps : List (Step T)) : Prop :=
  ∀ step ∈ steps, step.value ≠ none → PlainPath step.nodeRef.keys

/-- What `randomIterate`, or a traversal over the registry that the writers have kept, yields is
enough to make the cache anew. -/
theorem enumeration_carries_cache (twoLevels : 2 ≤ o.keyLevelNodes) (twoLevels' : 2 ≤ o'.keyLevelNodes)
    (truthyTrees : ∀ tree, SerializedForm.truthy (o.encodeTree tree) = true) (w : World R)
    (typed : TypedStore o w) (now : ℚ) (time : Step T → ℚ) (start : ℚ) :
    (∀ visits : List KeyVisit, EnumeratesKeys w.read (visits.map KeyVisit.key) →
      (∀ visit ∈ visits, SameValues o.toOptions w.read visit.now now) →
        PlainSteps (randomIterate o.toOptions w.read visits).items →
          Copies o o' w.read now time start (randomIterate o.toOptions w.read visits).items) ∧
    ∀ getChildren : Option String → List String, RegistryComplete w →
      EnumeratesChildren getChildren w.registry →
      ∀ (search : Search) (lookupTime t : ℚ), SameValues o.toOptions w.read t now →
        ∃ enough, ∀ rounds, enough ≤ rounds →
          PlainSteps (getTraversalStepsIterable o.toOptions ⟨w.read, some getChildren⟩ rounds lookupTime t
            search none).items →
          Copies o o' w.read now time start (getTraversalStepsIterable o.toOptions
            ⟨w.read, some getChildren⟩ rounds lookupTime t search none).items := by
  have positive : 1 ≤ o.keyLevelNodes := by omega
  have store := typed.plainStore truthyTrees
  have valued : ∀ q step, PlainPath q → getNode o.toOptions w.read now q = .ok (some step) →
      step.value ≠ none := by
    intro q step plain found
    obtain ⟨nonempty, r, held, rfl⟩ := getNode_path positive found
    obtain ⟨v, rfl⟩ := typed.encoded nonempty positive (plain.take o.keyLevelNodes).proper held
    have value : (stepFor o.toOptions q (o.encode v)).value = some v := by
      show deserializeValue o.toOptions (o.encode v) = some v
      rw [deserializeValue, o.deserialize_value]
    rw [value]
    exact Option.some_ne_none v
  constructor
  · intro visits enumerated steady plain
    have stored : ∀ visit ∈ visits, w.read visit.key ≠ none := fun visit listed =>
      (enumerated.2 visit.key).mp (List.mem_map_of_mem listed)
    rw [randomIterate_eq store positive stored] at plain ⊢
    exact ((visits_listsPaths store enumerated steady).stored store positive).copies o o' store twoLevels
      twoLevels' plain valued time start
  · intro getChildren complete kept search lookupTime t steady
    refine ⟨(storageTree o.toOptions w.read getChildren []).size, fun rounds enough plain => ?_⟩
    exact (traversal_listsStored store positive (complete.listsKeys kept) (fun parent => (kept parent).1)
      steady search rounds lookupTime enough).2.copies o o' store twoLevels twoLevels' plain valued time start

end

theorem typedStore_busyWorld : TypedStore (Text.options 2) busyWorld := by
  have proper : ∀ key ∈ ["a"], ProperKey key := by decide
  have written : TypedContent (Text.options 2) (joinKeys ["a"]) (Text.encodeNat 1) :=
    typedContent_value proper (by decide) (by decide) 1
  rw [show joinKeys ["a"] = "a" by decide +kernel] at written
  exact ((storageContract_upholds (Text.options 2)).acts typedWorld () (.stored "a" (Text.encodeNat 1) none)
    typedStore_typedWorld trivial written).1

/-- The cache of the busy run moves to a cache with one more key level. -/
theorem enumeration_carries_cache_busyWorld :
    Copies (Text.options 2) (Text.options 3) busyWorld.read 3 (fun _ => 20) 10
        (randomIterate (Text.options 2).toOptions busyWorld.read [⟨"a", 3, 3⟩, ⟨"a:b", 3, 3⟩]).items ∧
      (randomIterate (Text.options 2).toOptions busyWorld.read [⟨"a", 3, 3⟩, ⟨"a:b", 3, 3⟩]).items.map
        Step.value = [some 1, some 1] := by
  have shown : (randomIterate (Text.options 2).toOptions busyWorld.read
      [⟨"a", 3, 3⟩, ⟨"a:b", 3, 3⟩]).items.map (fun step => (step.nodeRef.keys, step.value)) =
        [(["a"], some 1), (["a", "b"], some 1)] := by decide +kernel
  refine ⟨(enumeration_carries_cache (Text.options 2) (Text.options 3) (by decide) (by decide)
    (fun tree => decide_eq_true (Text.encodeTree_ne_empty tree)) busyWorld typedStore_busyWorld 3
    (fun _ => 20) 10).1 _ enumeratesKeys_busyWorld ?_ ?_, ?_⟩
  · intro visit listed
    rcases List.mem_pair.mp listed with rfl | rfl <;> exact fun _ => rfl
  · intro step listed _
    have member : (step.nodeRef.keys, step.value) ∈ [(["a"], some 1), (["a", "b"], some 1)] := by
      rw [← shown]
      exact List.mem_map_of_mem listed
    rcases List.mem_pair.mp member with same | same
    · rw [(Prod.mk.inj same).1]
      decide
    · rw [(Prod.mk.inj same).1]
      decide
  · have values := congrArg (List.map Prod.snd) shown
    rwa [List.map_map] at values

end TreeKeyCache
