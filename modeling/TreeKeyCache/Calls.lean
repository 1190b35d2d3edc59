import TreeKeyCache.Refinement
import TreeKeyCache.TextSerializers

/-! # Sequences of calls

`setNode` and `deepTreeSet` calls without ttl, executed one after another at any
times, refine the same operations on a map from paths to values, and the two point
reads return what the map holds. -/
set_option autoImplicit false
namespace TreeKeyCache

variable {T R : Type}

inductive Call (T : Type) where
  | setNode (path : List String) (value : T)
  | deepTreeSet (path : List String) (createValue : Option (ChainedObject → Option T))
      (consumer : Step T → Option T)

/-- What a fully consumed call gave back: how it ended and the steps it yielded. -/
structure Reply (T : Type) where
  result : Except Err Unit
  steps : List (Step T)

namespace Call

def path : Call T → List String
  | setNode path _ => path
  | deepTreeSet path _ _ => path

def consumer : Call T → Step T → Option T
  | setNode _ _ => Step.value
  | deepTreeSet _ _ consumer => consumer

def prog [SerializedForm R] (o : Options T R) : Call T → Prog (Step T) T R Unit
  | setNode path v => TreeKeyCache.setNode o path (some (.value v)) none
  | deepTreeSet path create _ => TreeKeyCache.deepTreeSet o path (pureCreate create) none [] 0

/-- The call on the map. -/
def apply (m : PathMap T) : Call T → PathMap T
  | setNode path v => m.assign path v
  | deepTreeSet path create consumer => m.visit create consumer path

def steps (m : PathMap T) : Call T → List (Step T)
  | setNode _ _ => []
  | deepTreeSet path create _ => m.steps create path

/-- A path of at least one key, all of them data at every level. -/
def Plain (call : Call T) : Prop := PlainPath call.path ∧ call.path ≠ []

end Call

/-- Each call runs at its own time. -/
def runCalls [SerializedForm R] (o : Options T R) :
    List (ℚ × Call T) → World R → List (Reply T) × World R
  | [], w => ([], w)
  | (t, call) :: rest, w =>
      let outcome := (call.prog o).run call.consumer { w with clock := t }
      let later := runCalls o rest outcome.world
      (⟨outcome.result, outcome.yielded⟩ :: later.1, later.2)

def applyAll (m : PathMap T) (calls : List (ℚ × Call T)) : PathMap T :=
  calls.foldl (fun m call => call.2.apply m) m

def repliesAll (m : PathMap T) : List (ℚ × Call T) → List (Reply T)
  | [] => []
  | (_, call) :: rest => ⟨.ok (), call.steps m⟩ :: repliesAll (call.apply m) rest

section
variable [SerializedForm R] (o : LawfulOptions T R)

omit [SerializedForm R] in
theorem forAwait_run {Y A : Type} (edit consumer : Y → Option T) (p : Prog Y T R A) :
    ∀ w : World R, (forAwait (fun item => .ok (edit item)) p).run consumer w =
      ⟨(p.run edit w).result, (p.run edit w).world, []⟩ := by
  induction p with
  | ret result => exact fun w => rfl
  | dateNow k ih => exact fun w => ih w.clock w
  | get key k ih => exact fun w => ih _ w
  | set key value ttl k ih => exact fun w => ih _ _
  | getCurrentTtl key k ih => exact fun w => ih _ w
  | registerChild parent child k ih => exact fun w => ih _ _
  | acquire key k ih => exact fun w => ih _ w
  | release key k ih => exact fun w => ih w
  | yield item k ih => exact fun w => ih _ w

omit [SerializedForm R] in
theorem presented_silent {Y : Type} : ∀ (ss : List (Section Y R)) (w : World R),
    presented w (ss.map Section.silent) = [] := by
  intro ss
  induction ss with
  | nil => intro w; rfl
  | cons s ss ih => intro w; exact ih _

theorem editOn_eq_visit (create : Option (ChainedObject → Option T)) (edit : Step T → Option T)
    (path : List String) (positive : 1 ≤ o.keyLevelNodes) (m : PathMap T) :
    editOn o create edit path (deepPrefixes o path) m.find = (m.visit create edit path).find :=
  funext (editOn_deepPrefixes o create edit path positive m.find)

/-- A `deepTreeSet` call does to the storage what a walk does to the map. -/
theorem deepTreeSet_represents (create : Option (ChainedObject → Option T)) (edit : Step T → Option T)
    (path : List String) (minLevelSemaphore : Nat) (twoLevels : 2 ≤ o.keyLevelNodes)
    (plain : PlainPath path) (w : World R) (m : PathMap T) (represents : Represents o w m.find) :
    ∃ w', (deepTreeSet o.toOptions path (pureCreate create) none [] minLevelSemaphore).run edit w =
        ⟨.ok (), w', m.steps create path⟩ ∧
      Represents o w' (m.visit create edit path).find ∧ (Bare o w → Bare o w') := by
  have positive : 1 ≤ o.keyLevelNodes := by omega
  have distinct : (deepPrefixes o path).Nodup := prefixesFrom_nodup _ 0 _ (by omega)
  have listed : ∀ p ∈ deepPrefixes o path, p <+: path ∧ p ≠ [] ∧ p.length ≤ o.keyLevelNodes :=
    fun p member => (mem_deepPrefixes o path p).mp member
  have visits := deepSections_visits o create edit path minLevelSemaphore w.clock positive
  obtain ⟨reads, after⟩ :=
    Represents.performAll path positive plain _ _ visits distinct listed w m.find represents
  have both := forall₂_deepSections o create edit
    (fun p s => Visits o create edit path p s ∧ Offers o create path p s) none path
    minLevelSemaphore w.clock positive
    (fun n below bound => ⟨keySection_visits o create edit path minLevelSemaphore n below bound,
      keySection_offers o create edit none path minLevelSemaphore n below bound⟩)
    fun deep => ⟨treeSection_visits o create edit path minLevelSemaphore w.clock positive deep,
      treeSection_offers o create edit none path minLevelSemaphore w.clock positive deep⟩
  have steps : presented w (deepSections o create edit none path minLevelSemaphore w.clock) =
      m.steps create path := by
    rw [Represents.presented path positive plain _ _ both distinct (fun p h => h) w m.find
      represents, PathMap.steps, ← flatMap_onKey o path positive, List.map_flatMap]
  have ran := (deepTreeSet_starts o create edit none path minLevelSemaphore twoLevels plain).run_eq
    _ _ _ _ w reads
  rw [steps] at ran
  rw [editOn_eq_visit o _ _ path positive m] at after
  exact ⟨_, ran, after, Bare.performAll path positive plain _ _ visits listed w m.find represents⟩

theorem call_represents (call : Call T) (twoLevels : 2 ≤ o.keyLevelNodes) (plain : call.Plain)
    (w : World R) (m : PathMap T) (represents : Represents o w m.find) :
    ∃ w', (call.prog o.toOptions).run call.consumer w = ⟨.ok (), w', call.steps m⟩ ∧
      Represents o w' (call.apply m).find := by
  cases call with
  | setNode path v =>
      obtain ⟨w', ran, after, _⟩ := deepTreeSet_represents o (some fun _ => none)
        (setEdit path.length v) path path.length twoLevels plain.1 w m represents
      rw [m.visit_setEdit path v plain.2] at after
      refine ⟨w', ?_, after⟩
      change (TreeKeyCache.setNode o.toOptions path (some (.value v)) none).run Step.value w = _
      rw [setNode_assigns o path (.value v) none _ (assignAt_value path.length v), forAwait_run, ran]
      rfl
  | deepTreeSet path create consumer =>
      obtain ⟨w', ran, after, _⟩ := deepTreeSet_represents o create consumer path 0 twoLevels plain.1
        w m represents
      exact ⟨w', ran, after⟩

/-- What is stored without a deadline stands for the same map at any time. -/
theorem Represents.wait {o : LawfulOptions T R} {w : World R} {f : List String → Option T}
    (represents : Represents o w f) (t : ℚ) : Represents o { w with clock := t } f := by
  refine ⟨represents.permanent, fun p pPlain nonempty short => ?_, fun q qPlain nonempty => ?_⟩
  · have sound := represents.sound p pPlain nonempty short
    rw [World.read, readAt_of_permanent w represents.permanent _ t] at sound
    exact sound
  · have held := represents.held q qPlain nonempty
    rw [World.read, readAt_of_permanent w represents.permanent _ t] at held
    exact held

theorem runCalls_represents (twoLevels : 2 ≤ o.keyLevelNodes) : ∀ (calls : List (ℚ × Call T)),
    (∀ call ∈ calls, call.2.Plain) → ∀ (w : World R) (m : PathMap T), Represents o w m.find →
      (runCalls o.toOptions calls w).1 = repliesAll m calls ∧
        Represents o (runCalls o.toOptions calls w).2 (applyAll m calls).find := by
  intro calls
  induction calls with
  | nil => intro _ w m represents; exact ⟨rfl, represents⟩
  | cons head rest ih =>
      obtain ⟨t, call⟩ := head
      intro plain w m represents
      obtain ⟨w', ran, stepped⟩ := call_represents o call twoLevels
        (plain (t, call) List.mem_cons_self) _ m (represents.wait t)
      obtain ⟨replies, last⟩ := ih (fun c h => plain c (List.mem_cons_of_mem _ h)) w' _ stepped
      simp only [runCalls, ran, repliesAll]
      exact ⟨by rw [replies], last⟩

/-! ## Reading back -/

/-- The step read for a path that holds `v`. -/
def foundStep (path : List String) (v : T) : Step T := mountStep (nodeRefOf path) (some v)

theorem GoodLabel.map_stepFor {o : LawfulOptions T R} {label : Label R} (good : GoodLabel o label)
    (path : List String) :
    label.value.map (stepFor o.toOptions path) = (label.held o).map (foundStep path) := by
  unfold Label.held
  cases hvalue : label.value with
  | none => rfl
  | some r =>
      obtain ⟨_, v, decoded⟩ := good.decodes r hvalue
      have value : deserializeValue o.toOptions r = some v := by rw [deserializeValue, decoded]
      simp [stepFor, foundStep, value]

theorem GoodLabel.truthy_value {o : LawfulOptions T R} {label : Label R}
    (good : GoodLabel o label) : truthy? label.value = label.value := by
  cases hvalue : label.value with
  | none => rfl
  | some r => simp [truthy?, Option.filter, (good.decodes r hvalue).1]

variable {o}

/-- The node at `q` is stored in good form and holds `old`. -/
def ReadsAs (o : LawfulOptions T R) (get : String → Option R) (now : ℚ) (q : List String)
    (old : Option T) : Prop :=
  ∃ label, GoodLabel o label ∧ label.held o = old ∧ serializedAt o.toOptions get now q = label.value

theorem Represents.readsAs_of_sound {w : World R} {f : List String → Option T}
    (represents : Represents o w f) (now : ℚ) (q : List String)
    (sound : Sound o (q.take o.keyLevelNodes) (w.read (nodeKey o q))) :
    ReadsAs o (w.readAt now) now q ((nodeLabel o (w.read (nodeKey o q)) q).held o) := by
  have good := sound.labels q rfl
  refine ⟨_, good, rfl, ?_⟩
  rw [World.read, readAt_of_permanent w represents.permanent _ now] at good ⊢
  by_cases deep : o.keyLevelNodes ≤ q.length
  · rw [serializedAt_eq_live o _ now q deep]
    exact good.live_eq now
  · have whole : q.take o.keyLevelNodes = q := List.take_of_length_le (by omega)
    have truthy := good.truthy_value
    rw [nodeLabel, if_pos (by omega)] at truthy ⊢
    rw [serializedAt, if_pos (by omega)]
    rw [nodeKey, whole] at truthy ⊢
    exact truthy

theorem Represents.readsAs {w : World R} {f : List String → Option T}
    (represents : Represents o w f) (positive : 1 ≤ o.keyLevelNodes) (now : ℚ) (q : List String)
    (plain : PlainPath q) (nonempty : q ≠ []) : ReadsAs o (w.readAt now) now q (f q) := by
  have short : (q.take o.keyLevelNodes).length ≤ o.keyLevelNodes := by
    rw [List.length_take]
    omega
  have sound := represents.sound (q.take o.keyLevelNodes) (plain.take _)
    (take_keyLevels_ne_nil o q positive nonempty) short
  rw [← represents.held q plain nonempty]
  exact represents.readsAs_of_sound now q sound

theorem ReadsAs.getNode_eq {get : String → Option R} {now : ℚ} {q : List String} {old : Option T}
    (reads : ReadsAs o get now q old) (positive : 1 ≤ o.keyLevelNodes) (nonempty : q ≠ []) :
    getNode o.toOptions get now q = .ok (old.map (foundStep q)) := by
  obtain ⟨label, good, held, serialized⟩ := reads
  rw [TreeKeyCache.getNode_eq o.toOptions _ now q positive nonempty, serialized, good.truthy_value,
    good.map_stepFor, held]

theorem iteratePath_of_readsAs {get : String → Option R} {now : ℚ} {f : List String → Option T}
    (twoLevels : 2 ≤ o.keyLevelNodes) (q : List String)
    (reads : ∀ p, p <+: q → p ≠ [] → ReadsAs o get now p (f p)) :
    iteratePath o.toOptions get now q =
      .ok ((nonemptyPrefixes q).filterMap fun p => (f p).map (foundStep p)) := by
  rw [TreeKeyCache.iteratePath_eq o.toOptions _ now q twoLevels]
  congr 1
  apply List.filterMap_congr
  intro p member
  obtain ⟨onPath, nonempty, _⟩ := (mem_prefixesFrom_iff q q.length (le_refl _) p).mp member
  obtain ⟨label, good, held, serialized⟩ := reads p onPath nonempty
  rw [stepAt, serialized, good.map_stepFor, held]

theorem Represents.getNode_eq {w : World R} {f : List String → Option T}
    (represents : Represents o w f) (positive : 1 ≤ o.keyLevelNodes) (now : ℚ) (q : List String)
    (plain : PlainPath q) (nonempty : q ≠ []) :
    getNode o.toOptions (w.readAt now) now q = .ok ((f q).map (foundStep q)) :=
  (represents.readsAs positive now q plain nonempty).getNode_eq positive nonempty

/-- `iteratePath` yields, shortest first, the prefixes the map holds. -/
theorem Represents.iteratePath_eq {w : World R} {f : List String → Option T}
    (represents : Represents o w f) (twoLevels : 2 ≤ o.keyLevelNodes) (now : ℚ) (q : List String)
    (plain : PlainPath q) :
    iteratePath o.toOptions (w.readAt now) now q =
      .ok ((nonemptyPrefixes q).filterMap fun p => (f p).map (foundStep p)) :=
  iteratePath_of_readsAs twoLevels q fun p onPath nonempty =>
    represents.readsAs (by omega) now p (plain.above onPath) nonempty

variable (o)

theorem applyAll_find_nil : ∀ (calls : List (ℚ × Call T)), (∀ call ∈ calls, call.2.Plain) →
    ∀ m : PathMap T, m.find [] = none → (applyAll m calls).find [] = none := by
  intro calls
  induction calls with
  | nil => intro _ m absent; exact absent
  | cons head rest ih =>
      obtain ⟨t, call⟩ := head
      intro plain m absent
      refine ih (fun c h => plain c (List.mem_cons_of_mem _ h)) (call.apply m) ?_
      have nonempty := (plain (t, call) List.mem_cons_self).2
      cases call with
      | setNode path v =>
          have other : [] ≠ path := fun h => nonempty h.symm
          simp [Call.apply, PathMap.assign, other, absent]
      | deepTreeSet path create consumer => simp [Call.apply, PathMap.visit, absent]

theorem Represents.reads {w : World R} {f : List String → Option T}
    (represents : Represents o w f) (twoLevels : 2 ≤ o.keyLevelNodes) (root : f [] = none)
    (q : List String) (plain : PlainPath q) (now : ℚ) :
    getNode o.toOptions (w.readAt now) now q = .ok ((f q).map (foundStep q)) ∧
      iteratePath o.toOptions (w.readAt now) now q =
        .ok ((nonemptyPrefixes q).filterMap fun p => (f p).map (foundStep p)) := by
  refine ⟨?_, represents.iteratePath_eq twoLevels now q plain⟩
  by_cases nonempty : q = []
  · subst nonempty
    rw [getNode_nil, root]
    rfl
  · exact represents.getNode_eq (by omega) now q plain nonempty

end

/-- The calls, made one after another on an empty storage, do what they do to a map: none
throws, each presents what the map held, and afterwards the point reads return what the
map holds, at any time. -/
def RefinesPathMap [SerializedForm R] (o : Options T R) (calls : List (ℚ × Call T)) (start : ℚ) :
    Prop :=
  let final := runCalls o calls (World.emptyAt start)
  let m := applyAll PathMap.empty calls
  final.1 = repliesAll PathMap.empty calls ∧
    ∀ q, PlainPath q → ∀ now,
      getNode o (final.2.readAt now) now q = .ok ((m.find q).map (foundStep q)) ∧
      iteratePath o (final.2.readAt now) now q =
        .ok ((nonemptyPrefixes q).filterMap fun p => (m.find p).map (foundStep p))

theorem calls_refine_path_map [SerializedForm R] (o : LawfulOptions T R)
    (twoLevels : 2 ≤ o.keyLevelNodes) (calls : List (ℚ × Call T))
    (plain : ∀ call ∈ calls, call.2.Plain) (start : ℚ) :
    RefinesPathMap o.toOptions calls start := by
  obtain ⟨replies, represents⟩ := runCalls_represents o twoLevels calls plain
    (World.emptyAt start) PathMap.empty (represents_empty o start)
  exact ⟨replies, represents.reads o twoLevels (applyAll_find_nil calls plain PathMap.empty rfl)⟩

theorem calls_refine_path_map_text :
    RefinesPathMap (Text.options 2).toOptions
      [(0, .setNode ["a", "b", "c"] 7),
        (5, .deepTreeSet ["a", "b"] (some fun _ => some 0) fun step => step.value.map (· + 1))] 0 :=
  calls_refine_path_map (Text.options 2) (by decide) _
    (by
      intro call member
      simp only [List.mem_cons, List.not_mem_nil, or_false] at member
      rcases member with rfl | rfl
      · exact ⟨by decide, by decide⟩
      · exact ⟨by decide, by decide⟩) 0

/-! ## A falsy serialized tree

A tree serializer may obey the round-trip law and still map a tree other than `{}` to
the empty string.  The code takes that string for an absent entry. -/

/-- The round-trip law, and truthy serialized values. -/
structure RoundTrips [SerializedForm R] (o : Options T R) : Prop where
  value : ∀ v, ∃ r, o.valueSerializer.serialize v = .ok r ∧
    o.valueSerializer.deserialize r = .ok (some v) ∧ SerializedForm.truthy r = true
  tree : ∀ t, t.wellFormed = true → ∃ r, o.treeSerializer.serialize t = .ok r ∧
    o.treeSerializer.deserialize r = .ok t

namespace Text

def leafTree : Tree String := .mk (some (encodeNat 1)) none none

def isLeaf : Tree String → Bool
  | .mk (some v) none none => v = encodeNat 1
  | _ => false

theorem eq_of_isLeaf (tree : Tree String) (leaf : isLeaf tree = true) : tree = leafTree := by
  unfold isLeaf at leaf
  split at leaf
  · rw [of_decide_eq_true leaf]
    rfl
  · cases leaf

/-- A tree serializer that writes `leafTree` as the empty string. -/
def terseSerializer : TreeSerializer String where
  serialize tree := .ok (if isLeaf tree then "" else spellTree tree)
  deserialize text := if text = "" then .ok leafTree else decodeTree text
  deserialize_wellFormed text tree decoded := by
    split at decoded
    · cases decoded
      rfl
    · exact decodeTree_wellFormed text tree decoded

def terseOptions (keyLevelNodes : Nat) : Options Nat String :=
  ⟨keyLevelNodes, valueSerializer, terseSerializer, fun _ => false⟩

theorem terseOptions_roundTrips (keyLevelNodes : Nat) : RoundTrips (terseOptions keyLevelNodes) := by
  refine ⟨fun n => ⟨encodeNat n, rfl, decodeNat_encodeNat n, (options 0).truthy_value n⟩, ?_⟩
  intro tree wellFormed
  refine ⟨_, rfl, ?_⟩
  by_cases leaf : isLeaf tree = true
  · rw [eq_of_isLeaf tree leaf]
    rfl
  · simp only [terseOptions, terseSerializer, leaf, Bool.false_eq_true, if_false,
      spellTree_ne_empty tree]
    exact decodeTree_spellTree tree wellFormed

end Text

theorem calls_not_refined_of_falsy_tree :
    2 ≤ (Text.terseOptions 2).keyLevelNodes ∧ RoundTrips (Text.terseOptions 2) ∧
      (∀ call ∈ [((0 : ℚ), Call.setNode ["a", "b"] 1)], call.2.Plain) ∧
      ¬ RefinesPathMap (Text.terseOptions 2) [(0, .setNode ["a", "b"] 1)] 0 := by
  refine ⟨by decide, Text.terseOptions_roundTrips 2, ?_, ?_⟩
  · intro call member
    obtain rfl := List.mem_singleton.mp member
    exact ⟨by decide, by decide⟩
  · rintro ⟨_, reads⟩
    have absent : getNode (Text.terseOptions 2)
        ((runCalls (Text.terseOptions 2) [(0, .setNode ["a", "b"] 1)] (World.emptyAt 0)).2.readAt 0)
        0 ["a", "b"] = .ok none := by rfl
    have found := (reads ["a", "b"] (by decide) 0).1
    rw [absent] at found
    cases found

end TreeKeyCache
