import TreeKeyCache.Nodes

/-! # The cache refines a map from paths to values

Without ttls every node of the cache lives forever, and `Represents` relates a
storage to the function from paths to values it stands for.  One section edits the
nodes of its key, the sections of a run edit the prefixes of its path, and a
sequence of calls does to the storage what it does to the map. -/
set_option autoImplicit false
namespace TreeKeyCache

variable {T R : Type} [SerializedForm R]

/-- The storage holds, at every plain path, the value of `f`. -/
structure Represents (o : LawfulOptions T R) (w : World R) (f : List String → Option T) : Prop where
  permanent : ∀ key entry, w.store key = some entry → entry.expiry = none
  sound : ∀ p, PlainPath p → p ≠ [] → p.length ≤ o.keyLevelNodes → Sound o p (w.read (joinKeys p))
  held : ∀ q, PlainPath q → q ≠ [] → (nodeLabel o (w.read (nodeKey o q)) q).held o = f q

theorem represents_empty (o : LawfulOptions T R) (t : ℚ) :
    Represents o (World.emptyAt t) fun _ => none := by
  refine ⟨fun key entry h => by simp [World.emptyAt] at h, fun p _ _ _ => sound_none o p, ?_⟩
  intro q _ _
  change (nodeLabel o none q).held o = none
  unfold nodeLabel
  split
  · rfl
  · rw [show rootTree o (none : Option R) = Tree.empty from rfl, Tree.labelAt_empty]
    rfl

omit [SerializedForm R] in
theorem readAt_of_permanent (w : World R)
    (permanent : ∀ key entry, w.store key = some entry → entry.expiry = none) (t t' : ℚ)
    (key : String) : w.readAt t key = w.readAt t' key := by
  unfold World.readAt
  cases stored : w.store key with
  | none => rfl
  | some entry => simp [Entry.liveAt, permanent key entry stored]

section
variable {Y : Type}

omit [SerializedForm R] in
theorem World.store_perform (w : World R) (s : Section Y R)
    (untimed : ∀ content r rule, s.writes content = some (r, rule) → rule = .exactly none) :
    (w.perform s).store = match s.writes (w.read s.key) with
      | none => w.store
      | some (r, _) => Function.update w.store s.key (some ⟨r, none⟩) := by
  unfold World.perform World.writeRule
  rw [World.registerAll_eq]
  cases written : s.writes (w.read s.key) with
  | none => rfl
  | some pair =>
      obtain ⟨r, rule⟩ := pair
      rw [untimed _ r rule written]
      rfl

omit [SerializedForm R] in
theorem World.read_perform (w : World R) (s : Section Y R)
    (untimed : ∀ content r rule, s.writes content = some (r, rule) → rule = .exactly none)
    (key : String) :
    (w.perform s).read key = if key = s.key then s.after (w.read s.key) else w.read key := by
  unfold World.read World.readAt
  rw [World.perform_clock, World.store_perform w s untimed]
  unfold Section.after
  by_cases same : key = s.key
  · rw [if_pos same, same]
    change _ = match s.writes (w.read s.key) with
      | none => w.read s.key
      | some (r, _) => some r
    cases s.writes (w.read s.key) with
    | none => rfl
    | some pair => simp [Entry.liveAt]
  · rw [if_neg same]
    cases s.writes (w.read s.key) with
    | none => rfl
    | some pair => simp [Function.update_of_ne same]

end

section
variable (o : LawfulOptions T R) (create : Option (ChainedObject → Option T))
  (edit : Step T → Option T)

/-- The edits of a run along `path` at the keys of the prefixes `ps`. -/
def editOn (path : List String) (ps : List (List String)) (f : List String → Option T)
    (q : List String) : Option T :=
  if q.take o.keyLevelNodes ∈ ps ∧ q <+: path then applyEdit create edit q (f q) else f q

theorem PlainPath.above {p path : List String} (plain : PlainPath path) (onPath : p <+: path) :
    PlainPath p := fun key member => plain key (onPath.subset member)

theorem joinKeys_eq_iff (p q : List String) (pPlain : PlainPath p) (qPlain : PlainPath q)
    (pNonempty : p ≠ []) (qNonempty : q ≠ []) : joinKeys p = joinKeys q ↔ p = q := by
  constructor
  · exact joinKeys_injective p q pNonempty qNonempty (fun key h => (pPlain key h).colonFree)
      fun key h => (qPlain key h).colonFree
  · intro h
    rw [h]

theorem take_keyLevels_ne_nil (q : List String) (positive : 1 ≤ o.keyLevelNodes)
    (nonempty : q ≠ []) : q.take o.keyLevelNodes ≠ [] := by
  intro h
  rcases List.take_eq_nil_iff.mp h with h | h
  · omega
  · exact nonempty h

variable {o} {create} {edit}

theorem Represents.perform {Y : Type} {w : World R} {f : List String → Option T}
    (represents : Represents o w f) (path p : List String) (s : Section Y R)
    (visits : Visits o create edit path p s) (positive : 1 ≤ o.keyLevelNodes)
    (plain : PlainPath path) (onPath : p <+: path) (nonempty : p ≠ [])
    (short : p.length ≤ o.keyLevelNodes) :
    Represents o (w.perform s) (editOn o create edit path [p] f) := by
  have pPlain := plain.above onPath
  have read := World.read_perform w s visits.untimed
  have pSound := represents.sound p pPlain nonempty short
  rw [visits.key] at read
  refine ⟨?_, ?_, ?_⟩
  · intro key entry stored
    rw [World.store_perform w s visits.untimed] at stored
    cases written : s.writes (w.read s.key) with
    | none =>
        rw [written] at stored
        exact represents.permanent key entry stored
    | some pair =>
        simp only [written] at stored
        by_cases same : key = s.key
        · rw [same, Function.update_self, Option.some.injEq] at stored
          rw [← stored]
        · rw [Function.update_of_ne same] at stored
          exact represents.permanent key entry stored
  · intro p' plain' nonempty' short'
    simp only [read, joinKeys_eq_iff p' p plain' pPlain nonempty' nonempty]
    by_cases same : p' = p
    · rw [if_pos same, same]
      exact visits.sound _ pSound
    · rw [if_neg same]
      exact represents.sound p' plain' nonempty' short'
  · intro q qPlain qNonempty
    have keyIff := joinKeys_eq_iff (q.take o.keyLevelNodes) p (qPlain.take _) pPlain
      (take_keyLevels_ne_nil o q positive qNonempty) nonempty
    simp only [nodeKey, read, editOn, List.mem_singleton]
    by_cases same : q.take o.keyLevelNodes = p
    · have before := represents.held q qPlain qNonempty
      rw [nodeKey, same] at before
      rw [if_pos (keyIff.mpr same), visits.held _ pSound q same, before]
      simp only [same, true_and]
    · rw [if_neg (fun h => same (keyIff.mp h)), if_neg (fun h => same h.1)]
      exact represents.held q qPlain qNonempty

theorem Sound.treeEntry (p : List String) (content : Option R) (sound : Sound o p content)
    (plain : PlainPath p) (nonempty : p ≠ []) : TreeEntry o (joinKeys p) content := by
  intro _ components
  rw [splitKey_joinKeys p nonempty fun key h => (plain key h).colonFree] at components
  exact sound.tree components

theorem editOn_cons (path p : List String) (ps : List (List String)) (f : List String → Option T)
    (fresh : p ∉ ps) :
    editOn o create edit path ps (editOn o create edit path [p] f) =
      editOn o create edit path (p :: ps) f := by
  funext q
  simp only [editOn, List.mem_cons]
  by_cases same : q.take o.keyLevelNodes = p
  · have notIn : q.take o.keyLevelNodes ∉ ps := same ▸ fresh
    simp [same, fresh]
  · simp [same]

theorem Represents.performAll {Y : Type} (path : List String) (positive : 1 ≤ o.keyLevelNodes)
    (plain : PlainPath path) : ∀ (ps : List (List String)) (ss : List (Section Y R)),
      List.Forall₂ (Visits o create edit path) ps ss → ps.Nodup →
      (∀ p ∈ ps, p <+: path ∧ p ≠ [] ∧ p.length ≤ o.keyLevelNodes) →
      ∀ (w : World R) (f : List String → Option T), Represents o w f →
        Stage.Reads.ReadsAll (TreeEntry o) w ss ∧
          Represents o (TreeKeyCache.performAll w ss) (editOn o create edit path ps f) := by
  intro ps ss visitsAll
  induction visitsAll with
  | nil =>
      intro _ _ w f represents
      refine ⟨trivial, ?_⟩
      have same : editOn o create edit path [] f = f := by funext q; simp [editOn]
      rw [same]
      exact represents
  | @cons p s ps ss visits rest ih =>
      intro distinct prefixes w f represents
      obtain ⟨fresh, distinctRest⟩ := List.nodup_cons.mp distinct
      obtain ⟨onPath, nonempty, short⟩ := prefixes p List.mem_cons_self
      have stepped := represents.perform path p s visits positive plain onPath nonempty short
      have later := ih distinctRest (fun p' h => prefixes p' (List.mem_cons_of_mem _ h)) _ _ stepped
      rw [editOn_cons path p ps f fresh] at later
      refine ⟨⟨?_, later.1⟩, later.2⟩
      rw [visits.key]
      exact (represents.sound p (plain.above onPath) nonempty short).treeEntry p _
        (plain.above onPath) nonempty

/-! ## Paths that no call has -/

/-- Where a key is not plain, nothing is stored. -/
structure Bare (o : LawfulOptions T R) (w : World R) : Prop where
  apart : ∀ p, (∀ key ∈ p, ColonFree key) → p ≠ [] → ¬ PlainPath p → w.store (joinKeys p) = none
  below : ∀ q, PlainPath (q.take o.keyLevelNodes) → ¬ PlainPath q →
    (nodeLabel o (w.read (nodeKey o q)) q).held o = none

theorem Bare.perform {Y : Type} {w : World R} {f : List String → Option T} (bare : Bare o w)
    (represents : Represents o w f) (path p : List String) (s : Section Y R)
    (visits : Visits o create edit path p s) (positive : 1 ≤ o.keyLevelNodes)
    (plain : PlainPath path) (onPath : p <+: path) (nonempty : p ≠ [])
    (short : p.length ≤ o.keyLevelNodes) : Bare o (w.perform s) := by
  have pPlain := plain.above onPath
  constructor
  · intro p' colonFree nonempty' unplain
    have other : joinKeys p' ≠ s.key := by
      rw [visits.key]
      intro same
      have equal := joinKeys_injective p' p nonempty' nonempty colonFree
        (fun key h => (pPlain key h).colonFree) same
      exact unplain (equal ▸ pPlain)
    rw [World.store_perform w s visits.untimed]
    cases s.writes (w.read s.key) with
    | none => exact bare.apart p' colonFree nonempty' unplain
    | some pair =>
        simp only [Function.update_of_ne other]
        exact bare.apart p' colonFree nonempty' unplain
  · intro q above unplain
    have qNonempty : q ≠ [] := by
      rintro rfl
      exact unplain fun key member => absurd member List.not_mem_nil
    have old := bare.below q above unplain
    have keyIff := joinKeys_eq_iff (q.take o.keyLevelNodes) p above pPlain
      (take_keyLevels_ne_nil o q positive qNonempty) nonempty
    have read := World.read_perform w s visits.untimed
    rw [visits.key] at read
    simp only [nodeKey, read]
    by_cases same : q.take o.keyLevelNodes = p
    · rw [nodeKey, same] at old
      rw [if_pos (keyIff.mpr same), visits.held _ (represents.sound p pPlain nonempty short) q same,
        if_neg fun onWay => unplain (plain.above onWay), old]
    · rw [if_neg (fun h => same (keyIff.mp h))]
      exact old

theorem Bare.performAll {Y : Type} (path : List String) (positive : 1 ≤ o.keyLevelNodes)
    (plain : PlainPath path) : ∀ (ps : List (List String)) (ss : List (Section Y R)),
      List.Forall₂ (Visits o create edit path) ps ss →
      (∀ p ∈ ps, p <+: path ∧ p ≠ [] ∧ p.length ≤ o.keyLevelNodes) →
      ∀ (w : World R) (f : List String → Option T), Represents o w f → Bare o w →
        Bare o (TreeKeyCache.performAll w ss) := by
  intro ps ss visitsAll
  induction visitsAll with
  | nil => exact fun _ w f _ bare => bare
  | @cons p s ps ss visits rest ih =>
      intro prefixes w f represents bare
      obtain ⟨onPath, nonempty, short⟩ := prefixes p List.mem_cons_self
      exact ih (fun p' h => prefixes p' (List.mem_cons_of_mem _ h)) _ _
        (represents.perform path p s visits positive plain onPath nonempty short)
        (bare.perform represents path p s visits positive plain onPath nonempty short)

variable (o) (create) (edit)

/-! ## The prefixes a run visits -/

/-- The prefixes of a path that have a storage key. -/
def deepPrefixes (path : List String) : List (List String) :=
  prefixesFrom path 0 (min o.keyLevelNodes path.length)

theorem mem_prefixesFrom_iff (path : List String) (n : Nat) (bound : n ≤ path.length)
    (q : List String) :
    q ∈ prefixesFrom path 0 n ↔ q <+: path ∧ q ≠ [] ∧ q.length ≤ n := by
  constructor
  · intro member
    obtain ⟨positive, short, taken⟩ :=
      length_of_mem_prefixesFrom path 0 n q (by omega) member
    refine ⟨?_, List.length_pos_iff.mp positive, by omega⟩
    rw [taken]
    exact List.take_prefix _ _
  · rintro ⟨onPath, nonempty, short⟩
    have positive := List.length_pos_iff.mpr nonempty
    refine List.mem_map.mpr ⟨q.length, List.mem_range'_1.mpr (by omega), ?_⟩
    exact (List.prefix_iff_eq_take.mp onPath).symm

theorem mem_deepPrefixes (path q : List String) :
    q ∈ deepPrefixes o path ↔ q <+: path ∧ q ≠ [] ∧ q.length ≤ o.keyLevelNodes := by
  rw [deepPrefixes, mem_prefixesFrom_iff path _ (by omega)]
  constructor
  · rintro ⟨onPath, nonempty, short⟩
    exact ⟨onPath, nonempty, by omega⟩
  · rintro ⟨onPath, nonempty, short⟩
    have := onPath.length_le
    exact ⟨onPath, nonempty, by omega⟩

theorem prefixesFrom_nodup (path : List String) (done n : Nat) (bound : done + n ≤ path.length) :
    (prefixesFrom path done n).Nodup := by
  refine List.Nodup.map_on ?_ (List.nodup_range' 1)
  intro a aMember b bMember same
  have aBound := List.mem_range'_1.mp aMember
  have bBound := List.mem_range'_1.mp bMember
  have lengths := congrArg List.length same
  rw [List.length_take_of_le (by omega), List.length_take_of_le (by omega)] at lengths
  exact lengths

/-- The sections of a run go with the prefixes that have a storage key. -/
theorem forall₂_deepSections (P : List String → Section (Step T) R → Prop)
    (ttl : Option (StepTtl T)) (path : List String) (minLevelSemaphore : Nat) (now : ℚ)
    (positive : 1 ≤ o.keyLevelNodes)
    (keyLevel : ∀ n, n + 1 < o.keyLevelNodes → n < path.length →
      P (path.take (n + 1)) (keySection o create edit ttl path minLevelSemaphore n))
    (treeLevel : o.keyLevelNodes ≤ path.length →
      P (path.take o.keyLevelNodes)
        (treeSection o create edit ttl path minLevelSemaphore now)) :
    List.Forall₂ P (deepPrefixes o path)
      (deepSections o create edit ttl path minLevelSemaphore now) := by
  have keys : ∀ n, n < o.keyLevelNodes → n ≤ path.length →
      List.Forall₂ P (prefixesFrom path 0 n)
        ((List.range n).map (keySection o create edit ttl path minLevelSemaphore)) := by
    intro n below bound
    rw [prefixesFrom, List.range'_eq_map_range, List.map_map, List.forall₂_map_left_iff,
      List.forall₂_map_right_iff, List.forall₂_same]
    intro m member
    have := List.mem_range.mp member
    rw [Function.comp_apply, show 0 + 1 + m = m + 1 by omega]
    exact keyLevel m (by omega) (by omega)
  unfold deepPrefixes deepSections
  by_cases short : path.length < o.keyLevelNodes
  · rw [if_neg (by omega), List.append_nil, show min o.keyLevelNodes path.length = path.length by omega,
      show min (o.keyLevelNodes - 1) path.length = path.length by omega]
    exact keys path.length short (le_refl _)
  · obtain ⟨m, level⟩ : ∃ m, o.keyLevelNodes = m + 1 := ⟨o.keyLevelNodes - 1, by omega⟩
    rw [if_pos (by omega), show min o.keyLevelNodes path.length = m + 1 by omega,
      show min (o.keyLevelNodes - 1) path.length = m by omega, prefixesFrom_add]
    refine List.rel_append (keys m (by omega) (by omega)) ?_
    have last := treeLevel (by omega)
    rw [level] at last
    simpa [prefixesFrom] using last

theorem deepSections_visits (path : List String) (minLevelSemaphore : Nat) (now : ℚ)
    (positive : 1 ≤ o.keyLevelNodes) :
    List.Forall₂ (Visits o create edit path) (deepPrefixes o path)
      (deepSections o create edit none path minLevelSemaphore now) :=
  forall₂_deepSections o create edit _ none path minLevelSemaphore now positive
    (fun n below bound => keySection_visits o create edit path minLevelSemaphore n below bound)
    fun deep => treeSection_visits o create edit path minLevelSemaphore now positive deep

theorem setSections_visits (path : List String) (v : T) (now : ℚ) (positive : 1 ≤ o.keyLevelNodes) :
    List.Forall₂ (Visits o (some fun _ => none) (setEdit path.length v) path)
      (deepPrefixes o path) (setSections o path v none now) := by
  rw [setSections, List.forall₂_map_right_iff]
  exact (deepSections_visits o _ _ path path.length now positive).imp
    fun _ _ visits => visits.silent

/-- The edits at all keys of a path are the edits of its prefixes. -/
theorem editOn_deepPrefixes (path : List String) (positive : 1 ≤ o.keyLevelNodes)
    (f : List String → Option T) (q : List String) :
    editOn o create edit path (deepPrefixes o path) f q =
      if q ≠ [] ∧ q <+: path then applyEdit create edit q (f q) else f q := by
  unfold editOn
  by_cases onPath : q <+: path
  · have iff : q.take o.keyLevelNodes ∈ deepPrefixes o path ↔ q ≠ [] := by
      rw [mem_deepPrefixes]
      constructor
      · rintro ⟨_, nonempty, _⟩ rfl
        simp at nonempty
      · intro nonempty
        exact ⟨( List.take_prefix _ _).trans onPath, take_keyLevels_ne_nil o q positive nonempty,
          by rw [List.length_take]; omega⟩
    simp only [iff]
  · rw [if_neg fun h => onPath h.2, if_neg fun h => onPath h.2]

/-! ## The steps a run presents -/

/-- The prefixes of `path` whose nodes the key of `p` holds. -/
def onKey (path p : List String) : List (List String) :=
  if p.length < o.keyLevelNodes then [p]
  else prefixesFrom path (o.keyLevelNodes - 1) (path.length + 1 - o.keyLevelNodes)

def Offers (path p : List String) (s : Section (Step T) R) : Prop :=
  ∀ content, Sound o p content → s.presents content =
    (onKey o path p).map fun q => offered create q ((nodeLabel o content q).held o)

theorem keySection_offers (ttl : Option (StepTtl T)) (path : List String)
    (minLevelSemaphore n : Nat) (keyLevel : n + 1 < o.keyLevelNodes) (bound : n < path.length) :
    Offers o create path (path.take (n + 1))
      (keySection o create edit ttl path minLevelSemaphore n) := by
  intro content sound
  have length : (path.take (n + 1)).length = n + 1 := List.length_take_of_le (by omega)
  have same : (path.take (n + 1)).take o.keyLevelNodes = path.take (n + 1) :=
    List.take_of_length_le (by omega)
  have good := sound.labels _ same
  have presents := good.present_eq create (path.take (n + 1)) 0
  have label : nodeLabel o content (path.take (n + 1)) = ⟨content, none⟩ := by
    rw [nodeLabel, if_pos (by omega)]
  rw [onKey, if_pos (by omega), List.map_singleton]
  rw [label] at presents ⊢
  exact congrArg (fun step => [step]) presents

theorem inits_drop (path : List String) (n : Nat) (bound : n < path.length) :
    ((path.drop (n + 1)).inits.map fun q => path.take (n + 1) ++ q) =
      prefixesFrom path n (path.length - n) := by
  apply List.ext_getElem
  · simp only [List.length_map, List.length_inits, List.length_drop, prefixesFrom, List.length_range']
    omega
  · intro i left right
    simp only [List.getElem_map, List.getElem_inits, prefixesFrom, List.getElem_range']
    rw [Nat.one_mul, ← List.take_add]

theorem treeSection_offers (ttl : Option (StepTtl T)) (path : List String)
    (minLevelSemaphore : Nat) (now : ℚ) (positive : 1 ≤ o.keyLevelNodes)
    (deep : o.keyLevelNodes ≤ path.length) :
    Offers o create path (path.take o.keyLevelNodes)
      (treeSection o create edit ttl path minLevelSemaphore now) := by
  intro content sound
  obtain ⟨m, level⟩ : ∃ m, o.keyLevelNodes = m + 1 := ⟨o.keyLevelNodes - 1, by omega⟩
  have length : (path.take o.keyLevelNodes).length = o.keyLevelNodes := List.length_take_of_le deep
  have base : path.take o.keyLevelNodes ≠ [] := by
    intro h
    rw [h] at length
    simp at length
    omega
  have listed := inits_drop path m (by omega)
  rw [onKey, if_neg (by omega), show o.keyLevelNodes - 1 = m by omega,
    show path.length + 1 - o.keyLevelNodes = path.length - m by omega, ← listed, List.map_map,
    ← level]
  simp only [treeSection, treeWalk]
  rw [walk_steps o create edit ttl now _ _ _ base]
  apply List.map_congr_left
  intro q _
  have same : (path.take o.keyLevelNodes ++ q).take o.keyLevelNodes = path.take o.keyLevelNodes := by
    rw [List.take_append_of_le_length (by omega), List.take_take, Nat.min_self]
  have good := sound.labels _ same
  have label : nodeLabel o content (path.take o.keyLevelNodes ++ q) =
      (rootTree o content).labelAt q := by
    rw [nodeLabel, if_neg (by rw [List.length_append]; omega), List.drop_append_of_le_length (by omega),
      List.drop_eq_nil_of_le (by omega), List.nil_append]
  rw [label] at good
  rw [Function.comp_apply, label]
  exact good.present_eq create _ now

theorem mem_onKey (path p q : List String) (positive : 1 ≤ o.keyLevelNodes)
    (listed : p ∈ deepPrefixes o path) (member : q ∈ onKey o path p) :
    q.take o.keyLevelNodes = p ∧ q <+: path ∧ q ≠ [] := by
  obtain ⟨onPath, nonempty, short⟩ := (mem_deepPrefixes o path p).mp listed
  have pLength := onPath.length_le
  unfold onKey at member
  split at member
  · obtain rfl := List.mem_singleton.mp member
    exact ⟨List.take_of_length_le short, onPath, nonempty⟩
  · obtain ⟨above, within, taken⟩ :=
      length_of_mem_prefixesFrom path (o.keyLevelNodes - 1) _ q (by omega) member
    refine ⟨?_, ?_, ?_⟩
    · rw [taken, List.take_take, Nat.min_eq_left (by omega),
        List.prefix_iff_eq_take.mp onPath, show p.length = o.keyLevelNodes by omega]
    · rw [taken]
      exact List.take_prefix _ _
    · intro empty
      rw [empty] at above
      simp at above

/-- Grouped by storage key, the prefixes of a path come in order of length. -/
theorem flatMap_onKey (path : List String) (positive : 1 ≤ o.keyLevelNodes) :
    (deepPrefixes o path).flatMap (onKey o path) = nonemptyPrefixes path := by
  have keys : ∀ n, n < o.keyLevelNodes → n ≤ path.length →
      (prefixesFrom path 0 n).flatMap (onKey o path) = prefixesFrom path 0 n := by
    intro n below bound
    have single : ∀ p ∈ prefixesFrom path 0 n, onKey o path p = [p] := by
      intro p member
      have := (mem_prefixesFrom_iff path n bound p).mp member
      rw [onKey, if_pos (by omega)]
    rw [List.flatMap_congr single]
    simp
  unfold deepPrefixes nonemptyPrefixes
  by_cases short : path.length < o.keyLevelNodes
  · rw [Nat.min_eq_right (by omega)]
    exact keys path.length short (le_refl _)
  · obtain ⟨m, level⟩ : ∃ m, o.keyLevelNodes = m + 1 := ⟨o.keyLevelNodes - 1, by omega⟩
    have last : onKey o path (path.take (m + 1)) = prefixesFrom path m (path.length - m) := by
      have length : (path.take (m + 1)).length = m + 1 := List.length_take_of_le (by omega)
      rw [onKey, if_neg (by omega), level, Nat.add_sub_cancel, Nat.add_sub_add_right]
    have tree : prefixesFrom path m 1 = [path.take (m + 1)] := by simp [prefixesFrom]
    have total : prefixesFrom path 0 path.length =
        prefixesFrom path 0 m ++ prefixesFrom path m (path.length - m) := by
      have split := prefixesFrom_add path 0 m (path.length - m)
      rwa [Nat.add_sub_cancel' (by omega), Nat.zero_add] at split
    rw [Nat.min_eq_left (by omega), level, prefixesFrom_add, List.flatMap_append,
      keys m (by omega) (by omega), Nat.zero_add, tree, List.flatMap_singleton, last, total]

variable {o} {create} {edit}

/-- The sections of a run present what the storage stands for before the run. -/
theorem Represents.presented (path : List String) (positive : 1 ≤ o.keyLevelNodes)
    (plain : PlainPath path) : ∀ (ps : List (List String)) (ss : List (Section (Step T) R)),
      List.Forall₂ (fun p s => Visits o create edit path p s ∧ Offers o create path p s) ps ss →
      ps.Nodup → (∀ p ∈ ps, p ∈ deepPrefixes o path) →
      ∀ (w : World R) (f : List String → Option T), Represents o w f →
        TreeKeyCache.presented w ss =
          ps.flatMap fun p => (onKey o path p).map fun q => offered create q (f q) := by
  intro ps ss sections
  induction sections with
  | nil => intro _ _ w f _; rfl
  | @cons p s ps ss here rest ih =>
      intro distinct prefixes w f represents
      obtain ⟨visits, offers⟩ := here
      obtain ⟨fresh, distinctRest⟩ := List.nodup_cons.mp distinct
      have listed := prefixes p List.mem_cons_self
      obtain ⟨onPath, nonempty, short⟩ := (mem_deepPrefixes o path p).mp listed
      have pSound := represents.sound p (plain.above onPath) nonempty short
      have stepped := represents.perform path p s visits positive plain onPath nonempty short
      have later := ih distinctRest (fun p' h => prefixes p' (List.mem_cons_of_mem _ h)) _ _ stepped
      have head : s.presents (w.read s.key) =
          (onKey o path p).map fun q => offered create q (f q) := by
        rw [visits.key, offers _ pSound]
        apply List.map_congr_left
        intro q member
        obtain ⟨same, qOnPath, qNonempty⟩ := mem_onKey o path p q positive listed member
        rw [← represents.held q (plain.above qOnPath) qNonempty, nodeKey, same]
      have tail : (ps.flatMap fun p' => (onKey o path p').map fun q =>
          offered create q (editOn o create edit path [p] f q)) =
          ps.flatMap fun p' => (onKey o path p').map fun q => offered create q (f q) := by
        apply List.flatMap_congr
        intro p' member
        apply List.map_congr_left
        intro q qMember
        obtain ⟨same, _, _⟩ := mem_onKey o path p' q positive
          (prefixes p' (List.mem_cons_of_mem _ member)) qMember
        have apart : q.take o.keyLevelNodes ∉ [p] := by
          rw [same, List.mem_singleton]
          rintro rfl
          exact fresh member
        rw [editOn, if_neg fun h => apart h.1]
      rw [TreeKeyCache.presented, head, later, tail, List.flatMap_cons]

end

end TreeKeyCache
