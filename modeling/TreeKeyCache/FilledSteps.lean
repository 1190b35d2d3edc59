import TreeKeyCache.Memoizer
import TreeKeyCache.MergedVersions
import TreeKeyCache.Ancestors

/-! # Steps without a value

`iteratePath` casts what it yields to `IterateStep`, whose value is to be filled.  It tests that
there is something to decode, not what it decodes to. -/
set_option autoImplicit false
namespace TreeKeyCache

open MemoTable

variable {T R : Type} [SerializedForm R] (o : Options T R) (get : String → Option R)
  (memo : String → Option (MemoValue T R)) (now : ℚ) (path : List String)

/-! ## What is filled -/

/-- The value of the step is neither undefined nor `null`. -/
def Options.Filled (step : Step T) : Prop := o.given step.value ≠ none

def FilledItem : Step T ⊕ Tree R → Prop
  | .inl step => o.Filled step
  | .inr _ => False

def AllFilled (program : Reader T R) : Prop := ∀ item ∈ (program.answered memo).1, FilledItem o item

/-- The serialized form of a value that is neither undefined nor null. -/
def DecodesToValue (r : R) : Prop :=
  ∃ v, o.valueSerializer.deserialize r = .ok (some v) ∧ o.isNull v = false

/-- What the memoizer holds for a node above the tree level has a value. -/
def MemoValue.HoldsValue : MemoValue T R → Prop
  | .step found => ∀ step, found = some step → o.Filled step
  | .tree found => found = none

/-- What is memoized under the key of the node has a value; what is stored there, if nothing is
memoized, decodes to one. -/
def KeyLevelFilled (p : List String) : Prop :=
  match memo (joinKeys p) with
  | some held => held.HoldsValue o
  | none => ∀ r, truthy? (get (joinKeys p)) = some r → DecodesToValue o r

/-- The tree that the memoizer or the storage gives for the path. -/
def heldTree : Option (Tree R) :=
  match memo (joinKeys (path.take o.keyLevelNodes)) with
  | some held => held.asTree
  | none => treeAt o get path

/-- Whatever is found on the path decodes to a value. -/
structure FilledPath : Prop where
  keyLevels : ∀ p, p ≠ [] → p <+: path → p.length < o.keyLevelNodes → KeyLevelFilled o get memo p
  treeLevels : o.keyLevelNodes ≤ path.length → ∀ tree, heldTree o get memo path = some tree →
    ∀ q, q <+: path.drop o.keyLevelNodes → ∀ r, tree.valueAt now q = some r → DecodesToValue o r

/-! ## The parts of the program -/

omit [SerializedForm R] in
theorem stepFor_filled (p : List String) (r : R) : o.Filled (stepFor o p r) ↔ DecodesToValue o r := by
  change o.given (deserializeValue o r) ≠ none ↔ _
  rw [Option.ne_none_iff_exists']
  refine exists_congr fun v => ?_
  rw [Options.given, Option.filter_eq_some_iff, deserializeValue_eq_some, Bool.not_eq_true']

omit [SerializedForm R] in
theorem MemoValue.holdsValue_iff (held : MemoValue T R) :
    (∀ item, held.asStep = some item → FilledItem o item) ↔ held.HoldsValue o := by
  cases held with
  | step found =>
      cases found with
      | none =>
          constructor
          · intro _ step none
            cases none
          · intro _ item none
            cases none
      | some step =>
          constructor
          · intro all step' same
            rw [← Option.some.inj same]
            exact all (.inl step) rfl
          · intro all item same
            rw [← Option.some.inj same]
            exact all step rfl
  | tree found =>
      cases found with
      | none =>
          refine ⟨fun _ => rfl, ?_⟩
          intro _ item none
          cases none
      | some tree =>
          refine ⟨fun all => (all (.inr tree) rfl).elim, fun none => ?_⟩
          cases none

omit [SerializedForm R] in
theorem allFilled_yieldFound (found : Option (Step T ⊕ Tree R)) (rest : Reader T R) :
    AllFilled o memo (yieldFound (.reading get) found rest) ↔
      (∀ item, found = some item → FilledItem o item) ∧ AllFilled o memo rest := by
  cases found with
  | none => exact ⟨fun all => ⟨fun _ none => (nomatch none), all⟩, fun both => both.2⟩
  | some item =>
      constructor
      · intro all
        refine ⟨?_, fun other member => all other (List.mem_cons_of_mem _ member)⟩
        intro first same
        rw [← Option.some.inj same]
        exact all item List.mem_cons_self
      · intro both other member
        rcases List.mem_cons.mp member with rfl | later
        · exact both.1 _ rfl
        · exact both.2 other later

omit [SerializedForm R] in
theorem allFilled_yieldSteps (steps : List (Step T)) (rest : Reader T R) :
    AllFilled o memo (yieldSteps (.reading get) steps rest) ↔
      (∀ step ∈ steps, o.Filled step) ∧ AllFilled o memo rest := by
  induction steps with
  | nil => exact ⟨fun all => ⟨fun _ none => (nomatch none), all⟩, fun both => both.2⟩
  | cons step steps ih =>
      change AllFilled o memo (yieldFound (.reading get) (some (.inl step))
        (yieldSteps (.reading get) steps rest)) ↔ _
      rw [allFilled_yieldFound, ih, List.forall_mem_cons, and_assoc]
      constructor
      · intro all
        exact ⟨all.1 _ rfl, all.2⟩
      · intro all
        refine ⟨?_, all.2⟩
        intro item same
        rw [← Option.some.inj same]
        exact all.1

theorem allFilled_keyLevel (rest : Option (TraversalItem R) → Reader T R) (n done : Nat)
    (bound : done < path.length) (keyLevel : done + 1 < o.keyLevelNodes) :
    AllFilled o memo (memoizedKeyLevels (.reading get) o path now rest (n + 1) (itemAfter path done)) ↔
      KeyLevelFilled o get memo (path.take (done + 1)) ∧
        AllFilled o memo
          (memoizedKeyLevels (.reading get) o path now rest n (itemAfter path (done + 1))) := by
  have length : (path.take (done + 1)).length = done + 1 := List.length_take_of_le (by omega)
  have asked : ∀ held : MemoValue T R, AllFilled o memo (yieldFound (.reading get) held.asStep
      (memoizedKeyLevels (.reading get) o path now rest n (itemAfter path (done + 1)))) ↔
      held.HoldsValue o ∧ AllFilled o memo (memoizedKeyLevels (.reading get) o path now rest n
        (itemAfter path (done + 1))) := by
    intro held
    rw [allFilled_yieldFound, held.holdsValue_iff o]
  rw [memoizedKeyLevels_succ o get path now rest n done bound keyLevel]
  change AllFilled o memo (yieldFound (.reading get) ((memo _).getD _).asStep _) ↔ _
  rw [asked, KeyLevelFilled]
  apply and_congr_left
  intro _
  cases memo (joinKeys (path.take (done + 1))) with
  | some held => rfl
  | none =>
      rw [Option.getD_none]
      change (∀ step, stepAt o get now (path.take (done + 1)) = some step → o.Filled step) ↔ _
      rw [stepAt, serializedAt, if_pos (by omega)]
      cases truthy? (get (joinKeys (path.take (done + 1)))) with
      | none =>
          constructor
          · intro _ r none
            cases none
          · intro _ step none
            cases none
      | some r =>
          constructor
          · intro all r' same
            rw [← Option.some.inj same]
            exact (stepFor_filled o _ r).mp (all _ rfl)
          · intro all step same
            rw [← Option.some.inj same]
            exact (stepFor_filled o _ r).mpr (all r rfl)

theorem allFilled_keyLevels (rest : Option (TraversalItem R) → Reader T R) :
    ∀ n done : Nat, done + n ≤ path.length → done + n < o.keyLevelNodes →
      (AllFilled o memo (memoizedKeyLevels (.reading get) o path now rest n (itemAfter path done)) ↔
        (∀ p ∈ prefixesFrom path done n, KeyLevelFilled o get memo p) ∧
          AllFilled o memo (rest (itemAfter path (done + n)))) := by
  intro n
  induction n with
  | zero =>
      intro done _ _
      exact ⟨fun all => ⟨fun _ none => (nomatch none), all⟩, fun both => both.2⟩
  | succ n ih =>
      intro done bound keyLevel
      rw [allFilled_keyLevel o get memo now path rest n done (by omega) (by omega),
        ih (done + 1) (by omega) (by omega), prefixesFrom_succ, List.forall_mem_cons, and_assoc,
        Nat.add_right_comm done 1 n]
      rfl

/-- What the tree levels yield of the tree that was found. -/
def yieldTree (m : Nat) : Option (Tree R) → Reader T R
  | none => .ret (.ok none)
  | some tree => yieldSteps (.reading get) (treeSteps o now path tree (m + 2) (path.length - (m + 2)))
      (.ret (.ok none))

theorem allFilled_treeLevels (m : Nat) (level : o.keyLevelNodes = m + 2) (bound : m + 1 < path.length) :
    AllFilled o memo (memoizedTreeLevels (.reading get) o path now (itemAfter path (m + 1))) ↔
      ∀ tree, heldTree o get memo path = some tree → ∀ q, q <+: path.drop o.keyLevelNodes →
        ∀ r, tree.valueAt now q = some r → DecodesToValue o r := by
  have walked : ∀ tree : Tree R, (∀ step ∈ treeSteps o now path tree (m + 2) (path.length - (m + 2)),
      o.Filled step) ↔ ∀ q, q <+: path.drop o.keyLevelNodes → ∀ r,
        tree.valueAt now q = some r → DecodesToValue o r := by
    intro tree
    rw [level]
    constructor
    · intro all q onWay r value
      have shorter := onWay.length_le
      rw [List.length_drop] at shorter
      have taken : (path.drop (m + 2)).take q.length = q := (List.prefix_iff_eq_take.mp onWay).symm
      apply (stepFor_filled o (path.take (m + 2 + q.length)) r).mp
      apply all
      rw [treeSteps, List.mem_filterMap]
      refine ⟨q.length, List.mem_range.mpr (by omega), ?_⟩
      rw [taken, value]
      rfl
    · intro all step listed
      obtain ⟨j, _, made⟩ := List.mem_filterMap.mp listed
      obtain ⟨r, value, rfl⟩ := Option.map_eq_some_iff.mp made
      exact (stepFor_filled o _ r).mpr (all _ (List.take_prefix j _) r value)
  have asked : ∀ found : Option (Tree R), AllFilled o memo (yieldTree o get now path m found) ↔
      ∀ tree, found = some tree → ∀ q, q <+: path.drop o.keyLevelNodes → ∀ r,
        tree.valueAt now q = some r → DecodesToValue o r := by
    intro found
    cases found with
    | none =>
        constructor
        · intro _ tree none
          cases none
        · intro _ item member
          cases member
    | some tree =>
        have ended : AllFilled o memo (.ret (.ok none) : Reader T R) := by
          intro item member
          cases member
        rw [yieldTree, allFilled_yieldSteps, walked tree, and_iff_left ended]
        constructor
        · intro all tree' same
          rw [← Option.some.inj same]
          exact all
        · intro all
          exact all tree rfl
  rw [memoizedTreeLevels_eq o get path now m level bound]
  change AllFilled o memo (yieldTree o get now path m
    ((memo (joinKeys (path.take (m + 2)))).getD _).asTree) ↔ _
  rw [asked, heldTree, level]
  cases memo (joinKeys (path.take (m + 2))) <;> rfl

omit [SerializedForm R] in
theorem mem_prefixesFrom_start (n : Nat) (bound : n ≤ path.length) (p : List String) :
    p ∈ prefixesFrom path 0 n ↔ p ≠ [] ∧ p <+: path ∧ p.length ≤ n := by
  constructor
  · intro member
    obtain ⟨positive, short, taken⟩ := length_of_mem_prefixesFrom path 0 n p (by omega) member
    refine ⟨?_, ?_, by omega⟩
    · intro none
      rw [none] at positive
      exact Nat.lt_irrefl _ positive
    · rw [taken]
      exact List.take_prefix _ _
  · rintro ⟨nonempty, onPath, short⟩
    have positive := List.length_pos_iff.mpr nonempty
    rw [prefixesFrom, List.mem_map]
    refine ⟨p.length, List.mem_range'_1.mpr ⟨by omega, by omega⟩, ?_⟩
    exact (List.prefix_iff_eq_take.mp onPath).symm

theorem allFilled_iff (twoLevels : 2 ≤ o.keyLevelNodes) :
    AllFilled o memo (memoizedIteratePath (.reading get) o now path) ↔
      FilledPath o get memo now path := by
  have keyPart := allFilled_keyLevels o get memo now path (memoizedTreeLevels (.reading get) o path now)
    (min (o.keyLevelNodes - 1) path.length) 0 (by omega) (by omega)
  have levels : ∀ p, p ∈ prefixesFrom path 0 (min (o.keyLevelNodes - 1) path.length) ↔
      p ≠ [] ∧ p <+: path ∧ p.length < o.keyLevelNodes := by
    intro p
    rw [mem_prefixesFrom_start path _ (by omega)]
    apply and_congr_right
    intro _
    apply and_congr_right
    intro onPath
    have shorter := onPath.length_le
    omega
  rw [memoizedIteratePath]
  change AllFilled o memo (memoizedKeyLevels (.reading get) o path now _ _ (itemAfter path 0)) ↔ _
  rw [keyPart, Nat.zero_add]
  have treePart : AllFilled o memo (memoizedTreeLevels (.reading get) o path now
      (itemAfter path (min (o.keyLevelNodes - 1) path.length))) ↔
      (o.keyLevelNodes ≤ path.length → ∀ tree, heldTree o get memo path = some tree →
        ∀ q, q <+: path.drop o.keyLevelNodes → ∀ r, tree.valueAt now q = some r → DecodesToValue o r) := by
    by_cases short : path.length < o.keyLevelNodes
    · have whole : min (o.keyLevelNodes - 1) path.length = path.length := by omega
      rw [whole, memoizedTreeLevels_end o get now path]
      refine ⟨fun _ deep => absurd deep (by omega), ?_⟩
      intro _ item member
      cases member
    · obtain ⟨m, level⟩ : ∃ m, o.keyLevelNodes = m + 2 := ⟨o.keyLevelNodes - 2, by omega⟩
      have upTo : min (o.keyLevelNodes - 1) path.length = m + 1 := by omega
      rw [upTo, allFilled_treeLevels o get memo now path m level (by omega)]
      exact ⟨fun all _ => all, fun all => all (by omega)⟩
  rw [treePart]
  constructor
  · intro both
    exact ⟨fun p nonempty onPath short => both.1 p ((levels p).mpr ⟨nonempty, onPath, short⟩), both.2⟩
  · intro filled
    refine ⟨?_, filled.treeLevels⟩
    intro p member
    obtain ⟨nonempty, onPath, short⟩ := (levels p).mp member
    exact filled.keyLevels p nonempty onPath short

theorem iteratePath_filled (twoLevels : 2 ≤ o.keyLevelNodes) :
    ∃ steps, iteratePath o get now path = .ok steps ∧
      ((∀ step ∈ steps, o.Filled step) ↔ FilledPath o get (fun _ => none) now path) := by
  refine ⟨_, iteratePath_eq o get now path twoLevels, ?_⟩
  rw [← allFilled_iff o get _ now path twoLevels, AllFilled, Asking.answered_empty,
    memoizedIteratePath_alone o get now path twoLevels, List.forall_mem_map]
  rfl

/-! ## Histories -/

section
variable (h : HistoryOptions T R) (storage : HistoryStorage R)

/-- The history of every node above the tree level decodes to a value, an empty one too, and so
do the values that the versions of the tree have at any node of theirs on the path. -/
structure HistoryFilledPath : Prop where
  keyLevels : ∀ p, p ≠ [] → p <+: path → p.length < h.keyLevelNodes →
    ∃ v, h.deserializeAsyncList (storage.getHistory (joinKeys p)) = .ok (some v) ∧ h.isNull v = false
  treeLevels : h.keyLevelNodes ≤ path.length → ∀ trees,
    h.treesFromList (storage.getHistory (joinKeys (path.take h.keyLevelNodes))) = .ok trees →
      ∀ q, q <+: path.drop h.keyLevelNodes → (q = [] ∨ ∃ tree ∈ trees, (tree.sub q).isSome = true) →
        ∃ v, h.deserializeList (valuesAt now trees q) = .ok (some v) ∧ h.isNull v = false

theorem treesFromList_wellFormed {versions : List (Option R)} {trees : List (Tree R)}
    (decoded : h.treesFromList versions = .ok trees) : ∀ tree ∈ trees, tree.wellFormed = true := by
  rw [HistoryOptions.treesFromList] at decoded
  by_cases all : ∀ r ∈ truthyVersions versions, decodesTree h.toOptions r = true
  · rw [mapM_deserialize h.toOptions _ all] at decoded
    obtain rfl := Except.ok.inj decoded
    intro tree member
    obtain ⟨r, _, found⟩ := List.mem_filterMap.mp member
    rw [deserializeTree] at found
    split at found
    · rename_i tree' same
      rw [← Option.some.inj found]
      exact h.treeSerializer.deserialize_wellFormed r tree' same
    · cases found
  · push Not at all
    obtain ⟨r, listed, undecoded⟩ := all
    obtain ⟨e, failed⟩ := mapM_deserialize_error h.toOptions _
      ⟨r, listed, Bool.eq_false_of_not_eq_true undecoded⟩
    rw [failed] at decoded
    cases decoded

theorem filledPath_history : FilledPath (h.inPath now) storage.read (fun _ => none) now path ↔
    HistoryFilledPath now path h storage := by
  have keyLevel : ∀ p, KeyLevelFilled (h.inPath now) storage.read (fun _ => none) p ↔
      ∃ v, h.deserializeAsyncList (storage.getHistory (joinKeys p)) = .ok (some v) ∧
        h.isNull v = false := by
    intro p
    constructor
    · exact fun filled => filled (.iterable (storage.getHistory (joinKeys p))) rfl
    · intro decodes r same
      rw [← Option.some.inj same]
      exact decodes
  have treeLevel : (∀ tree, heldTree (h.inPath now) storage.read (fun _ => none) path = some tree →
      ∀ q, q <+: path.drop h.keyLevelNodes → ∀ r, tree.valueAt now q = some r →
        DecodesToValue (h.inPath now) r) ↔ ∀ trees,
      h.treesFromList (storage.getHistory (joinKeys (path.take h.keyLevelNodes))) = .ok trees →
        ∀ q, q <+: path.drop h.keyLevelNodes → (q = [] ∨ ∃ tree ∈ trees, (tree.sub q).isSome = true) →
          ∃ v, h.deserializeList (valuesAt now trees q) = .ok (some v) ∧ h.isNull v = false := by
    rw [heldTree, treeAt_history]
    dsimp only
    cases decoded : h.treesFromList (storage.getHistory (joinKeys (path.take h.keyLevelNodes))) with
    | error e => exact ⟨fun _ _ ok => (nomatch ok), fun _ _ some => (nomatch some)⟩
    | ok trees =>
        have wellFormed := treesFromList_wellFormed h decoded
        constructor
        · intro all trees' same q onPath present
          obtain rfl := Except.ok.inj same
          obtain ⟨found, value⟩ := multiTreeRef_node now trees wellFormed q now
          obtain ⟨node, sub⟩ := Option.isSome_iff_exists.mp (found.mpr present)
          apply all _ rfl q onPath (.multi (valuesAt now trees q))
          rw [Tree.valueAt, sub]
          exact value node sub
        · intro all tree same q onPath r there
          obtain rfl := Option.some.inj same
          obtain ⟨found, value⟩ := multiTreeRef_node now trees wellFormed q now
          rw [Tree.valueAt, Option.bind_eq_some_iff] at there
          obtain ⟨node, sub, live⟩ := there
          rw [value node sub] at live
          obtain rfl := Option.some.inj live
          exact all trees rfl q onPath (found.mp (by rw [sub]; rfl))
  constructor
  · intro filled
    exact ⟨fun p nonempty onPath short => (keyLevel p).mp (filled.keyLevels p nonempty onPath short),
      fun deep => treeLevel.mp (filled.treeLevels deep)⟩
  · intro filled
    exact ⟨fun p nonempty onPath short => (keyLevel p).mpr (filled.keyLevels p nonempty onPath short),
      fun deep => treeLevel.mpr (filled.treeLevels deep)⟩

/-- `iteratePath` yields filled steps only, exactly when whatever is found on the path decodes to a
value: with a memoizer and without, with histories and without. -/
theorem iteratePath_filled_iff (twoLevels : 2 ≤ o.keyLevelNodes) (twoLevels' : 2 ≤ h.keyLevelNodes)
    (memo' : String → Option (MemoValue T (SerializedValue R))) :
    (AllFilled o memo (memoizedIteratePath (.reading get) o now path) ↔
      FilledPath o get memo now path) ∧
    (∃ steps, iteratePath o get now path = .ok steps ∧
      ((∀ step ∈ steps, o.Filled step) ↔ FilledPath o get (fun _ => none) now path)) ∧
    (AllFilled (h.inPath now) memo'
        (memoizedIteratePath (.reading storage.read) (h.inPath now) now path) ↔
      FilledPath (h.inPath now) storage.read memo' now path) ∧
    ∃ steps, historyIteratePath h storage now path = .ok steps ∧
      ((∀ step ∈ steps, h.toOptions.Filled step) ↔ HistoryFilledPath now path h storage) := by
  refine ⟨allFilled_iff o get memo now path twoLevels, iteratePath_filled o get now path twoLevels,
    allFilled_iff (h.inPath now) storage.read memo' now path twoLevels', ?_⟩
  obtain ⟨steps, ran, filled⟩ := iteratePath_filled (h.inPath now) storage.read now path twoLevels'
  exact ⟨steps, ran, filled.trans (filledPath_history now path h storage)⟩

end

/-- A storage that holds one undecodable entry, and one whose histories are empty. -/
def undecodableEntry (key : String) : Option String := if key = "a" then some "?" else none

def emptyHistories : HistoryStorage String := ⟨fun _ => [], none⟩

theorem iteratePath_yields_unfilled :
    (∃ steps, iteratePath (Text.options 2).toOptions undecodableEntry 0 ["a"] = .ok steps ∧
      ¬ ∀ step ∈ steps, (Text.options 2).Filled step) ∧
    ∃ steps, historyIteratePath (Text.historyOptions 2 fun versions => truthyVersions versions)
      emptyHistories 0 ["a"] = .ok steps ∧ ¬ ∀ step ∈ steps, (Text.options 2).Filled step := by
  refine ⟨⟨[mountStep (.top "a" 1) none], rfl, ?_⟩, ⟨[mountStep (.top "a" 1) none], rfl, ?_⟩⟩
  · exact fun filled => filled _ List.mem_cons_self rfl
  · exact fun filled => filled _ List.mem_cons_self rfl

theorem iteratePath_filled_iff_oneNode :
    ∃ steps, iteratePath (Text.plainOptions 2) (oneNode "x") 0 ["a", "b"] = .ok steps ∧
      ∀ step ∈ steps, (Text.plainOptions 2).Filled step := by
  obtain ⟨steps, ran, filled⟩ := (iteratePath_filled_iff (Text.plainOptions 2) (oneNode "x")
    (fun _ => none) 0 ["a", "b"] ⟨Text.plainOptions 2, fun _ => .ok none, fun _ => .ok none,
      fun versions => truthyVersions versions⟩ emptyHistories (by decide) (by decide)
      fun _ => none).2.1
  refine ⟨steps, ran, filled.mpr ⟨?_, ?_⟩⟩
  · intro p nonempty onPath short r stored
    exact ⟨r, rfl, rfl⟩
  · intro deep tree held q onPath r value
    exact ⟨r, rfl, rfl⟩

end TreeKeyCache
