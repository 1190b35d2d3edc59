import TreeKeyCache.AnyKeys
import TreeKeyCache.AllOrNothing

/-! # The ancestors of a written node

`setNode` presents every node on its path and serializes what it presented.  Where
serialized values are compared by identity, as objects are, that always counts as a
change: above the tree level the entry is written again with the ttl of the call, and in the
tree the node loses its deadline. -/
set_option autoImplicit false
namespace TreeKeyCache

variable {T R : Type} [SerializedForm R] (o : LawfulOptions T R)

omit [SerializedForm R] in
theorem deserializeValue_eq_some {o : Options T R} {r : R} {v : T} :
    deserializeValue o r = some v ↔ o.valueSerializer.deserialize r = .ok (some v) := by
  unfold deserializeValue
  cases o.valueSerializer.deserialize r with
  | error e => exact ⟨fun same => (nomatch same), fun same => (nomatch same)⟩
  | ok answer => exact ⟨fun same => congrArg Except.ok same, Except.ok.inj⟩

/-! ## Labels on the way down -/

section
variable (ttl : Option (StepTtl T)) (v : T) (now : ℚ) {length : Nat}

/-- What `setNode` assigns above its own node: the value it was shown. -/
def passing (length : Nat) (path : List String) (last : Bool) (label : Label R) : Label R :=
  label.visited o (some fun _ => none) (setEdit length v) ttl path last now

theorem setEdit_above (path : List String) (old : Option R) (nonempty : path ≠ [])
    (above : path.length ≠ length) :
    setEdit length v (present o.toOptions (some fun _ => none) (nodeRefOf path) old) =
      old.bind (deserializeValue o.toOptions) := by
  rw [setEdit, if_neg]
  · cases old <;> rfl
  · have level : (present o.toOptions (some fun _ => none) (nodeRefOf path) old).level = path.length :=
      nodeRefOf_level path nonempty
    rw [level]
    exact above

theorem passing_none (path : List String) (nonempty : path ≠ []) (above : path.length ≠ length) :
    passing o ttl v now length path false (Label.none : Label R) = Label.none := by
  rw [passing, Label.visited, Label.enriched, editStep]
  simp only [setEdit_above o v path _ nonempty above]
  rfl

theorem walkAny_labelAt : ∀ (q rest base : List String) (tree : Tree R), base ≠ [] →
    base.length + rest.length = length → q <+: rest → q ≠ rest →
      (walkAny o (some fun _ => none) (setEdit length v) ttl now (nodeRefOf base) tree
          rest).tree.labelAt q =
        passing o ttl v now length (base ++ q) false (tree.labelAt q) := by
  intro q
  induction q with
  | nil =>
      intro rest base tree _ _ _ notAll
      rw [List.append_nil, Tree.labelAt_nil, Tree.labelAt_nil, walkAny_label,
        decide_eq_false (Ne.symm notAll)]
      rfl
  | cons key q ih =>
      intro rest base tree nonempty long onPath notAll
      obtain ⟨tail, rfl⟩ := onPath
      rw [List.cons_append] at long ⊢
      have notAllBelow : q ≠ q ++ tail := by
        intro all
        rw [List.cons_append, ← all] at notAll
        exact notAll rfl
      have longBelow : (base ++ [key]).length + (q ++ tail).length = length := by
        rw [List.length_append, List.length_singleton]
        rw [List.length_cons] at long
        omega
      by_cases found : readChild (tree.children.getD []) key = .inherited
      · obtain ⟨left, old⟩ := walkAny_labelAt_inherited o (some fun _ => none) (setEdit length v) ttl
          now (nodeRefOf base) tree found (q ++ tail) q
        rw [left, old, passing_none o ttl v now _ (by simp)]
        rw [List.length_append, List.length_cons]
        rw [List.length_cons, List.length_append] at long
        have longer : 0 < tail.length := by
          rw [List.length_pos_iff]
          rintro rfl
          exact notAllBelow (List.append_nil q).symm
        omega
      · have below := ih (q ++ tail) (base ++ [key]) ((tree.child key).getD Tree.empty) (by simp)
          longBelow (List.prefix_append q tail) notAllBelow
        rw [List.append_assoc, List.singleton_append] at below
        rw [walkAny_labelAt_cons o _ _ ttl now _ tree found, nodeRefOf_below base key nonempty, below,
          Tree.labelAt_cons]

/-- A label whose value is in canonical form keeps its value.  It is rewritten when the value
is not the same as itself, and then it loses its deadline. -/
theorem passing_eq_iff (path : List String) (label : Label R) (nonempty : path ≠ [])
    (above : path.length ≠ length)
    (inForm : ∀ r, label.value = some r → InForm o.toOptions r) :
    passing o ttl v now length path false label = label ↔
      ∀ r value, label.live now = some r → o.valueSerializer.deserialize r = .ok (some value) →
        SerializedForm.same r r = true ∨ truthyNumber label.deadline = false := by
  rw [passing, Label.visited, Label.enriched, editStep]
  simp only [setEdit_above o v path _ nonempty above]
  cases live : label.live now with
  | none =>
      refine ⟨?_, fun _ => rfl⟩
      intro _ r value found
      cases found
  | some r =>
      have value : label.value = some r := by
        unfold Label.live at live
        split at live
        · exact live
        · split at live
          · exact live
          · cases live
      cases decoded : deserializeValue o.toOptions r with
      | none =>
          simp only [Option.bind_some, decoded]
          refine ⟨fun _ r' value' found ok => ?_, fun _ => trivial⟩
          rw [← Option.some.inj found, ← deserializeValue_eq_some, decoded] at ok
          cases ok
      | some v' =>
          have encoded : o.encode v' = r := by
            have serialized := inForm r value v' (deserializeValue_eq_some.mp decoded)
            rw [o.serialize_value] at serialized
            exact Except.ok.inj serialized
          simp only [Option.bind_some, decoded, encoded, differs,
            Bool.false_eq_true, if_false, truthyNumber_none, Bool.not_eq_eq_eq_not, Bool.not_true]
          constructor
          · intro same r' value' found _
            obtain rfl := Option.some.inj found
            by_cases again : SerializedForm.same r r = true
            · exact Or.inl again
            · rw [if_pos (Bool.eq_false_iff.mpr again)] at same
              refine Or.inr ?_
              have cleared := congrArg Label.deadline same
              simp only at cleared
              split at cleared
              · rename_i dated
                rw [← cleared] at dated
                cases dated
              · rename_i undated
                exact Bool.eq_false_iff.mpr undated
          · intro spared
            split
            · rename_i fresh
              rcases spared r v' rfl (deserializeValue_eq_some.mp decoded) with again | undated
              · rw [again] at fresh
                cases fresh
              · rw [undated, ← value]
                rfl
            · rfl

end

/-! ## The frame condition -/

omit [SerializedForm R] in
theorem World.read_of_live {w : World R} {key : String} {entry : Entry R}
    (stored : w.store key = some entry) (alive : entry.liveAt w.clock) :
    w.read key = some entry.content := by
  rw [World.read, World.readAt, stored]
  exact if_pos alive

omit [SerializedForm R] in
theorem World.read_of_dead {w : World R} {key : String} {entry : Entry R}
    (stored : w.store key = some entry) (dead : ¬ entry.liveAt w.clock) : w.read key = none := by
  rw [World.read, World.readAt, stored]
  exact if_neg dead

/-- The chained key of the first `n` keys. -/
def levelKey (path : List String) (n : Nat) : String := (chainedKeyOf (path.take n)).getD ""

/-- What the stored tree says about the node at the first `n` keys of a path. -/
def treeLabel (content : Option R) (path : List String) (n : Nat) : Label R :=
  (rootTree o content).labelAt ((path.take n).drop o.keyLevelNodes)

/-- Each level of the path that has an entry has one of its own. -/
def OwnKeys (path : List String) : Prop :=
  ((List.range (min o.keyLevelNodes path.length)).map fun n => levelKey path (n + 1)).Nodup

/-- The values stored on the way to the path's node serialize to what is stored. -/
structure StoredInForm (w : World R) (path : List String) : Prop where
  entries : ∀ n entry, n + 1 < o.keyLevelNodes → n + 1 < path.length →
    w.store (levelKey path (n + 1)) = some entry → InForm o.toOptions entry.content
  tree : ∀ n r, (treeLabel o (w.read (levelKey path o.keyLevelNodes)) path n).value = some r →
    InForm o.toOptions r

/-- No proper ancestor of the path has changed: above the tree level it has the same entry
with the same expiry, in the tree the same value and deadline. -/
structure AncestorsKept (w w' : World R) (path : List String) : Prop where
  entries : ∀ n, n + 1 < o.keyLevelNodes → n + 1 < path.length →
    w'.store (levelKey path (n + 1)) = w.store (levelKey path (n + 1))
  tree : ∀ n, 0 < n → o.keyLevelNodes ≤ n → n < path.length →
    w'.store (levelKey path o.keyLevelNodes) = w.store (levelKey path o.keyLevelNodes) ∨
      ∃ entry, w'.store (levelKey path o.keyLevelNodes) = some entry ∧
        treeLabel o (some entry.content) path n =
          treeLabel o (w.read (levelKey path o.keyLevelNodes)) path n

/-- Every live ancestor that decodes compares equal to itself, or would be written as it is:
above the tree level with the expiry it has, in the tree without a deadline. -/
structure AncestorsSpared (ttl : Option (StepTtl T)) (w : World R) (path : List String) : Prop where
  entries : ∀ n entry v, n + 1 < o.keyLevelNodes → n + 1 < path.length →
    w.store (levelKey path (n + 1)) = some entry → entry.liveAt w.clock →
    o.valueSerializer.deserialize entry.content = .ok (some v) →
    SerializedForm.same entry.content entry.content = true ∨
      entry.expiry = (stepTtl ttl (mountStep (nodeRefOf (path.take (n + 1))) (some v))).map
        fun s => w.clock + s * 1000
  tree : ReachesTree o path → ∀ n r v, o.keyLevelNodes ≤ n → n < path.length →
    (treeLabel o (w.read (levelKey path o.keyLevelNodes)) path n).live w.clock = some r →
    o.valueSerializer.deserialize r = .ok (some v) →
    SerializedForm.same r r = true ∨
      truthyNumber (treeLabel o (w.read (levelKey path o.keyLevelNodes)) path n).deadline = false

section
variable (ttl : Option (StepTtl T)) (v : T) (w : World R) {path : List String}

noncomputable def callSections (path : List String) : List (Section (Step T) R) :=
  anySections o (some fun _ => none) (setEdit path.length v) ttl path w

theorem keyOf_chainSection (n : Nat) :
    (chainSection o (some fun _ => none) (setEdit path.length v) ttl path n).key =
      levelKey path (n + 1) := rfl

theorem callSections_distinct (ownKeys : OwnKeys o path) :
    ((callSections o ttl v w path).map Section.key).Nodup := by
  have bound : ∀ tail : List Nat, (tail = [] ∨ (tail = [o.keyLevelNodes - 1] ∧ 1 ≤ o.keyLevelNodes ∧
      o.keyLevelNodes ≤ path.length)) →
      ((List.range (min (o.keyLevelNodes - 1) path.length) ++ tail).map
        fun n => levelKey path (n + 1)).Nodup := by
    rintro tail (rfl | ⟨rfl, positive, deep⟩)
    · rw [List.append_nil]
      refine List.Nodup.sublist ?_ ownKeys
      exact (List.range_sublist.mpr (by omega)).map _
    · rw [show min (o.keyLevelNodes - 1) path.length = o.keyLevelNodes - 1 by omega,
        ← List.range_succ, show (o.keyLevelNodes - 1).succ = min o.keyLevelNodes path.length by omega]
      exact ownKeys
  unfold callSections anySections
  simp only [List.map_append, List.map_map]
  split
  · rename_i reached
    have positive := keyLevelNodes_pos o reached.1
    have whole := bound [o.keyLevelNodes - 1] (Or.inr ⟨rfl, positive, reached.1.1⟩)
    rw [List.map_append, List.map_singleton, show o.keyLevelNodes - 1 + 1 = o.keyLevelNodes by omega]
      at whole
    exact whole
  · have whole := bound [] (Or.inl rfl)
    rw [List.append_nil] at whole
    rw [List.map_nil, List.append_nil]
    exact whole

theorem chainSection_mem {n : Nat} (keyLevel : n + 1 < o.keyLevelNodes) (onPath : n < path.length) :
    chainSection o (some fun _ => none) (setEdit path.length v) ttl path n ∈
      callSections o ttl v w path := by
  refine List.mem_append_left _ (List.mem_map_of_mem ?_)
  exact List.mem_range.mpr (by omega)

theorem entry_kept_iff (ownKeys : OwnKeys o path) (inForm : StoredInForm o w path) (n : Nat)
    (keyLevel : n + 1 < o.keyLevelNodes) (above : n + 1 < path.length) :
    (performAll w (callSections o ttl v w path)).store (levelKey path (n + 1)) =
        w.store (levelKey path (n + 1)) ↔
      ∀ entry value, w.store (levelKey path (n + 1)) = some entry → entry.liveAt w.clock →
        o.valueSerializer.deserialize entry.content = .ok (some value) →
        SerializedForm.same entry.content entry.content = true ∨
          entry.expiry = (stepTtl ttl (mountStep (nodeRefOf (path.take (n + 1))) (some value))).map
            fun s => w.clock + s * 1000 := by
  have stored := performAll_entry _ _ w (callSections_distinct o ttl v w ownKeys)
    (chainSection_mem o ttl v w keyLevel (by omega))
  rw [keyOf_chainSection] at stored
  have length : (path.take (n + 1)).length = n + 1 := List.length_take_of_le (by omega)
  have nonempty : path.take (n + 1) ≠ [] := take_ne_nil path n (by omega)
  have passed : ∀ content, setEdit path.length v (present o.toOptions (some fun _ => none)
      (nodeRefOf (path.take (n + 1))) content) = content.bind (deserializeValue o.toOptions) :=
    fun content => setEdit_above o v (path.take (n + 1)) content nonempty (by omega)
  rw [stored]
  simp only [chainSection, stepWrites, editStep, passed]
  cases entryFound : w.store (levelKey path (n + 1)) with
  | none =>
      have nothing : w.read (levelKey path (n + 1)) = none := by
        rw [World.read, World.readAt, entryFound]
      rw [nothing]
      refine ⟨?_, fun _ => rfl⟩
      intro _ entry value found
      cases found
  | some entry =>
      by_cases alive : entry.liveAt w.clock
      · rw [World.read_of_live entryFound alive]
        cases decoded : deserializeValue o.toOptions entry.content with
        | none =>
            simp only [Option.bind_some, decoded]
            refine ⟨fun _ entry' value found _ ok => ?_, fun _ => trivial⟩
            rw [← Option.some.inj found, ← deserializeValue_eq_some, decoded] at ok
            cases ok
        | some value =>
            have encoded : o.encode value = entry.content := by
              have serialized := inForm.entries n entry keyLevel above entryFound value
                (deserializeValue_eq_some.mp decoded)
              rw [o.serialize_value] at serialized
              exact Except.ok.inj serialized
            have step : { present o.toOptions (some fun _ => none) (nodeRefOf (path.take (n + 1)))
                (some entry.content) with value := some value } =
                mountStep (nodeRefOf (path.take (n + 1))) (some value) := rfl
            simp only [Option.bind_some, decoded, encoded, differs, step]
            constructor
            · intro kept entry' value' found _ decoded'
              obtain rfl := Option.some.inj found
              rw [← deserializeValue_eq_some, decoded] at decoded'
              obtain rfl := Option.some.inj decoded'
              cases again : SerializedForm.same entry.content entry.content with
              | true => exact Or.inl rfl
              | false =>
                  rw [again] at kept
                  exact Or.inr (congrArg Entry.expiry (Option.some.inj kept)).symm
            · intro spared
              cases again : SerializedForm.same entry.content entry.content with
              | true => rfl
              | false =>
                  rcases spared entry value rfl alive
                    (deserializeValue_eq_some.mp decoded) with same | expiry
                  · rw [again] at same
                    cases same
                  · change some (Entry.mk entry.content ((stepTtl ttl _).map _)) = some entry
                    rw [← expiry]
      · rw [World.read_of_dead entryFound alive]
        refine ⟨fun _ entry' value found living => ?_, fun _ => rfl⟩
        obtain rfl := Option.some.inj found
        exact absurd living alive

theorem anyTreeWalk_treeLabel (n : Nat) (deep : o.keyLevelNodes ≤ n) (above : n < path.length)
    (positive : 1 ≤ o.keyLevelNodes) (content : Option R) :
    (anyTreeWalk o (some fun _ => none) (setEdit path.length v) ttl path w.clock content).tree.labelAt
        ((path.take n).drop o.keyLevelNodes) =
      passing o ttl v w.clock path.length (path.take n) false (treeLabel o content path n) := by
  have whole : path.take o.keyLevelNodes ++ (path.take n).drop o.keyLevelNodes = path.take n := by
    have shorter : path.take o.keyLevelNodes = (path.take n).take o.keyLevelNodes := by
      rw [List.take_take, Nat.min_eq_left deep]
    rw [shorter]
    exact List.take_append_drop _ _
  have base : path.take o.keyLevelNodes ≠ [] := by
    rw [show o.keyLevelNodes = o.keyLevelNodes - 1 + 1 by omega]
    exact take_ne_nil path _ (by omega)
  have long : (path.take o.keyLevelNodes).length + (path.drop o.keyLevelNodes).length =
      path.length := by
    rw [← List.length_append, List.take_append_drop]
  have onPath : (path.take n).drop o.keyLevelNodes <+: path.drop o.keyLevelNodes := by
    rw [List.drop_take]
    exact List.take_prefix _ _
  have notAll : (path.take n).drop o.keyLevelNodes ≠ path.drop o.keyLevelNodes := by
    intro same
    have lengths := congrArg List.length same
    rw [List.length_drop, List.length_drop, List.length_take] at lengths
    omega
  rw [anyTreeWalk, walkAny_labelAt o ttl v w.clock _ _ _ _ base long onPath notAll, whole]
  rfl

theorem treeLabel_none (n : Nat) (content : Option R) (undecoded : rootTree o content = Tree.empty) :
    treeLabel o content path n = Label.none := by
  rw [treeLabel, undecoded, Tree.labelAt_empty]

theorem rootTree_of_not_decodes (content : Option R) (fails : ¬ DecodesRoot o content) :
    rootTree o content = Tree.empty := by
  rw [rootTree]
  cases buffer : truthy? content with
  | none => rfl
  | some serialized =>
      rw [Option.bind_some, deserializeTree]
      cases decoded : o.treeSerializer.deserialize serialized with
      | error e => rfl
      | ok tree =>
          refine absurd ⟨tree, ?_⟩ fails
          rw [decodeRoot, buffer]
          exact decoded

theorem treeKey_not_listed (ownKeys : OwnKeys o path) (deep : o.keyLevelNodes ≤ path.length) :
    levelKey path o.keyLevelNodes ∉ ((List.range (min (o.keyLevelNodes - 1) path.length)).map
      (chainSection o (some fun _ => none) (setEdit path.length v) ttl path)).map Section.key := by
  rw [List.map_map]
  intro listed
  obtain ⟨n, bound, same⟩ := List.mem_map.mp listed
  rw [List.mem_range] at bound
  have twice : n = o.keyLevelNodes - 1 := by
    apply List.inj_on_of_nodup_map ownKeys
    · exact List.mem_range.mpr (by omega)
    · exact List.mem_range.mpr (by omega)
    · rw [show o.keyLevelNodes - 1 + 1 = o.keyLevelNodes by omega]
      exact same
  omega

theorem read_treeKey (ownKeys : OwnKeys o path) (reached : ReachesTree o path) :
    (performAll w ((List.range (min (o.keyLevelNodes - 1) path.length)).map
        (chainSection o (some fun _ => none) (setEdit path.length v) ttl path))).read
        (levelKey path o.keyLevelNodes) = w.read (levelKey path o.keyLevelNodes) := by
  have absent := treeKey_not_listed o ttl v ownKeys reached.1
  exact World.read_congr _ _ _ (performAll_store_of_not_mem _ _ _ absent) (performAll_clock _ _)

theorem anyTreeSection_listed (ownKeys : OwnKeys o path) (reached : ReachesTree o path)
    (decodes : DecodesRoot o (w.read (levelKey path o.keyLevelNodes))) :
    anyTreeSection o (some fun _ => none) (setEdit path.length v) ttl path w.clock ∈
      callSections o ttl v w path := by
  have same := read_treeKey o ttl v w ownKeys reached
  have both : ReachesTree o path ∧ DecodesRoot o ((performAll w ((List.range (min
      (o.keyLevelNodes - 1) path.length)).map (chainSection o (some fun _ => none)
        (setEdit path.length v) ttl path))).read (levelKey path o.keyLevelNodes)) := by
    rw [same]
    exact ⟨reached, decodes⟩
  refine List.mem_append_right _ ?_
  refine (if_pos both).symm ▸ ?_
  exact List.mem_singleton_self _

/-- The entry of the tree when the call reaches it: the walked tree, or the old entry when the
walk changed nothing. -/
theorem treeEntry_after (ownKeys : OwnKeys o path) (reached : ReachesTree o path)
    (decodes : DecodesRoot o (w.read (levelKey path o.keyLevelNodes))) :
    let walked := anyTreeWalk o (some fun _ => none) (setEdit path.length v) ttl path w.clock
      (w.read (levelKey path o.keyLevelNodes))
    if walked.changed = true then
      ∃ expiry, (performAll w (callSections o ttl v w path)).store (levelKey path o.keyLevelNodes) =
        some ⟨o.encodeTree walked.tree, expiry⟩
    else (performAll w (callSections o ttl v w path)).store (levelKey path o.keyLevelNodes) =
      w.store (levelKey path o.keyLevelNodes) := by
  have stored := performAll_entry _ _ w (callSections_distinct o ttl v w ownKeys)
    (anyTreeSection_listed o ttl v w ownKeys reached decodes)
  intro walked
  by_cases changed : walked.changed = true
  · rw [if_pos changed]
    have written : (anyTreeSection o (some fun _ => none) (setEdit path.length v) ttl path
        w.clock).writes (w.read (levelKey path o.keyLevelNodes)) =
          some (o.encodeTree walked.tree, ttlRule walked.ttl) := if_pos changed
    exact ⟨_, stored.trans (by rw [show (anyTreeSection o (some fun _ => none) (setEdit path.length v) ttl
        path w.clock).key = levelKey path o.keyLevelNodes from rfl, written])⟩
  · rw [if_neg changed]
    have written : (anyTreeSection o (some fun _ => none) (setEdit path.length v) ttl path
        w.clock).writes (w.read (levelKey path o.keyLevelNodes)) = none := if_neg changed
    exact stored.trans (by rw [show (anyTreeSection o (some fun _ => none) (setEdit path.length v) ttl path
        w.clock).key = levelKey path o.keyLevelNodes from rfl, written])

theorem tree_untouched (unreached : ¬ (ReachesTree o path ∧
      DecodesRoot o (w.read (levelKey path o.keyLevelNodes)))) (ownKeys : OwnKeys o path)
    (deep : o.keyLevelNodes ≤ path.length) :
    (performAll w (callSections o ttl v w path)).store (levelKey path o.keyLevelNodes) =
      w.store (levelKey path o.keyLevelNodes) := by
  apply performAll_store_of_not_mem
  have sections : callSections o ttl v w path = (List.range (min (o.keyLevelNodes - 1)
      path.length)).map (chainSection o (some fun _ => none) (setEdit path.length v) ttl path) := by
    rw [callSections, anySections]
    rw [if_neg, List.append_nil]
    intro both
    have decodes := both.2
    change DecodesRoot o (World.read _ (levelKey path o.keyLevelNodes)) at decodes
    rw [read_treeKey o ttl v w ownKeys both.1] at decodes
    exact unreached ⟨both.1, decodes⟩
  rw [sections]
  exact treeKey_not_listed o ttl v ownKeys deep

theorem tree_kept_iff (ownKeys : OwnKeys o path) (reached : ReachesTree o path)
    (decodes : DecodesRoot o (w.read (levelKey path o.keyLevelNodes))) (n : Nat)
    (deep : o.keyLevelNodes ≤ n) (above : n < path.length) :
    ((performAll w (callSections o ttl v w path)).store (levelKey path o.keyLevelNodes) =
          w.store (levelKey path o.keyLevelNodes) ∨
        ∃ entry, (performAll w (callSections o ttl v w path)).store (levelKey path o.keyLevelNodes) =
            some entry ∧
          treeLabel o (some entry.content) path n =
            treeLabel o (w.read (levelKey path o.keyLevelNodes)) path n) ↔
      passing o ttl v w.clock path.length (path.take n) false
          (treeLabel o (w.read (levelKey path o.keyLevelNodes)) path n) =
        treeLabel o (w.read (levelKey path o.keyLevelNodes)) path n := by
  have after := treeEntry_after o ttl v w ownKeys reached decodes
  have label := anyTreeWalk_treeLabel o ttl v w n deep above (keyLevelNodes_pos o reached)
    (w.read (levelKey path o.keyLevelNodes))
  have wellFormed := walkAny_wellFormed o (some fun _ => none) (setEdit path.length v) ttl w.clock
    (path.drop o.keyLevelNodes) (nodeRefOf (path.take o.keyLevelNodes)) _
    (rootTree_wellFormed o (w.read (levelKey path o.keyLevelNodes)))
  simp only at after
  rw [← label]
  split at after
  · obtain ⟨expiry, stored⟩ := after
    have written := labelAt_encodeTree o _ wellFormed
    constructor
    · rintro (same | ⟨entry, found, kept⟩)
      · rw [stored] at same
        by_cases alive : (⟨o.encodeTree (anyTreeWalk o (some fun _ => none) (setEdit path.length v) ttl
            path w.clock (w.read (levelKey path o.keyLevelNodes))).tree, expiry⟩ : Entry R).liveAt w.clock
        · have read := World.read_of_live same.symm alive
          exact (written _).symm.trans (congrArg (fun content => treeLabel o content path n) read.symm)
        · have long : (path.take n).length = n := List.length_take_of_le (by omega)
          have nonempty : path.take n ≠ [] := by
            have positive := keyLevelNodes_pos o reached
            rw [← List.length_pos_iff, long]
            omega
          rw [label, World.read_of_dead same.symm alive, treeLabel_none o n none rfl]
          exact passing_none o ttl v w.clock _ nonempty (by omega)
      · rw [stored] at found
        obtain rfl := Option.some.inj found
        rw [← kept, treeLabel]
        exact (written _).symm
    · intro kept
      refine Or.inr ⟨_, stored, ?_⟩
      rw [← kept, treeLabel]
      exact written _
  · rename_i unchanged
    refine ⟨fun _ => ?_, fun _ => Or.inl after⟩
    exact walkAny_unchanged o _ _ ttl w.clock _ _ _ ((Bool.not_eq_true _).mp unchanged) _

/-- A call to `setNode` keeps its ancestors exactly when they are spared. -/
theorem ancestors_kept_iff (consumer : Step T → Option T) (ownKeys : OwnKeys o path)
    (inForm : StoredInForm o w path) :
    AncestorsKept o w ((setNode o.toOptions path (some (.value v)) ttl).run consumer w).world path ↔
      AncestorsSpared o ttl w path := by
  rw [(setNode_alone o ttl consumer path v w).1]
  change AncestorsKept o w (performAll w (callSections o ttl v w path)) path ↔ _
  constructor
  · intro kept
    constructor
    · intro n entry value keyLevel above stored alive decoded
      exact (entry_kept_iff o ttl v w ownKeys inForm n keyLevel above).mp
        (kept.entries n keyLevel above) entry value stored alive decoded
    · intro reached n r value deep above live decoded
      have positive := keyLevelNodes_pos o reached
      by_cases decodes : DecodesRoot o (w.read (levelKey path o.keyLevelNodes))
      · have passed := (tree_kept_iff o ttl v w ownKeys reached decodes n deep above).mp
          (kept.tree n (by omega) deep above)
        have long : (path.take n).length = n := List.length_take_of_le (by omega)
        have nonempty : path.take n ≠ [] := by
          rw [← List.length_pos_iff, long]
          omega
        exact (passing_eq_iff o ttl v w.clock (path.take n) _ nonempty (by omega)
          fun r stored => inForm.tree n r stored).mp passed r value live decoded
      · rw [treeLabel_none o n _ (rootTree_of_not_decodes o _ decodes)] at live
        cases live
  · intro spared
    constructor
    · intro n keyLevel above
      exact (entry_kept_iff o ttl v w ownKeys inForm n keyLevel above).mpr
        fun entry value stored alive decoded =>
          spared.entries n entry value keyLevel above stored alive decoded
    · intro n positive deep above
      by_cases reached : ReachesTree o path ∧
          DecodesRoot o (w.read (levelKey path o.keyLevelNodes))
      · have long : (path.take n).length = n := List.length_take_of_le (by omega)
        have nonempty : path.take n ≠ [] := by
          rw [← List.length_pos_iff, long]
          omega
        refine (tree_kept_iff o ttl v w ownKeys reached.1 reached.2 n deep above).mpr ?_
        exact (passing_eq_iff o ttl v w.clock (path.take n) _ nonempty (by omega)
          fun r stored => inForm.tree n r stored).mpr
            fun r value live decoded => spared.tree reached.1 n r value deep above live decoded
      · exact Or.inl (tree_untouched o ttl v w reached ownKeys (by omega))

end

theorem inForm_encode (v : T) : InForm o.toOptions (o.encode v) := by
  intro value decoded
  rw [o.deserialize_value] at decoded
  obtain rfl := Option.some.inj (Except.ok.inj decoded)
  exact o.serialize_value v

/-- The node `["a", "b"]` with a deadline, under `["a"]`. -/
def datedTree : World String where
  store key :=
    if key = "a" then some ⟨Text.encodeNat 1, none⟩
    else if key = "a:b" then
      some ⟨Text.encodeTree (.mk (some (Text.encodeNat 2)) (some 5) none), none⟩
    else none
  clock := 0
  registry := []

theorem rootTree_datedTree : rootTree (Text.options 2) (datedTree.read "a:b") =
    .mk (some (Text.encodeNat 2)) (some 5) none := by
  have decoded := Text.deserialize_encodeTree 2 (.mk (some (Text.encodeNat 2)) (some 5) none) rfl rfl
  have truthy : truthy? (datedTree.read "a:b") =
      some (Text.encodeTree (.mk (some (Text.encodeNat 2)) (some 5) none)) :=
    Option.filter_some_pos (decide_eq_true (Text.encodeTree_ne_empty _))
  rw [rootTree, truthy, Option.bind_some, deserializeTree, decoded, Option.getD_some]

/-- Text is compared by content. -/
theorem ancestors_kept_on_text :
    AncestorsKept (Text.options 2) datedTree
      ((setNode (Text.options 2).toOptions ["a", "b", "c"] (some (.value 3))
        (some (.seconds 1))).run (fun step => step.value) datedTree).world ["a", "b", "c"] := by
  refine (ancestors_kept_iff (Text.options 2) (some (.seconds 1)) 3 datedTree _ ?_ ?_).mpr ?_
  · unfold OwnKeys
    decide +kernel
  · constructor
    · intro n entry keyLevel _ stored
      have first : n = 0 := by
        change n + 1 < 2 at keyLevel
        omega
      rw [first] at stored
      obtain rfl := Option.some.inj stored
      exact inForm_encode (Text.options 2) 1
    · intro n r stored
      have root : rootTree (Text.options 2) (datedTree.read (levelKey ["a", "b", "c"] 2)) =
          .mk (some (Text.encodeNat 2)) (some 5) none := rootTree_datedTree
      change (treeLabel (Text.options 2) (datedTree.read (levelKey ["a", "b", "c"] 2))
        ["a", "b", "c"] n).value = some r at stored
      rw [treeLabel, root] at stored
      cases below : (["a", "b", "c"].take n).drop (Text.options 2).keyLevelNodes with
      | nil =>
          rw [below] at stored
          obtain rfl := Option.some.inj stored
          exact inForm_encode (Text.options 2) 2
      | cons key rest =>
          rw [below, Tree.labelAt_cons] at stored
          change ((Tree.empty : Tree String).labelAt rest).value = some r at stored
          rw [Tree.labelAt_empty] at stored
          cases stored
  · constructor
    · intro n entry value _ _ _ _ _
      exact Or.inl (PrimitiveForm.same_refl _)
    · intro _ n r value _ _ _ _
      exact Or.inl (PrimitiveForm.same_refl _)

/-! ## Documents -/

/-- A storage that keeps objects: they are truthy, and each `serialize` and each read returns
a new one. -/
inductive Document where
  | number (n : Nat)
  | tree (t : Tree Document)

namespace Document

instance : SerializedForm Document where
  truthy _ := true
  same _ _ := false
  same_eq _ _ same := nomatch same

def decodeNumber : Document → Except Err (Option Nat)
  | number n => .ok (some n)
  | tree _ => .error (.thrown "not a number")

def decodeTree : Document → Except Err (Tree Document)
  | number _ => .error (.thrown "not a tree")
  | tree t => if t.wellFormed then .ok t else .error (.thrown "duplicate key")

theorem decodeTree_wellFormed (document : Document) (t : Tree Document)
    (decoded : document.decodeTree = .ok t) : t.wellFormed = true := by
  cases document with
  | number n => cases decoded
  | tree t' =>
      change (if t'.wellFormed then Except.ok t' else .error (Err.thrown "duplicate key")) = _ at decoded
      split at decoded
      · rename_i wellFormed
        obtain rfl := Except.ok.inj decoded
        exact wellFormed
      · cases decoded

def options (keyLevelNodes : Nat) : LawfulOptions Nat Document where
  keyLevelNodes := keyLevelNodes
  valueSerializer := ⟨fun n => .ok (number n), decodeNumber⟩
  treeSerializer := ⟨fun t => .ok (tree t), decodeTree, decodeTree_wellFormed⟩
  encode := number
  encodeTree := tree
  serialize_value _ := rfl
  deserialize_value _ := rfl
  truthy_value _ := rfl
  serialize_tree _ := rfl
  deserialize_tree t wellFormed := ⟨t, if_pos wellFormed, Tree.SameNodes.refl t⟩
  truthy_tree _ falsy := nomatch falsy

end Document

/-- `["a"]`, stored without expiry. -/
def lastingDocument : World Document where
  store key := if key = "a" then some ⟨.number 1, none⟩ else none
  clock := 0
  registry := []

/-- `setNode(["a", "b"], 2, 1)` gives the entry of `["a"]` the ttl of the call. -/
theorem ancestor_ttl_changed :
    OwnKeys (Document.options 2) ["a", "b"] ∧
      StoredInForm (Document.options 2) lastingDocument ["a", "b"] ∧
      ¬ AncestorsKept (Document.options 2) lastingDocument
        ((setNode (Document.options 2).toOptions ["a", "b"] (some (.value 2))
          (some (.seconds 1))).run (fun step => step.value) lastingDocument).world ["a", "b"] := by
  refine ⟨by unfold OwnKeys; decide +kernel, ?_, ?_⟩
  · constructor
    · intro n entry keyLevel _ stored
      have first : n = 0 := by
        change n + 1 < 2 at keyLevel
        omega
      rw [first] at stored
      obtain rfl := Option.some.inj stored
      exact inForm_encode (Document.options 2) 1
    · intro n r stored
      change (treeLabel (Document.options 2) none ["a", "b"] n).value = some r at stored
      rw [treeLabel_none (Document.options 2) n none rfl] at stored
      cases stored
  · intro kept
    have same := congrArg (Option.map Entry.expiry) (kept.entries 0 (by decide) (by decide))
    exact absurd same (by decide +kernel)

end TreeKeyCache
