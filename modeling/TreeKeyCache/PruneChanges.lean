import TreeKeyCache.PrunedTrees

/-! # What `pruneTree` reports

`pruneTree` answers whether it changed the tree, and `prune` writes back the trees that
changed.  A node without a live value counts as changed, also when there is nothing to remove:
every inner node of a tree that was never given a value is such a node. -/
set_option autoImplicit false
namespace TreeKeyCache

variable {T R : Type}

def Removes (tree tree' : Tree R) : Prop :=
  ∃ keys node, tree.sub keys = some node ∧ (tree'.sub keys = none ∨
    ∃ node', tree'.sub keys = some node' ∧
      (node'.value ≠ node.value ∨ node'.deadline ≠ node.deadline))

/-- Every node that is left holds a live value: where there is none, the whole branch goes. -/
def LeavesLiveNodes (now : ℚ) (tree : Tree R) : Prop :=
  ∀ keys node, tree.sub keys = some node → node.label.live now = none →
    keys ≠ [] ∧ ∀ below, (node.labelAt below).live now = none

namespace Tree

theorem lacks_eq_false (now : ℚ) (tree : Tree R) (wellFormed : tree.wellFormed = true) :
    tree.lacks now = false ↔ ∀ keys node, tree.sub keys = some node → node.label.live now ≠ none := by
  rw [← Bool.not_eq_true, lacks_iff now tree wellFormed]
  push Not
  exact Iff.rfl

theorem alive_of_live {now : ℚ} {node : Tree R} (live : node.label.live now ≠ none) :
    node.alive now = true := by
  rw [alive]
  exact anyNode_of_label (Option.isSome_iff_ne_none.mpr live)

theorem prunedEntries_eq_self (now : ℚ) : ∀ entries : TreeChildren R,
    (∀ key child, (key, some child) ∈ entries → child.pruned now = child) →
      prunedEntries now entries = entries := by
  intro entries
  induction entries with
  | nil => exact fun _ => rfl
  | cons entry rest ih =>
      intro kept
      obtain ⟨key, child⟩ := entry
      have later := ih fun key child member => kept key child (List.mem_cons_of_mem _ member)
      cases child with
      | none => rw [prunedEntries, later]
      | some child => rw [prunedEntries, later, kept key child List.mem_cons_self]

theorem keptChildren_of_full (flags : Flags) (entries : TreeChildren R)
    (full : ∀ key empty, (key, empty) ∈ flags → empty = false) :
    keptChildren flags entries = some entries := by
  have cleared : clearEmpty flags entries = entries := by
    induction flags with
    | nil => rfl
    | cons flag rest ih =>
        obtain ⟨key, empty⟩ := flag
        obtain rfl := full key empty List.mem_cons_self
        exact ih fun key empty member => full key empty (List.mem_cons_of_mem _ member)
  unfold keptChildren
  split
  · rfl
  · rename_i nonempty
    obtain ⟨⟨key, empty⟩, rest, rfl⟩ := List.exists_cons_of_ne_nil nonempty
    obtain rfl := full key empty List.mem_cons_self
    rw [List.all_cons, Bool.false_and, if_neg Bool.false_ne_true, cleared]

theorem pruned_of_not_lacks (now : ℚ) (tree : Tree R) : tree.wellFormed = true →
    tree.lacks now = false → tree.pruned now = tree := by
  induction tree using Tree.induct with
  | node v d c ih =>
      intro wellFormed complete
      have live := (lacks_eq_false now _ wellFormed).mp complete [] _ rfl
      have label : (⟨v, d⟩ : Label R).cleared now = ⟨v, d⟩ :=
        if_pos (Option.isSome_iff_ne_none.mpr live)
      cases c with
      | none => rw [pruned, label]
      | some entries =>
          obtain ⟨unique, childWellFormed⟩ := (wellFormed_iff _).mp wellFormed entries rfl
          have childComplete : ∀ key child, (key, some child) ∈ entries → child.lacks now = false := by
            intro key child member
            by_contra lacking
            have whole : (mk v d (some entries)).lacks now = true := by
              rw [lacks_mk, lacksEntries, (anyEntry_eq_true _ entries).mpr
                ⟨key, child, member, Bool.eq_true_of_not_eq_false lacking⟩, Bool.or_true]
            rw [complete] at whole
            cases whole
          have kept : prunedEntries now entries = entries :=
            prunedEntries_eq_self now entries fun key child member =>
              ih entries rfl key child member (childWellFormed key child member)
                (childComplete key child member)
          have full : ∀ key empty, (key, empty) ∈ childFlags now entries → empty = false := by
            intro key empty flagged
            obtain ⟨child, member, rfl⟩ := (mem_childFlags now key empty entries).mp flagged
            have live := (lacks_eq_false now child (childWellFormed key child member)).mp
              (childComplete key child member) [] child rfl
            rw [alive_of_live live]
            rfl
          rw [pruned, label, kept, keptChildren_of_full _ entries full]

end Tree

/-! ## Reports and removals -/

theorem removes_lacks (now : ℚ) (tree : Tree R) (wellFormed : tree.wellFormed = true)
    (removes : Removes tree (tree.pruned now)) : tree.lacks now = true := by
  by_contra complete
  rw [Bool.not_eq_true] at complete
  rw [Tree.pruned_of_not_lacks now tree wellFormed complete] at removes
  obtain ⟨keys, node, found, gone | ⟨node', found', changed⟩⟩ := removes
  · rw [found] at gone
    cases gone
  · rw [found] at found'
    obtain rfl := Option.some.inj found'
    exact changed.elim (fun other => other rfl) fun other => other rfl

theorem lacks_removes (now : ℚ) (tree : Tree R) (wellFormed : tree.wellFormed = true)
    (leaves : LeavesLiveNodes now tree) (lacking : tree.lacks now = true) :
    Removes tree (tree.pruned now) := by
  obtain ⟨keys, node, found, gone⟩ := (Tree.lacks_iff now tree wellFormed).mp lacking
  obtain ⟨below, dead⟩ := leaves keys node found gone
  have nodeWellFormed := Tree.wellFormed_sub keys tree node wellFormed found
  refine ⟨keys, node, found, Or.inl ?_⟩
  rw [Tree.sub_pruned now keys tree wellFormed below, found, Option.filter_some_neg, Option.map_none]
  exact (Tree.not_alive_iff now node nodeWellFormed).mpr dead

theorem pruned_complete_iff (now : ℚ) (tree : Tree R) (wellFormed : tree.wellFormed = true) :
    (tree.pruned now).lacks now = false ↔ LeavesLiveNodes now tree := by
  rw [Tree.lacks_eq_false now _ (Tree.wellFormed_pruned now tree wellFormed)]
  have cleared : ∀ node : Tree R, (node.pruned now).label.live now = node.label.live now := by
    intro node
    rw [Tree.label_pruned]
    exact (Label.live_cleared now node.label).1
  constructor
  · intro complete keys node found gone
    have notLeft : ¬ (keys ≠ [] → node.alive now = true) := by
      intro lives
      refine complete keys _ ((Tree.sub_pruned_iff now tree _ keys wellFormed).mpr
        ⟨node, found, rfl, lives⟩) ?_
      rw [cleared, gone]
    rw [Classical.not_imp, Bool.not_eq_true] at notLeft
    exact ⟨notLeft.1, (Tree.not_alive_iff now node
      (Tree.wellFormed_sub keys tree node wellFormed found)).mp notLeft.2⟩
  · intro leaves keys node' found'
    obtain ⟨node, found, rfl, lives⟩ := (Tree.sub_pruned_iff now tree node' keys wellFormed).mp found'
    rw [cleared]
    intro gone
    obtain ⟨below, dead⟩ := leaves keys node found gone
    rw [(Tree.not_alive_iff now node (Tree.wellFormed_sub keys tree node wellFormed found)).mpr dead]
      at lives
    cases lives below

/-! ## Trees that `prune` writes back -/

theorem pruneTree_quiet (now : ℚ) (tree : Tree R) (parentRef : Option ChainedObject)
    (wellFormed : tree.wellFormed = true) (complete : tree.lacks now = false) :
    (pruneTree now tree parentRef).2 = false := by
  cases parentRef with
  | some parent => rw [pruneTree_eq now tree parent wellFormed, complete]
  | none =>
      obtain ⟨v, d, c⟩ := tree
      cases c with
      | none => rfl
      | some entries =>
          obtain ⟨unique, childWellFormed⟩ := (Tree.wellFormed_iff _).mp wellFormed entries rfl
          have start : FlagStack.empty.Below 2 := ⟨by decide, fun _ _ => rfl⟩
          have walked := pruneEntries_eq now entries
            (fun key child member => pruneNode_eq now child (childWellFormed key child member)) unique 2
            ⟨FlagStack.empty, false⟩ start (fun _ _ => List.not_mem_nil)
          rw [Tree.lacks_mk, Bool.or_eq_false_iff] at complete
          simp only [pruneTree, Tree.children_mk, walked, complete.2, Bool.or_false]

section
variable [SerializedForm R] (o : LawfulOptions T R)

/-- In no run of `prune` at one instant and without other writers, the storage is asked to set
`key`. -/
def NotRewritten (w : World R) (key : String) : Prop :=
  ∀ (keys : List String), keys.Nodup → ∀ run : PruneRun (Step T) T R,
    Leads o.toOptions (PruneRun.start w [] keys) run →
      ∀ thread ∈ run.pool.threads, ∀ content ttl k, thread.prog ≠ .set key content ttl k

theorem notRewritten_of_unchanged (positive : 1 ≤ o.keyLevelNodes) (w : World R) (key : String)
    (unchanged : ∀ tree, prunedAt o.toOptions w key ≠ .ok (some tree)) : NotRewritten o w key := by
  intro keys distinct run leads thread member content ttl k asked
  obtain ⟨done, progress⟩ := (pruneProgress_start o w keys).leads positive distinct leads
  rcases progress.writers thread member with releasing | ⟨other, _, tree, changes, writing⟩
  · rw [asked] at releasing
    cases releasing
  · rw [asked] at writing
    cases writing with
    | holding _ holds =>
        cases holds with
        | set => exact unchanged tree changes

/-- `pruneTree` reports a change exactly when there is one, has nothing left to do afterwards,
and a tree with nothing to remove is not written back by `prune`. -/
structure ReportsChanges (now : ℚ) (tree : Tree R) (parentRef : ChainedObject) : Prop where
  reports : (pruneTree now tree (some parentRef)).2 = true ↔
    Removes tree (pruneTree now tree (some parentRef)).1
  again : pruneTree now (pruneTree now tree (some parentRef)).1 (some parentRef) =
    ((pruneTree now tree (some parentRef)).1, false)
  unwritten : ¬ Removes tree (pruneTree now tree (some parentRef)).1 →
    ∀ (w : World R) (key : String) (r : R), w.clock = now → TreeKey o key → w.read key = some r →
      o.treeSerializer.deserialize r = .ok tree → NotRewritten o w key

theorem reportsChanges_iff (positive : 1 ≤ o.keyLevelNodes) (now : ℚ) (tree : Tree R)
    (parentRef : ChainedObject) (wellFormed : tree.wellFormed = true) :
    ReportsChanges o now tree parentRef ↔ LeavesLiveNodes now tree := by
  have result := pruneTree_eq now tree parentRef wellFormed
  have second := pruneTree_eq now (tree.pruned now) parentRef
    (Tree.wellFormed_pruned now tree wellFormed)
  constructor
  · intro changes
    have again := changes.again
    rw [result, second] at again
    exact (pruned_complete_iff now tree wellFormed).mp (congrArg Prod.snd again)
  · intro leaves
    have complete := (pruned_complete_iff now tree wellFormed).mpr leaves
    have reports : tree.lacks now = true ↔ Removes tree (tree.pruned now) :=
      ⟨lacks_removes now tree wellFormed leaves, removes_lacks now tree wellFormed⟩
    constructor
    · rw [result]
      exact reports
    · rw [result, second, complete, Tree.pruned_of_not_lacks now _
        (Tree.wellFormed_pruned now tree wellFormed) complete]
    · intro nothing w key r clock treeKey read decoded
      rw [result] at nothing
      have whole : tree.lacks now = false := by
        rw [← Bool.not_eq_true]
        exact fun lacking => nothing (reports.mp lacking)
      refine notRewritten_of_unchanged o positive w key fun tree' changes => ?_
      have exactly : (splitKey key).length = o.keyLevelNodes := treeKey
      have own : joinKeys ((splitKey key).take o.keyLevelNodes) = key := by
        rw [List.take_of_length_le (le_of_eq exactly), joinKeys_splitKey]
      rw [prunedAt, own, read, prunedForm, if_neg (by omega)] at changes
      cases buffer : truthy? (some r) with
      | none =>
          rw [buffer] at changes
          cases changes
      | some r' =>
          have same : r' = r := by
            rw [truthy?, Option.filter_eq_some_iff] at buffer
            exact (Option.some.inj buffer.1).symm
          rw [buffer, same] at changes
          simp only [decoded, clock, pruneTree_quiet now tree _ wellFormed whole, Bool.false_eq_true,
            and_false, if_false] at changes
          cases changes

end

/-- A live node above an expired one that still has a child. -/
def expiredBranch : Tree String :=
  .mk (some "1") none (some [("c", some (.mk (some "2") (some 3) (some [("d", some Tree.empty)])))])

theorem expiredBranch_expired : ∀ q, q ≠ [] → (expiredBranch.labelAt q).live 5 = none := by
  have inner : ∀ q, ((Tree.mk (some "2") (some 3) (some [("d", some Tree.empty)]) : Tree String).labelAt
      q).live 5 = none := by
    intro q
    cases q with
    | nil => decide +kernel
    | cons key rest =>
        by_cases same : key = "d"
        · simp [Tree.labelAt_cons, Tree.child, Tree.labelAt_empty, same]
        · simp [Tree.labelAt_cons, Tree.child, Tree.labelAt_empty, List.lookup_cons,
            beq_eq_false_iff_ne.mpr same]
  intro q nonempty
  cases q with
  | nil => exact absurd rfl nonempty
  | cons key rest =>
      by_cases same : key = "c"
      · rw [same]
        exact inner rest
      · simp [expiredBranch, Tree.labelAt_cons, Tree.child, Tree.labelAt_empty, List.lookup_cons,
          beq_eq_false_iff_ne.mpr same]

theorem reportsChanges_expired_branch :
    ReportsChanges (Text.options 2) 5 expiredBranch (.top "a" 1) ∧
      (pruneTree 5 expiredBranch (some (.top "a" 1))).2 = true := by
  refine ⟨(reportsChanges_iff (Text.options 2) (by decide) 5 expiredBranch (.top "a" 1)
    (by decide)).mpr ?_, by decide +kernel⟩
  intro keys node found gone
  have nonempty : keys ≠ [] := by
    rintro rfl
    obtain rfl := Option.some.inj found
    exact absurd gone (by decide +kernel)
  refine ⟨nonempty, fun below => ?_⟩
  have deeper := expiredBranch_expired (keys ++ below) (by simp [nonempty])
  rwa [Tree.labelAt, Tree.sub_append, found] at deeper

/-- One live node below a root that was never given a value. -/
def branchOnly : Tree String := .mk none none (some [("c", some (.mk (some "1") none none))])

/-- Pruning reports a change each time, and there is none. -/
theorem branchOnly_reported :
    ¬ ReportsChanges (Text.options 2) 5 branchOnly (.top "a" 1) := by
  intro changes
  have same : pruneTree 5 branchOnly (some (.top "a" 1)) = (branchOnly, true) := rfl
  have again := changes.again
  rw [same, same] at again
  cases again

end TreeKeyCache
