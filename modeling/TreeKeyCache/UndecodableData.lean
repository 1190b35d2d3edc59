import TreeKeyCache.VersionTraversals
import TreeKeyCache.PrunePipeline

/-! # Tree data that does not decode

What the read operations and `prune` do about entries and versions that do not decode, and when
they treat them as absent. -/
set_option autoImplicit false
namespace TreeKeyCache

variable {T R : Type} [SerializedForm R]

/-- Reading treats entries that do not decode as absent exactly when none of them is registered,
and versions that do not decode exactly when the other versions of their keys show nothing;
`prune` shrinks all other trees exactly when none of them is enumerated after an entry that does
not decode. -/
theorem undecodable_absent_iff (o : LawfulOptions T R) (history : HistoryOptions T R)
    (positive : 1 ≤ o.keyLevelNodes) (historyPositive : 1 ≤ history.keyLevelNodes)
    (getChildren : Option String → List String)
    (names : ∀ parent, ∀ item ∈ getChildren parent, ColonFree item) (w : World R)
    (getHistory : String → List (Option R)) (visits : List KeyVisit) (keys : List String)
    (distinct : keys.Nodup) :
    (ReadsAsAbsent o.toOptions w.read getChildren visits ↔
        RegisteredDecode o.toOptions w.read getChildren) ∧
      (HistoryReadsAsAbsent history ⟨getHistory, some getChildren⟩ visits ↔
        BadVersionsHideNothing history ⟨getHistory, some getChildren⟩) ∧
      (PruneShrinksOthers o w keys ↔ NoTreeAfterThrow o w keys) :=
  ⟨readsAsAbsent_iff_registeredDecode o.toOptions w.read positive names visits,
    historyReadsAsAbsent_iff_hideNothing history historyPositive names getHistory visits,
    pruneShrinksOthers_iff positive distinct⟩

def undecodableWorld : World String :=
  ⟨fun key => if key = "a:b" then some ⟨"?", none⟩
    else if key = "c:d" then some ⟨Text.encodeTree staleTree, none⟩ else none, 10, []⟩

def twoBranches : Option String → List String
  | none => ["a", "c"]
  | some key => if key = "a" then ["b"] else if key = "c" then ["d"] else []

theorem twoBranches_colonFree : ∀ parent, ∀ item ∈ twoBranches parent, ColonFree item := by
  have pieces : ∀ item ∈ ["a", "b", "c", "d"], ColonFree item := by decide +kernel
  intro parent item listed
  apply pieces
  cases parent with
  | none =>
      rw [twoBranches] at listed
      exact (show ∀ item ∈ ["a", "c"], item ∈ ["a", "b", "c", "d"] by decide +kernel) item listed
  | some key =>
      rw [twoBranches] at listed
      split at listed
      · rw [List.mem_singleton.mp listed]
        decide +kernel
      · split at listed
        · rw [List.mem_singleton.mp listed]
          decide +kernel
        · cases listed

/-- Versions of `c:d`, and one of `a:b` that does not decode before one that does. -/
def undecodableHistory (key : String) : List (Option String) :=
  if key = "a:b" then [some "?", some (Text.encodeTree staleTree)]
  else if key = "c:d" then [some (Text.encodeTree staleTree)] else []

theorem undecodable_not_absent :
    ¬ ReadsAsAbsent (Text.options 2).toOptions undecodableWorld.read twoBranches [] ∧
      ¬ HistoryReadsAsAbsent (Text.historyOptions 2 truthyVersions)
          ⟨undecodableHistory, some twoBranches⟩ [] ∧
        ¬ PruneShrinksOthers (Text.options 2) undecodableWorld ["a:b", "c:d"] := by
  refine ⟨?_, ?_, ?_⟩
  · rw [readsAsAbsent_iff_registeredDecode _ _ (by decide) twoBranches_colonFree]
    intro decode
    have decoded := decode ["a"] rfl (by decide +kernel) "b" (by decide +kernel) "?" (by decide +kernel)
    exact absurd decoded (by decide +kernel)
  · rw [historyReadsAsAbsent_iff_hideNothing _ (by decide) twoBranches_colonFree]
    intro hide
    have plain : PlainStorageKey (Text.historyOptions 2 truthyVersions).keyLevelNodes
        ["a", "b", "y"] :=
      show ∀ key ∈ ["a", "b"], ColonFree key by decide +kernel
    have hidden := hide 10 ["a", "b", "y"] (by decide) plain
      ⟨some "?", by decide +kernel, by decide +kernel⟩
    exact absurd (congrArg Option.isSome hidden) (by decide +kernel)
  · rw [pruneShrinksOthers_iff (by decide) (by decide)]
    intro none
    have bad : (prunedAt (Text.options 2).toOptions undecodableWorld "a:b").toOption.isNone = true := by
      decide +kernel
    have throws : Throws (Text.options 2).toOptions undecodableWorld "a:b" := by
      rw [Throws]
      cases read : prunedAt (Text.options 2).toOptions undecodableWorld "a:b" with
      | error e => exact ⟨e, rfl⟩
      | ok form =>
          rw [read] at bad
          cases bad
    have shrinks : ((prunedAt (Text.options 2).toOptions undecodableWorld "c:d").toOption.join.map
        fun tree => decide (undecodableWorld.read "c:d" = some (Text.encodeTree tree))) =
          some false := by
      decide +kernel
    obtain ⟨tree, found, differs⟩ := Option.map_eq_some_iff.mp shrinks
    refine none [] "a:b" ["c:d"] rfl throws "c:d" List.mem_cons_self tree
      ⟨?_, of_decide_eq_false differs⟩
    cases read : prunedAt (Text.options 2).toOptions undecodableWorld "c:d" with
    | error e =>
        rw [read] at found
        cases found
    | ok form =>
        rw [read] at found
        exact congrArg Except.ok found

def oneBranch : Option String → List String
  | none => ["c"]
  | some key => if key = "c" then ["d"] else []

theorem oneBranch_colonFree : ∀ parent, ∀ item ∈ oneBranch parent, ColonFree item := by
  intro parent item listed
  apply twoBranches_colonFree parent item
  cases parent with
  | none =>
      rw [oneBranch, List.mem_singleton] at listed
      rw [listed]
      decide
  | some key =>
      rw [oneBranch] at listed
      split at listed
      · rename_i same
        rw [same, List.mem_singleton.mp listed]
        decide
      · cases listed

/-- Versions of `c:d`, and of `a:b` one that does not decode before an empty tree. -/
def emptiedHistory (key : String) : List (Option String) :=
  if key = "a:b" then [some "?", some (Text.encodeTree Tree.empty)]
  else if key = "c:d" then [some (Text.encodeTree staleTree)] else []

theorem undecodableWorld_registeredDecode :
    RegisteredDecode (Text.options 2).toOptions undecodableWorld.read oneBranch := by
  intro p level colonFree item listed r stored
  obtain ⟨key, rfl⟩ := List.length_eq_one_iff.mp (Nat.succ.inj level)
  change item ∈ oneBranch (some key) at listed
  rw [oneBranch] at listed
  split at listed
  · rename_i same
    rw [List.mem_singleton.mp listed, same] at stored
    have content : undecodableWorld.read "c:d" = some (Text.encodeTree staleTree) := by decide +kernel
    obtain rfl := Option.some.inj (content.symm.trans stored)
    decide +kernel
  · cases listed

theorem emptiedHistory_hidesNothing : BadVersionsHideNothing (Text.historyOptions 2 truthyVersions)
    ⟨emptiedHistory, some oneBranch⟩ := by
  intro now path deep plain losing
  by_cases bad : joinKeys (path.take 2) = "a:b"
  · have versions : (Text.historyOptions 2 truthyVersions).getTreeListFromAsyncIterable
        (emptiedHistory (joinKeys (path.take 2))) = [Tree.empty] := by
      have rejected : deserializeTree (Text.options 2).toOptions "?" = none :=
        Option.isNone_iff_eq_none.mp (by decide +kernel)
      have decoded : deserializeTree (Text.options 2).toOptions (Text.encodeTree Tree.empty) =
          some Tree.empty := by
        rw [deserializeTree, Text.deserialize_encodeTree 2 Tree.empty rfl rfl]
      have truthy : truthyVersions (emptiedHistory "a:b") = ["?", Text.encodeTree Tree.empty] := by
        decide +kernel
      rw [bad, HistoryOptions.getTreeListFromAsyncIterable, truthy]
      change List.filterMap (deserializeTree (Text.options 2).toOptions) _ = _
      simp [rejected, decoded]
    rw [versionsTree]
    change (Tree.valueAt (multiTreeRef ((Text.historyOptions 2 truthyVersions).getTreeListFromAsyncIterable
        (emptiedHistory (joinKeys (path.take 2)))) now) now _).bind _ = none
    rw [versions]
    cases path.drop (Text.historyOptions 2 truthyVersions).keyLevelNodes with
    | nil => rfl
    | cons key rest => rfl
  · obtain ⟨version, listed, undecodable⟩ := losing
    change version ∈ emptiedHistory (joinKeys (path.take 2)) at listed
    rw [emptiedHistory, if_neg bad] at listed
    split at listed
    · rw [List.mem_singleton.mp listed] at undecodable
      exact absurd undecodable (by decide +kernel)
    · cases listed

/-- An entry and a version that do not decode behave as absent where nothing leads to the entry, the
other versions show nothing, and pruning comes to the entry last. -/
theorem undecodable_absent_oneBranch :
    ReadsAsAbsent (Text.options 2).toOptions undecodableWorld.read oneBranch
        [⟨"a:b", 10, 10⟩, ⟨"c:d", 10, 10⟩] ∧
      HistoryReadsAsAbsent (Text.historyOptions 2 truthyVersions)
          ⟨emptiedHistory, some oneBranch⟩ [⟨"a:b", 10, 10⟩, ⟨"c:d", 10, 10⟩] ∧
        PruneShrinksOthers (Text.options 2) undecodableWorld ["c:d", "a:b"] := by
  obtain ⟨reads, historyReads, shrinks⟩ := undecodable_absent_iff (Text.options 2)
    (Text.historyOptions 2 truthyVersions) (by decide) (by decide) oneBranch oneBranch_colonFree
    undecodableWorld emptiedHistory [⟨"a:b", 10, 10⟩, ⟨"c:d", 10, 10⟩] ["c:d", "a:b"] (by decide)
  refine ⟨reads.mpr undecodableWorld_registeredDecode, historyReads.mpr emptiedHistory_hidesNothing,
    shrinks.mpr ?_⟩
  intro before bad after split throws key member
  cases before with
  | nil =>
      obtain ⟨rfl, rfl⟩ := List.cons.inj split
      have settled : (prunedAt (Text.options 2).toOptions undecodableWorld "c:d").toOption.isNone =
          false := by decide +kernel
      obtain ⟨e, failed⟩ := throws
      rw [failed] at settled
      cases settled
  | cons first rest =>
      have last : after = [] := by
        have tail := (List.cons.inj split).2
        cases rest with
        | nil => exact (List.cons.inj tail).2.symm
        | cons second rest =>
            have none := (List.cons.inj tail).2
            cases rest <;> cases none
      rw [last] at member
      cases member

end TreeKeyCache
