import TreeKeyCache.Lookup

/-! # The encoders of storage keys

Writers extend a chained key level by level with `getChainedKey`, readers join the keys of an
array or of a chain with `buildKey`, and `splitKey` takes a key apart.  `getChainedKey` tests
the chained key for truthiness, so an empty first key is dropped as soon as another one
follows. -/
set_option autoImplicit false
namespace TreeKeyCache

/-! ## The fold of a writer -/

/-- `getChainedKey` for `n` levels from `level` on. -/
def iterateChainedKey (keys : List String) : Nat → Nat → Option String → Except Err (Option String)
  | 0, _, chainedKey => .ok chainedKey
  | n + 1, level, chainedKey => do
      let (chainedKey, _) ← getChainedKey keys level chainedKey
      iterateChainedKey keys n (level + 1) (some chainedKey)

/-- The chained key of a writer that has gone through the path. -/
def writtenKey (path : List String) : Except Err (Option String) :=
  iterateChainedKey path path.length 0 none

theorem iterateChainedKey_eq (path : List String) : ∀ (n level : Nat), level + n ≤ path.length →
    iterateChainedKey path n level (chainedKeyOf (path.take level)) =
      .ok (chainedKeyOf (path.take (level + n))) := by
  intro n
  induction n with
  | zero => exact fun level _ => rfl
  | succ n ih =>
      intro level within
      have bound : level < path.length := by omega
      have later := ih (level + 1) (by omega)
      rw [chainedKeyOf_take_succ path level bound, Nat.add_assoc, Nat.add_comm 1 n] at later
      rw [iterateChainedKey, getChainedKey_chainedKeyOf path level bound]
      exact later

theorem writtenKey_eq (path : List String) : writtenKey path = .ok (chainedKeyOf path) := by
  have whole := iterateChainedKey_eq path path.length 0 (by omega)
  rw [Nat.zero_add, List.take_of_length_le (le_refl _)] at whole
  exact whole

/-! ## Empty keys -/

theorem eq_singleton_of_joinKeys_eq_empty (path : List String) (nonempty : path ≠ [])
    (empty : joinKeys path = "") : path = [""] := by
  obtain ⟨front, last, rfl⟩ := exists_append_singleton path nonempty
  by_cases single : front = []
  · subst single
    rw [List.nil_append, joinKeys_singleton] at empty
    rw [empty, List.nil_append]
  · rw [joinKeys_append_singleton front last single] at empty
    have spelled := congrArg String.toList empty
    simp [String.toList_append] at spelled

theorem chainedKeyOf_append_singleton (front : List String) (key : String) :
    chainedKeyOf (front ++ [key]) = some (chainKey (chainedKeyOf front) key) := by
  rw [chainedKeyOf, List.foldl_append]
  rfl

theorem chainedKeyOf_eq_of_first (path : List String) (nonempty : path ≠ [])
    (first : path.head? ≠ some "") : chainedKeyOf path = some (joinKeys path) := by
  induction path using List.reverseRecOn with
  | nil => exact absurd rfl nonempty
  | append_singleton front key ih =>
      rw [chainedKeyOf_append_singleton]
      by_cases single : front = []
      · subst single
        exact congrArg some (joinKeys_singleton key).symm
      · have frontFirst : front.head? ≠ some "" := by
          rw [List.head?_append_of_ne_nil front single] at first
          exact first
        have truthy : joinKeys front ≠ "" := by
          intro empty
          rw [eq_singleton_of_joinKeys_eq_empty front single empty] at frontFirst
          exact frontFirst rfl
        rw [ih single frontFirst, chainKey, if_pos truthy,
          joinKeys_append_singleton front key single]

theorem chainedKeyOf_empty_iff (keys : List String) :
    (chainedKeyOf keys).getD "" = "" ↔ ∀ key ∈ keys, key = "" := by
  induction keys using List.reverseRecOn with
  | nil => simp [chainedKeyOf]
  | append_singleton front key ih =>
      rw [chainedKeyOf_append_singleton, Option.getD_some]
      cases chained : chainedKeyOf front with
      | none =>
          rw [chained] at ih
          have empty := ih.mp rfl
          simp only [chainKey, List.forall_mem_append, List.forall_mem_singleton]
          exact ⟨fun last => ⟨empty, last⟩, And.right⟩
      | some prior =>
          rw [chained, Option.getD_some] at ih
          simp only [chainKey, List.forall_mem_append, List.forall_mem_singleton, ← ih]
          by_cases dropped : prior = ""
          · simp [dropped]
          · have spelled : prior ++ ":" ++ key ≠ "" := by
              intro empty
              have letters := congrArg String.toList empty
              simp [String.toList_append] at letters
            simp [dropped, spelled]

theorem chainedKeyOf_empty_cons (key : String) (rest : List String) :
    chainedKeyOf ("" :: key :: rest) = chainedKeyOf (key :: rest) := rfl

theorem joinKeys_empty_cons (key : String) (rest : List String) :
    joinKeys ("" :: key :: rest) = ":" ++ joinKeys (key :: rest) := by
  apply String.toList_injective
  simp [toList_joinKeys, String.toList_append, List.intercalate]

theorem length_chainedKeyOf_le : ∀ (path : List String) (written : String),
    chainedKeyOf path = some written → written.toList.length ≤ (joinKeys path).toList.length := by
  intro path
  induction path with
  | nil =>
      intro written found
      cases found
  | cons key rest ih =>
      intro written found
      by_cases dropped : key = "" ∧ rest ≠ []
      · obtain ⟨rfl, more⟩ := dropped
        obtain ⟨second, rest, rfl⟩ := List.exists_cons_of_ne_nil more
        have shorter := ih written ((chainedKeyOf_empty_cons second rest).symm.trans found)
        rw [joinKeys_empty_cons, String.toList_append, List.length_append]
        exact shorter.trans (Nat.le_add_left _ _)
      · have same : chainedKeyOf (key :: rest) = some (joinKeys (key :: rest)) := by
          by_cases empty : key = ""
          · have single : rest = [] := by
              by_contra more
              exact dropped ⟨empty, more⟩
            rw [single, joinKeys_singleton]
            rfl
          · refine chainedKeyOf_eq_of_first (key :: rest) (List.cons_ne_nil key rest) ?_
            intro same
            exact empty (Option.some.inj same)
        obtain rfl := Option.some.inj (same.symm.trans found)
        exact Nat.le_refl _

theorem chainedKeyOf_empty_ne (key : String) (rest : List String) :
    chainedKeyOf ("" :: key :: rest) ≠ some (joinKeys ("" :: key :: rest)) := by
  intro same
  have shorter := length_chainedKeyOf_le (key :: rest) _
    ((chainedKeyOf_empty_cons key rest).symm.trans same)
  rw [joinKeys_empty_cons, String.toList_append, List.length_append] at shorter
  exact absurd shorter (by simp)

/-! ## Agreement -/

/-- Writers, readers and enumerations mean the same node by a key. -/
structure CodersAgree (path : List String) : Prop where
  written : writtenKey path = .ok (some (joinKeys path))
  chained : ∀ nodeRef : ChainedObject, nodeRef.keys = path → buildKey nodeRef = joinKeys path
  split : splitKey (joinKeys path) = path

/-- The encoders and the decoder agree on a path unless its first key is empty and others follow. -/
theorem codersAgree_iff (path : List String) (nonempty : path ≠ [])
    (colonFree : ∀ key ∈ path, ColonFree key) :
    CodersAgree path ↔ path.length = 1 ∨ path.head? ≠ some "" := by
  have split := splitKey_joinKeys path nonempty colonFree
  have chained : ∀ nodeRef : ChainedObject, nodeRef.keys = path → buildKey nodeRef = joinKeys path := by
    intro nodeRef same
    rw [buildKey_eq, same]
  constructor
  · intro agree
    by_contra neither
    rw [not_or, not_not] at neither
    obtain ⟨several, first⟩ := neither
    cases path with
    | nil => cases first
    | cons key rest =>
        obtain rfl : key = "" := Option.some.inj first
        have more : rest ≠ [] := by
          rintro rfl
          exact several rfl
        obtain ⟨second, rest, rfl⟩ := List.exists_cons_of_ne_nil more
        have written := agree.written
        rw [writtenKey_eq] at written
        exact chainedKeyOf_empty_ne second rest (Except.ok.inj written)
  · intro condition
    refine ⟨?_, chained, split⟩
    rw [writtenKey_eq]
    rcases condition with single | first
    · obtain ⟨key, rfl⟩ := List.length_eq_one_iff.mp single
      rw [joinKeys_singleton]
      rfl
    · rw [chainedKeyOf_eq_of_first path nonempty first]

/-- An empty key behind the first one is kept. -/
theorem codersAgree_inner_empty : CodersAgree ["a", "", "b"] :=
  (codersAgree_iff ["a", "", "b"] (by decide) (by decide +kernel)).mpr (Or.inr (by decide))

/-- The writer takes the node below an empty key for a top one. -/
theorem writtenKey_drops_empty :
    writtenKey ["", "a"] = .ok (some "a") ∧ joinKeys ["", "a"] = ":a" ∧ ¬ CodersAgree ["", "a"] := by
  have written : writtenKey ["", "a"] = .ok (some "a") := rfl
  have joined : joinKeys ["", "a"] = ":a" := by decide +kernel
  refine ⟨written, joined, fun agree => ?_⟩
  have same := agree.written
  rw [written, joined] at same
  exact absurd (Option.some.inj (Except.ok.inj same)) (by decide)

end TreeKeyCache
