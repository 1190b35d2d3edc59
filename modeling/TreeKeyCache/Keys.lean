import TreeKeyCache.Types
import Mathlib.Algebra.GroupWithZero.Nat

/-! # Storage keys

`getKey`, `getChainedKey` (`internal/`), `buildKey` and `splitKey`
(`utils/build-key.ts`).  Writers extend a chained key level by level, readers join
the keys of a chain, and enumerations split the joined key again.  On paths of
non-empty, colon-free keys the three agree and joining is injective. -/
set_option autoImplicit false
namespace TreeKeyCache

def getKey (keys : List String) (level : Nat) : Except Err String :=
  match keys[level]? with
  | some key => .ok key
  | none => .error (.typeError s!"Undefined key at position {level}")

/-- The chained key so far is tested for truthiness: an empty one is dropped. -/
def chainKey (chainedKey : Option String) (key : String) : String :=
  match chainedKey with
  | some prior => if prior ≠ "" then prior ++ ":" ++ key else key
  | none => key

def getChainedKey (keys : List String) (level : Nat) (chainedKey : Option String) :
    Except Err (String × String) := do
  let key ← getKey keys level
  pure (chainKey chainedKey key, key)

/-- `buildKey` of an array of keys. -/
def joinKeys (keys : List String) : String := ":".intercalate keys

def ChainedObject.reversedKeys : ChainedObject → List String
  | top k _ => [k]
  | under k _ p => k :: p.reversedKeys

/-- `buildKey` of a chained object. -/
def buildKey (nodeRef : ChainedObject) : String := joinKeys nodeRef.reversedKeys.reverse

def splitKey (key : String) : List String := (key.toList.splitOn ':').map String.ofList

theorem ChainedObject.reversedKeys_reverse (nodeRef : ChainedObject) :
    nodeRef.reversedKeys.reverse = nodeRef.keys := by
  induction nodeRef with
  | top k l => rfl
  | under k l p ih => simp [reversedKeys, keys, ih]

theorem buildKey_eq (nodeRef : ChainedObject) : buildKey nodeRef = joinKeys nodeRef.keys := by
  rw [buildKey, ChainedObject.reversedKeys_reverse]

/-! ## Colon-free keys -/

def ColonFree (key : String) : Prop := ':' ∉ key.toList

instance (key : String) : Decidable (ColonFree key) := inferInstanceAs (Decidable (':' ∉ key.toList))

/-- Keys that can be joined and split again. -/
def ProperKey (key : String) : Prop := key ≠ "" ∧ ColonFree key

instance (key : String) : Decidable (ProperKey key) :=
  inferInstanceAs (Decidable (key ≠ "" ∧ ColonFree key))

/-- A key that is data at every level: non-empty, without the separator, and not a
name every object inherits. -/
structure PlainKey (key : String) : Prop where
  nonempty : key ≠ ""
  colonFree : ColonFree key
  notInherited : key ∉ inheritedNames

instance (key : String) : Decidable (PlainKey key) :=
  decidable_of_iff (key ≠ "" ∧ ColonFree key ∧ key ∉ inheritedNames)
    ⟨fun h => ⟨h.1, h.2.1, h.2.2⟩, fun h => ⟨h.1, h.2, h.3⟩⟩

def PlainPath (path : List String) : Prop := ∀ key ∈ path, PlainKey key

instance (path : List String) : Decidable (PlainPath path) :=
  inferInstanceAs (Decidable (∀ key ∈ path, PlainKey key))

theorem PlainPath.take {path : List String} (plain : PlainPath path) (n : Nat) :
    PlainPath (path.take n) :=
  fun key member => plain key (List.mem_of_mem_take member)

theorem PlainPath.proper {path : List String} (plain : PlainPath path) : ∀ key ∈ path, ProperKey key :=
  fun key member => ⟨(plain key member).nonempty, (plain key member).colonFree⟩

theorem toList_joinKeys (keys : List String) :
    (joinKeys keys).toList = [':'].intercalate (keys.map String.toList) := by
  rw [joinKeys, String.toList_intercalate]
  rfl

theorem splitKey_joinKeys (keys : List String) (nonempty : keys ≠ [])
    (colonFree : ∀ key ∈ keys, ColonFree key) : splitKey (joinKeys keys) = keys := by
  have free : ∀ l ∈ keys.map String.toList, ':' ∉ l := by
    intro l member
    obtain ⟨key, hkey, rfl⟩ := List.mem_map.mp member
    exact colonFree key hkey
  have listed : keys.map String.toList ≠ [] := by simpa using nonempty
  rw [splitKey, toList_joinKeys, List.splitOn_intercalate ':' free listed, List.map_map]
  calc keys.map (String.ofList ∘ String.toList) = keys.map id :=
        List.map_congr_left fun key _ => String.ofList_toList
    _ = keys := List.map_id keys

theorem joinKeys_injective (left right : List String) (leftNonempty : left ≠ [])
    (rightNonempty : right ≠ []) (leftFree : ∀ key ∈ left, ColonFree key)
    (rightFree : ∀ key ∈ right, ColonFree key) (same : joinKeys left = joinKeys right) :
    left = right := by
  rw [← splitKey_joinKeys left leftNonempty leftFree, same,
    splitKey_joinKeys right rightNonempty rightFree]

/-- A key has at least one colon less than components. -/
theorem colons_joinKeys (keys : List String) (nonempty : keys ≠ []) :
    (joinKeys keys).toList.count ':' + 1 =
      keys.length + (keys.map fun key => key.toList.count ':').sum := by
  rw [toList_joinKeys]
  induction keys with
  | nil => exact absurd rfl nonempty
  | cons key rest ih =>
      cases rest with
      | nil =>
          simp [List.intercalate]
          omega
      | cons second rest =>
          have later := ih (by simp)
          have one : List.count ':' [':'] = 1 := by decide
          simp only [List.map_cons, List.intercalate, List.intersperse_cons_cons, List.flatten_cons,
            List.count_append, List.length_cons, List.sum_cons] at later ⊢
          omega

theorem splitKey_ne_nil (key : String) : splitKey key ≠ [] := by
  simp [splitKey, List.splitOn_ne_nil]

theorem joinKeys_splitKey (key : String) : joinKeys (splitKey key) = key := by
  apply String.toList_injective
  rw [toList_joinKeys, splitKey, List.map_map]
  have : (key.toList.splitOn ':').map (String.toList ∘ String.ofList) = key.toList.splitOn ':' :=
    calc (key.toList.splitOn ':').map (String.toList ∘ String.ofList) =
          (key.toList.splitOn ':').map id := List.map_congr_left fun l _ => String.toList_ofList
      _ = key.toList.splitOn ':' := List.map_id _
  rw [this, List.intercalate_splitOn]

theorem not_mem_of_mem_splitOn (sep : Char) : ∀ (chars part : List Char), part ∈ chars.splitOn sep →
    sep ∉ part := by
  intro chars
  induction chars with
  | nil =>
      intro part member
      rw [List.splitOn_nil, List.mem_singleton] at member
      rw [member]
      exact List.not_mem_nil
  | cons c chars ih =>
      intro part member
      rw [List.splitOn_cons_eq_if_modifyHead] at member
      split at member
      · rcases List.mem_cons.mp member with rfl | later
        · exact List.not_mem_nil
        · exact ih part later
      · rename_i other
        cases parts : chars.splitOn sep with
        | nil => exact absurd parts (List.splitOn_ne_nil sep chars)
        | cons first rest =>
            rw [parts, List.modifyHead_cons] at member
            rcases List.mem_cons.mp member with rfl | later
            · have inFirst := ih first (by rw [parts]; exact List.mem_cons_self)
              rw [List.mem_cons, not_or]
              exact ⟨fun same => other (by simp [same]), inFirst⟩
            · exact ih part (by rw [parts]; exact List.mem_cons_of_mem _ later)

theorem colonFree_of_mem_splitKey (key k : String) (member : k ∈ splitKey key) : ColonFree k := by
  obtain ⟨part, listed, rfl⟩ := List.mem_map.mp member
  rw [ColonFree, String.toList_ofList]
  exact not_mem_of_mem_splitOn ':' key.toList part listed

theorem joinKeys_singleton (key : String) : joinKeys [key] = key := by
  apply String.toList_injective
  simp [toList_joinKeys, List.intercalate]

theorem joinKeys_append_singleton (keys : List String) (key : String) (nonempty : keys ≠ []) :
    joinKeys (keys ++ [key]) = joinKeys keys ++ ":" ++ key := by
  apply String.toList_injective
  rw [toList_joinKeys, String.toList_append, String.toList_append, toList_joinKeys]
  induction keys with
  | nil => exact absurd rfl nonempty
  | cons head rest ih =>
      cases rest with
      | nil => simp [List.intercalate, List.intersperse]
      | cons next tail =>
          have tailCase := ih (by simp)
          simp only [List.intercalate, List.map_cons, List.map_append, List.cons_append,
            List.map_nil, List.intersperse_cons_cons, List.flatten_cons] at tailCase ⊢
          rw [tailCase]
          simp

theorem exists_append_singleton {A : Type} (list : List A) (nonempty : list ≠ []) :
    ∃ front last, list = front ++ [last] :=
  ⟨list.dropLast, list.getLast nonempty, (List.dropLast_append_getLast nonempty).symm⟩

theorem joinKeys_ne_empty (keys : List String) (nonempty : keys ≠ [])
    (keyNonempty : ∀ key ∈ keys, key ≠ "") : joinKeys keys ≠ "" := by
  obtain ⟨front, last, rfl⟩ := exists_append_singleton keys nonempty
  have lastNonempty : last ≠ "" := keyNonempty last (by simp)
  by_cases hfront : front = []
  · subst hfront
    simpa [joinKeys_singleton] using lastNonempty
  · rw [joinKeys_append_singleton front last hfront]
    intro h
    have := congrArg String.toList h
    simp at this

/-- The chained key after the first `n` levels. -/
def prefixKey (path : List String) : Nat → Option String
  | 0 => none
  | n + 1 => some (joinKeys (path.take (n + 1)))

theorem getChainedKey_prefix (path : List String) (n : Nat) (key : String)
    (keyNonempty : ∀ key ∈ path, key ≠ "") (found : path[n]? = some key) :
    getChainedKey path n (prefixKey path n) = .ok (joinKeys (path.take (n + 1)), key) := by
  have taken : path.take (n + 1) = path.take n ++ [key] := by
    rw [List.take_add_one, found]
    rfl
  have getKey_ok : getKey path n = .ok key := by simp [getKey, found]
  cases n with
  | zero =>
      have : path.take 1 = [key] := by simpa using taken
      simp [getChainedKey, getKey_ok, prefixKey, chainKey, this, joinKeys_singleton, bind,
        Except.bind, pure, Except.pure]
  | succ n =>
      have bound : n + 1 < path.length := (List.getElem?_eq_some_iff.mp found).1
      have listed : path.take (n + 1) ≠ [] := by
        intro h
        rw [List.take_eq_nil_iff] at h
        rcases h with h | h
        · omega
        · simp [h] at bound
      have truthy : joinKeys (path.take (n + 1)) ≠ "" :=
        joinKeys_ne_empty _ listed fun key member =>
          keyNonempty key (List.mem_of_mem_take member)
      rw [taken, joinKeys_append_singleton _ _ listed]
      simp [getChainedKey, getKey_ok, prefixKey, chainKey, truthy, bind, Except.bind, pure,
        Except.pure]

/-! ## Keys of a writer -/

/-- The chained key a writer arrives at. -/
def chainedKeyOf (keys : List String) : Option String :=
  keys.foldl (fun chainedKey key => some (chainKey chainedKey key)) none

theorem chainedKeyOf_take_succ (path : List String) (n : Nat) (bound : n < path.length) :
    chainedKeyOf (path.take (n + 1)) = some (chainKey (chainedKeyOf (path.take n)) path[n]) := by
  rw [List.take_add_one, List.getElem?_eq_getElem bound]
  simp only [chainedKeyOf, Option.toList_some, List.foldl_append, List.foldl_cons, List.foldl_nil]

theorem getChainedKey_chainedKeyOf (path : List String) (n : Nat) (bound : n < path.length) :
    getChainedKey path n (chainedKeyOf (path.take n)) =
      .ok (chainKey (chainedKeyOf (path.take n)) path[n], path[n]) := by
  simp [getChainedKey, getKey, List.getElem?_eq_getElem bound, Bind.bind, Except.bind, pure,
    Except.pure]

/-- Without empty keys the chained key is the one the readers use. -/
theorem chainedKeyOf_eq_joinKeys (path : List String) (nonempty : ∀ key ∈ path, key ≠ "") :
    ∀ n, n < path.length → chainedKeyOf (path.take (n + 1)) = some (joinKeys (path.take (n + 1))) := by
  intro n
  induction n with
  | zero =>
      intro bound
      have found : path[0]? = some path[0] := List.getElem?_eq_getElem bound
      have chained := getChainedKey_prefix path 0 path[0] nonempty found
      have own := getChainedKey_chainedKeyOf path 0 bound
      rw [chainedKeyOf_take_succ path 0 bound]
      exact congrArg some (Prod.mk.inj (Except.ok.inj (own.symm.trans chained))).1
  | succ n ih =>
      intro bound
      have found : path[n + 1]? = some path[n + 1] := List.getElem?_eq_getElem bound
      have chained := getChainedKey_prefix path (n + 1) path[n + 1] nonempty found
      have own := getChainedKey_chainedKeyOf path (n + 1) bound
      rw [chainedKeyOf_take_succ path (n + 1) bound]
      rw [ih (by omega)] at own ⊢
      exact congrArg some (Prod.mk.inj (Except.ok.inj (own.symm.trans chained))).1

end TreeKeyCache
