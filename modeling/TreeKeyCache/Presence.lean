import TreeKeyCache.Lookup
import TreeKeyCache.TextSerializers

/-! # Which nodes the two readers find

`iteratePath` and `getNode` decide in different ways whether a node is present.  Above
the tree level both ask whether the entry is truthy.  In a tree `iteratePath` asks whether
the value is undefined or null, and `getNode` whether it is truthy. -/
set_option autoImplicit false
namespace TreeKeyCache

variable {T R : Type} [SerializedForm R]

/-- `iteratePath(path)` yields the steps that `getNode` returns for the non-empty prefixes
of the path, shortest first. -/
def ReadersAgree (o : Options T R) (get : String → Option R) (now : ℚ) (path : List String) : Prop :=
  ∃ answers, (nonemptyPrefixes path).mapM (getNode o get now) = .ok answers ∧
    iteratePath o get now path = .ok (answers.filterMap id)

/-- Every live value on the path that is kept in a tree is truthy. -/
def TruthyInTree (o : Options T R) (get : String → Option R) (now : ℚ) (path : List String) : Prop :=
  ∀ n, o.keyLevelNodes ≤ n → n ≤ path.length → ∀ tree r, treeAt o get path = some tree →
    tree.valueAt now ((path.take n).drop o.keyLevelNodes) = some r → SerializedForm.truthy r = true

theorem mem_nonemptyPrefixes (path q : List String) :
    q ∈ nonemptyPrefixes path ↔ ∃ n, 0 < n ∧ n ≤ path.length ∧ q = path.take n := by
  rw [nonemptyPrefixes, prefixesFrom, List.mem_map]
  constructor
  · rintro ⟨n, member, rfl⟩
    have bounds := List.mem_range'_1.mp member
    exact ⟨n, by omega, by omega, rfl⟩
  · rintro ⟨n, positive, bound, rfl⟩
    exact ⟨n, List.mem_range'_1.mpr (by omega), rfl⟩

theorem mapM_ok {A B : Type} (f : A → Except Err B) (g : A → B) : ∀ items : List A,
    (∀ a ∈ items, f a = .ok (g a)) → items.mapM f = .ok (items.map g) := by
  intro items
  induction items with
  | nil => intro _; rfl
  | cons a rest ih =>
      intro each
      have tail := ih fun b member => each b (List.mem_cons_of_mem _ member)
      rw [List.mapM_cons, each a List.mem_cons_self, tail]
      rfl

section
variable (o : Options T R) (get : String → Option R) (now : ℚ) (path : List String)

def answerAt (q : List String) : Option (Step T) :=
  (truthy? (serializedAt o get now q)).map (stepFor o q)

theorem answers_eq (positive : 1 ≤ o.keyLevelNodes) :
    (nonemptyPrefixes path).mapM (getNode o get now) =
      .ok ((nonemptyPrefixes path).map (answerAt o get now)) := by
  refine mapM_ok _ _ _ fun q member => getNode_eq o get now q positive ?_
  obtain ⟨n, started, bound, rfl⟩ := (mem_nonemptyPrefixes path q).mp member
  intro empty
  have length : (path.take n).length = n := List.length_take_of_le bound
  rw [empty, List.length_nil] at length
  omega

theorem readersAgree_iff_filterMap (twoLevels : 2 ≤ o.keyLevelNodes) :
    ReadersAgree o get now path ↔
      (nonemptyPrefixes path).filterMap (stepAt o get now) =
        (nonemptyPrefixes path).filterMap (answerAt o get now) := by
  unfold ReadersAgree
  rw [answers_eq o get now path (by omega), iteratePath_eq o get now path twoLevels]
  constructor
  · rintro ⟨answers, same, yielded⟩
    obtain rfl := Except.ok.inj same
    rw [List.filterMap_map, Function.id_comp] at yielded
    exact Except.ok.inj yielded
  · intro same
    refine ⟨_, rfl, ?_⟩
    rw [same, List.filterMap_map, Function.id_comp]

theorem mem_answers {q : List String} {step : Step T} (member : q ∈ nonemptyPrefixes path)
    (level : step.level = q.length)
    (answered : step ∈ (nonemptyPrefixes path).filterMap (answerAt o get now)) :
    answerAt o get now q = some step := by
  obtain ⟨q', member', found⟩ := List.mem_filterMap.mp answered
  obtain ⟨n, started, bound, rfl⟩ := (mem_nonemptyPrefixes path q).mp member
  obtain ⟨n', started', bound', rfl⟩ := (mem_nonemptyPrefixes path q').mp member'
  obtain ⟨r, _, made⟩ := Option.map_eq_some_iff.mp found
  have nonempty : path.take n' ≠ [] := by
    intro empty
    have length : (path.take n').length = n' := List.length_take_of_le bound'
    rw [empty, List.length_nil] at length
    omega
  have sameLevel : step.level = (path.take n').length := by
    rw [← made]
    exact nodeRefOf_level _ nonempty
  rw [level, List.length_take_of_le bound, List.length_take_of_le bound'] at sameLevel
  rw [sameLevel]
  exact found

theorem answerAt_of_truthy {q : List String}
    (truthy : ∀ r, serializedAt o get now q = some r → SerializedForm.truthy r = true) :
    answerAt o get now q = stepAt o get now q := by
  unfold answerAt stepAt
  cases found : serializedAt o get now q with
  | none => rfl
  | some r => rw [truthy?, Option.filter_some_pos (truthy r found)]

theorem truthy_of_serializedAt (truthyInTree : TruthyInTree o get now path) {q : List String}
    (member : q ∈ nonemptyPrefixes path) (r : R) (found : serializedAt o get now q = some r) :
    SerializedForm.truthy r = true := by
  obtain ⟨n, started, bound, rfl⟩ := (mem_nonemptyPrefixes path q).mp member
  have length : (path.take n).length = n := List.length_take_of_le bound
  unfold serializedAt at found
  split at found
  · exact (Option.filter_eq_some_iff.mp found).2
  · rename_i deep
    rw [length, not_lt] at deep
    rw [treeAt_take o get path n deep] at found
    obtain ⟨tree, decoded, value⟩ := Option.bind_eq_some_iff.mp found
    exact truthyInTree n deep bound tree r decoded value

/-- The readers agree exactly when no live value on the path that is kept in a tree is
falsy. -/
theorem readers_agree_iff (twoLevels : 2 ≤ o.keyLevelNodes) :
    ReadersAgree o get now path ↔ TruthyInTree o get now path := by
  rw [readersAgree_iff_filterMap o get now path twoLevels]
  constructor
  · intro same n deep bound tree r decoded value
    have member : path.take n ∈ nonemptyPrefixes path :=
      (mem_nonemptyPrefixes path _).mpr ⟨n, by omega, bound, rfl⟩
    have length : (path.take n).length = n := List.length_take_of_le bound
    have found : serializedAt o get now (path.take n) = some r := by
      rw [serializedAt, if_neg (by omega), treeAt_take o get path n deep, decoded]
      exact value
    have yielded : stepFor o (path.take n) r ∈
        (nonemptyPrefixes path).filterMap (stepAt o get now) :=
      List.mem_filterMap.mpr ⟨path.take n, member, by rw [stepAt, found]; rfl⟩
    have level : (stepFor o (path.take n) r).level = (path.take n).length :=
      nodeRefOf_level _ (List.ne_nil_of_length_pos (by omega))
    rw [same] at yielded
    -- the step is among the answers, so the answer at its own prefix is not undefined
    have answered := mem_answers o get now path member level yielded
    rw [answerAt, found] at answered
    obtain ⟨r', kept, _⟩ := Option.map_eq_some_iff.mp answered
    obtain ⟨same', truthy⟩ := Option.filter_eq_some_iff.mp kept
    rw [Option.some.inj same']
    exact truthy
  · intro truthyInTree
    refine List.filterMap_congr fun q member => ?_
    exact (answerAt_of_truthy o get now fun r found =>
      truthy_of_serializedAt o get now path truthyInTree member r found).symm

end

namespace Text

def plainValues : ValueSerializer String String where
  serialize v := .ok v
  deserialize r := .ok (some r)

def plainOptions (keyLevelNodes : Nat) : Options String String :=
  ⟨keyLevelNodes, plainValues, treeSerializer, fun _ => false⟩

end Text

def oneNode (value : String) (key : String) : Option String :=
  if key = "a:b" then some (Text.encodeTree (.mk (some value) none none)) else none

theorem readers_agree_on_text : ReadersAgree (Text.plainOptions 2) (oneNode "x") 0 ["a", "b"] := by
  refine (readers_agree_iff (Text.plainOptions 2) (oneNode "x") 0 ["a", "b"] (by decide)).mpr ?_
  intro n deep bound tree r decoded value
  have two : n = 2 := le_antisymm bound deep
  rw [two] at value
  have stored : treeAt (Text.plainOptions 2) (oneNode "x") ["a", "b"] =
      some (.mk (some "x") none none) := by rfl
  obtain rfl := Option.some.inj (stored.symm.trans decoded)
  obtain rfl := Option.some.inj value
  rfl

/-- A node that holds the empty string is found by `iteratePath` only. -/
theorem readers_disagree_on_empty_string :
    ¬ ReadersAgree (Text.plainOptions 2) (oneNode "") 0 ["a", "b"] := by
  rintro ⟨answers, same, yielded⟩
  have none : ((nonemptyPrefixes ["a", "b"]).mapM
      (getNode (Text.plainOptions 2) (oneNode "") 0)).toOption = some [none, none] := by decide +kernel
  have one : ((iteratePath (Text.plainOptions 2) (oneNode "") 0 ["a", "b"]).map
      List.length).toOption = some 1 := by decide +kernel
  rw [same] at none
  obtain rfl := Option.some.inj none
  rw [yielded] at one
  cases one

end TreeKeyCache
