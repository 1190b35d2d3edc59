import TreeKeyCache.Lib.Entries
import Mathlib.Algebra.Order.Ring.Rat
import Mathlib.Data.Rat.Defs

/-! # Data model

Trees of serialized values (`types/tree-type.ts`), steps and chained objects, the
serializers and options a cache is built from (`types/key-tree-cache-options.ts`).

JavaScript numbers are exact rationals here: clock readings and deadlines are in
milliseconds, ttls in seconds.  `undefined` is `none`, and so is a `null` that the code
does not tell from it.  `fullTreeSet` does tell them apart: a `null` among the values is
a value for which `isNull` holds.  Whatever a caller supplies (serializers, callbacks)
may throw, so it returns an `Except`. -/
set_option autoImplicit false
namespace TreeKeyCache

/-- What an operation can reject with: the errors the library raises itself and
those of the code it calls. -/
inductive Err where
  | typeError (message : String)
  | error (message : String)
  | thrown (message : String)
deriving DecidableEq, Repr

/-- What the code asks of a serialized value: its truthiness and `===`.  Strict
equality of strings is equality; for objects it is identity, so that two values
of equal content need not compare equal. -/
class SerializedForm (R : Type) where
  truthy : R → Bool
  same : R → R → Bool
  same_eq : ∀ a b, same a b = true → a = b

/-- A primitive form is compared by content. -/
class PrimitiveForm (R : Type) extends SerializedForm R where
  same_refl : ∀ a : R, same a a = true

instance : PrimitiveForm String where
  truthy s := s ≠ ""
  same a b := a = b
  same_eq _ _ h := of_decide_eq_true h
  same_refl _ := decide_eq_true rfl

/-- `Tree<R>`: value, deadline and children.  A child property may be present and
undefined. -/
inductive Tree (R : Type) where
  | mk (value : Option R) (deadline : Option ℚ)
      (children : Option (List (String × Option (Tree R))))

abbrev TreeChildren (R : Type) := List (String × Option (Tree R))

namespace Tree
variable {R : Type}

def value : Tree R → Option R
  | mk v _ _ => v

def deadline : Tree R → Option ℚ
  | mk _ d _ => d

def children : Tree R → Option (TreeChildren R)
  | mk _ _ c => c

/-- The literal `{}`. -/
def empty : Tree R := mk none none none

def withValue : Tree R → Option R → Tree R
  | mk _ d c, v => mk v d c

def withDeadline : Tree R → Option ℚ → Tree R
  | mk v _ c, d => mk v d c

def withChildren : Tree R → Option (TreeChildren R) → Tree R
  | mk v d _, c => mk v d c

@[simp] theorem value_mk (v : Option R) (d : Option ℚ) (c : Option (TreeChildren R)) :
    (mk v d c).value = v := rfl
@[simp] theorem deadline_mk (v : Option R) (d : Option ℚ) (c : Option (TreeChildren R)) :
    (mk v d c).deadline = d := rfl
@[simp] theorem children_mk (v : Option R) (d : Option ℚ) (c : Option (TreeChildren R)) :
    (mk v d c).children = c := rfl
@[simp] theorem value_empty : (empty : Tree R).value = none := rfl
@[simp] theorem deadline_empty : (empty : Tree R).deadline = none := rfl
@[simp] theorem children_empty : (empty : Tree R).children = none := rfl
@[simp] theorem withValue_value (t : Tree R) (v : Option R) : (t.withValue v).value = v := by
  cases t; rfl
@[simp] theorem withValue_deadline (t : Tree R) (v : Option R) :
    (t.withValue v).deadline = t.deadline := by cases t; rfl
@[simp] theorem withValue_children (t : Tree R) (v : Option R) :
    (t.withValue v).children = t.children := by cases t; rfl
@[simp] theorem withDeadline_value (t : Tree R) (d : Option ℚ) :
    (t.withDeadline d).value = t.value := by cases t; rfl
@[simp] theorem withDeadline_deadline (t : Tree R) (d : Option ℚ) :
    (t.withDeadline d).deadline = d := by cases t; rfl
@[simp] theorem withDeadline_children (t : Tree R) (d : Option ℚ) :
    (t.withDeadline d).children = t.children := by cases t; rfl
@[simp] theorem withChildren_value (t : Tree R) (c : Option (TreeChildren R)) :
    (t.withChildren c).value = t.value := by cases t; rfl
@[simp] theorem withChildren_deadline (t : Tree R) (c : Option (TreeChildren R)) :
    (t.withChildren c).deadline = t.deadline := by cases t; rfl
@[simp] theorem withChildren_children (t : Tree R) (c : Option (TreeChildren R)) :
    (t.withChildren c).children = c := by cases t; rfl

mutual
/-- A tree is an object of objects: no children map lists a key twice. -/
def wellFormed : Tree R → Bool
  | mk _ _ none => true
  | mk _ _ (some entries) => decide (Entries.Unique entries) && wellFormedEntries entries

def wellFormedEntries : TreeChildren R → Bool
  | [] => true
  | (_, none) :: rest => wellFormedEntries rest
  | (_, some t) :: rest => t.wellFormed && wellFormedEntries rest
end

theorem wellFormedEntries_iff : ∀ entries : TreeChildren R,
    wellFormedEntries entries = true ↔ ∀ k t, (k, some t) ∈ entries → t.wellFormed = true := by
  intro entries
  induction entries with
  | nil => simp [wellFormedEntries]
  | cons head rest ih =>
      obtain ⟨k, child⟩ := head
      cases child with
      | none => simp [wellFormedEntries, ih]
      | some t =>
          simp only [wellFormedEntries, Bool.and_eq_true, ih, List.mem_cons, Prod.mk.injEq,
            Option.some.injEq]
          constructor
          · rintro ⟨ht, hrest⟩ k' t' (⟨_, rfl⟩ | h)
            · exact ht
            · exact hrest k' t' h
          · intro h
            exact ⟨h k t (Or.inl ⟨rfl, rfl⟩), fun k' t' h' => h k' t' (Or.inr h')⟩

theorem wellFormed_iff (t : Tree R) :
    t.wellFormed = true ↔ ∀ entries, t.children = some entries →
      Entries.Unique entries ∧ ∀ k child, (k, some child) ∈ entries → child.wellFormed = true := by
  obtain ⟨v, d, c⟩ := t
  cases c with
  | none => simp [wellFormed]
  | some entries =>
      simp only [wellFormed, Bool.and_eq_true, decide_eq_true_eq, wellFormedEntries_iff,
        children_mk, Option.some.injEq]
      exact ⟨fun h es e => e ▸ h, fun h => h entries rfl⟩

@[simp] theorem wellFormed_empty : (empty : Tree R).wellFormed = true := rfl

theorem sizeOf_lt_of_mem_children (v : Option R) (d : Option ℚ) (entries : TreeChildren R)
    (k : String) (child : Tree R) (member : (k, some child) ∈ entries) :
    sizeOf child < sizeOf (mk v d (some entries)) := by
  have entryLt := List.sizeOf_lt_of_mem member
  simp only [Prod.mk.sizeOf_spec, Option.some.sizeOf_spec, mk.sizeOf_spec] at entryLt ⊢
  omega

theorem induct {P : Tree R → Prop}
    (node : ∀ v d c, (∀ entries, c = some entries → ∀ k child, (k, some child) ∈ entries →
      P child) → P (mk v d c)) : ∀ t, P t
  | mk v d none => node v d none (fun _ h => by cases h)
  | mk v d (some entries) => node v d (some entries) (fun es e k child member =>
      have member' : (k, some child) ∈ entries := Option.some.inj e ▸ member
      have := sizeOf_lt_of_mem_children v d entries k child member'
      induct node child)
termination_by t => sizeOf t
decreasing_by simpa using this

/-- The own child stored under `key`. -/
def child (tree : Tree R) (key : String) : Option (Tree R) :=
  tree.children.bind fun entries => (entries.lookup key).join

def sub : Tree R → List String → Option (Tree R)
  | tree, [] => some tree
  | tree, key :: rest => (tree.child key).bind fun next => next.sub rest

@[simp] theorem sub_nil (tree : Tree R) : tree.sub [] = some tree := rfl
@[simp] theorem sub_cons (tree : Tree R) (key : String) (rest : List String) :
    tree.sub (key :: rest) = (tree.child key).bind fun next => next.sub rest := rfl
@[simp] theorem child_empty (key : String) : (empty : Tree R).child key = none := rfl

theorem wellFormed_child (tree child : Tree R) (key : String) (wellFormed : tree.wellFormed = true)
    (found : tree.child key = some child) : child.wellFormed = true := by
  unfold Tree.child at found
  cases listed : tree.children with
  | none => simp [listed] at found
  | some entries =>
      simp only [listed, Option.bind_some, Option.join_eq_some_iff] at found
      exact ((wellFormed_iff tree).mp wellFormed entries listed).2 key child
        (Entries.mem_of_lookup key (some child) entries found)

end Tree

structure Label (R : Type) where
  value : Option R
  deadline : Option ℚ

namespace Tree
variable {R : Type}

def label (tree : Tree R) : Label R := ⟨tree.value, tree.deadline⟩

def slot (tree : Tree R) (q : List String) : Option (Label R) := (tree.sub q).map label

/-- The same nodes at the same paths.  A child that is present and undefined counts for
nothing, nor does the order of the children: `JSON.stringify` drops the one, `JSON.parse`
need not keep the other. -/
def SameNodes (tree other : Tree R) : Prop := ∀ q, tree.slot q = other.slot q

theorem SameNodes.refl (tree : Tree R) : tree.SameNodes tree := fun _ => rfl

end Tree

/-- The names every plain object inherits from `Object.prototype`. -/
def inheritedNames : List String :=
  ["constructor", "__defineGetter__", "__defineSetter__", "hasOwnProperty",
    "__lookupGetter__", "__lookupSetter__", "isPrototypeOf", "propertyIsEnumerable",
    "toString", "valueOf", "__proto__", "toLocaleString"]

/-- What `children[key]` evaluates to: an own child, a shared object found through
the prototype chain (an object without value, deadline and children as long as
nobody assigned to it), or undefined. -/
inductive ChildRead (R : Type) where
  | own (tree : Tree R)
  | inherited
  | missing

def readChild {R : Type} (entries : TreeChildren R) (key : String) : ChildRead R :=
  match entries.lookup key with
  | some (some tree) => .own tree
  | some none => .missing
  | none => if key ∈ inheritedNames then .inherited else .missing

/-- `ChainedObject`: the path to a node, innermost key first. -/
inductive ChainedObject where
  | top (key : String) (level : Nat)
  | under (key : String) (level : Nat) (parentRef : ChainedObject)
deriving DecidableEq, Repr

namespace ChainedObject

/-- The object literal `{ key, level, parentRef }`. -/
def ofParent (key : String) (level : Nat) : Option ChainedObject → ChainedObject
  | none => top key level
  | some parent => under key level parent

def key : ChainedObject → String
  | top k _ => k
  | under k _ _ => k

def level : ChainedObject → Nat
  | top _ l => l
  | under _ l _ => l

def parentRef : ChainedObject → Option ChainedObject
  | top _ _ => none
  | under _ _ p => some p

/-- The keys on the way to the node, outermost first. -/
def keys : ChainedObject → List String
  | top k _ => [k]
  | under k _ p => p.keys ++ [k]

@[simp] theorem key_ofParent (k : String) (l : Nat) (p : Option ChainedObject) :
    (ofParent k l p).key = k := by cases p <;> rfl
@[simp] theorem level_ofParent (k : String) (l : Nat) (p : Option ChainedObject) :
    (ofParent k l p).level = l := by cases p <;> rfl
@[simp] theorem parentRef_ofParent (k : String) (l : Nat) (p : Option ChainedObject) :
    (ofParent k l p).parentRef = p := by cases p <;> rfl

end ChainedObject

/-- `Step<T>`. -/
structure Step (T : Type) where
  key : String
  value : Option T
  level : Nat
  nodeRef : ChainedObject
deriving DecidableEq, Repr

/-- `FullSetItem<R, T>`. -/
structure FullSetItem (T R : Type) extends Step T where
  oldValue : Option T
  currentSerialized : Option R

/-- `StepTtl<T>`: a number of seconds, or a function of the step. -/
inductive StepTtl (T : Type) where
  | seconds (ttl : ℚ)
  | perStep (ttl : Step T → Option ℚ)

/-- `ValueSerializer<T, R>` without the history methods. -/
structure ValueSerializer (T R : Type) where
  serialize : T → Except Err R
  deserialize : R → Except Err (Option T)

/-- `TreeSerializer<R>`.  Whatever it decodes is a JavaScript object. -/
structure TreeSerializer (R : Type) where
  serialize : Tree R → Except Err R
  deserialize : R → Except Err (Tree R)
  deserialize_wellFormed : ∀ r t, deserialize r = .ok t → t.wellFormed = true

/-- The merged options a cache works with, and which of the values is `null`. -/
structure Options (T R : Type) where
  keyLevelNodes : Nat
  valueSerializer : ValueSerializer T R
  treeSerializer : TreeSerializer R
  isNull : T → Bool := fun _ => false

/-- What `isUndefinedOrNull` leaves of a value. -/
def Options.given {T R : Type} (o : Options T R) (value : Option T) : Option T :=
  value.filter fun v => !o.isNull v

@[simp] theorem Options.given_none {T R : Type} (o : Options T R) : o.given none = none := rfl

theorem Options.eq_of_given {T R : Type} {o : Options T R} {value : Option T} {v : T}
    (given : o.given value = some v) : value = some v :=
  (Option.filter_eq_some_iff.mp given).1

/-- Options whose serializers never throw and obey the round-trip law: a serialized
value decodes to the value and a serialized tree to one with the same nodes.  The
serialized form of a value is truthy, and so is that of a tree other than `{}`.  No
value is `null`. -/
structure LawfulOptions (T R : Type) [SerializedForm R] extends Options T R where
  encode : T → R
  encodeTree : Tree R → R
  serialize_value : ∀ v, valueSerializer.serialize v = .ok (encode v)
  deserialize_value : ∀ v, valueSerializer.deserialize (encode v) = .ok (some v)
  truthy_value : ∀ v, SerializedForm.truthy (encode v) = true
  serialize_tree : ∀ t, treeSerializer.serialize t = .ok (encodeTree t)
  deserialize_tree : ∀ t, t.wellFormed = true →
    ∃ t', treeSerializer.deserialize (encodeTree t) = .ok t' ∧ t'.SameNodes t
  truthy_tree : ∀ t, SerializedForm.truthy (encodeTree t) = false → t = Tree.empty
  not_null : ∀ v, isNull v = false := by intro v; rfl

@[simp] theorem LawfulOptions.given_eq {T R : Type} [SerializedForm R] (o : LawfulOptions T R)
    (value : Option T) : o.toOptions.given value = value := by
  cases value with
  | none => rfl
  | some v => simp [Options.given, o.not_null]

abbrev CreateValue (T : Type) := ChainedObject → Except Err (Option T)

/-- JavaScript truthiness of an optional number. -/
def truthyNumber : Option ℚ → Bool
  | none => false
  | some x => x ≠ 0

@[simp] theorem truthyNumber_none : truthyNumber none = false := rfl

theorem truthyNumber_some_of_pos (x : ℚ) (h : 0 < x) : truthyNumber (some x) = true := by
  simp [truthyNumber, ne_of_gt h]

end TreeKeyCache
