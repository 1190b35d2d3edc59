import TreeKeyCache.Types
import TreeKeyCache.Lib.PrefixCode

/-! # Serializers to text

A value serializer for numbers and a tree serializer, both to strings, that obey the
round-trip law.  They are what the library leaves to its users, and what the
instances of the theorems run on. -/
set_option autoImplicit false
namespace TreeKeyCache

open PrefixCode

namespace Text

def natCode : Code Char Nat := Code.nat 'i' '.' (by decide)

def stringCode : Code Char String :=
  (Code.word '-' '.' (by decide)).retract String.toList String.ofList fun s => String.ofList_toList

def intCode : Code Char Int :=
  (Code.pair natCode natCode).retract (fun z => (z.toNat, (-z).toNat))
    (fun p => (p.1 : Int) - p.2) fun z => by omega

def ratCode : Code Char ℚ :=
  (Code.pair intCode natCode).retract (fun x => (x.num, x.den)) (fun p => mkRat p.1 p.2)
    fun x => Rat.mkRat_self x

def valueCode : Code Char (Option String) := Code.option 'n' 's' (by decide) stringCode

def deadlineCode : Code Char (Option ℚ) := Code.option 'n' 's' (by decide) ratCode

mutual
def writeTree : Tree String → List Char
  | .mk v d none => valueCode.encode v ++ (deadlineCode.encode d ++ ['n'])
  | .mk v d (some entries) =>
      valueCode.encode v ++ (deadlineCode.encode d ++ 's' :: writeEntries entries)

def writeEntries : TreeChildren String → List Char
  | [] => ['.']
  | (key, none) :: rest => ',' :: (stringCode.encode key ++ 'n' :: writeEntries rest)
  | (key, some tree) :: rest =>
      ',' :: (stringCode.encode key ++ 's' :: (writeTree tree ++ writeEntries rest))
end

mutual
def readTree : Nat → List Char → Option (Tree String × List Char)
  | 0, _ => none
  | fuel + 1, word => do
      let (v, rest) ← valueCode.decode word
      let (d, rest) ← deadlineCode.decode rest
      match rest with
      | 'n' :: rest => pure (.mk v d none, rest)
      | 's' :: rest => do
          let (entries, rest) ← readEntries fuel rest
          pure (.mk v d (some entries), rest)
      | _ => none

def readEntries : Nat → List Char → Option (TreeChildren String × List Char)
  | 0, _ => none
  | fuel + 1, word =>
      match word with
      | '.' :: rest => some ([], rest)
      | ',' :: rest => do
          let (key, rest) ← stringCode.decode rest
          match rest with
          | 'n' :: rest => do
              let (entries, rest) ← readEntries fuel rest
              pure ((key, none) :: entries, rest)
          | 's' :: rest => do
              let (tree, rest) ← readTree fuel rest
              let (entries, rest) ← readEntries fuel rest
              pure ((key, some tree) :: entries, rest)
          | _ => none
      | _ => none
end

theorem readEntries_write (entries : TreeChildren String)
    (trees : ∀ key tree, (key, some tree) ∈ entries → ∀ fuel rest,
      (writeTree tree).length < fuel → readTree fuel (writeTree tree ++ rest) = some (tree, rest)) :
    ∀ fuel rest, (writeEntries entries).length < fuel + 1 →
      readEntries fuel (writeEntries entries ++ rest) = some (entries, rest) := by
  induction entries with
  | nil =>
      intro fuel rest bound
      cases fuel with
      | zero => simp [writeEntries] at bound
      | succ fuel => simp [writeEntries, readEntries]
  | cons head entries ih =>
      obtain ⟨key, child⟩ := head
      intro fuel rest bound
      cases fuel with
      | zero => cases child <;> simp [writeEntries] at bound
      | succ fuel =>
          have below := ih fun key' tree member => trees key' tree (List.mem_cons_of_mem _ member)
          cases child with
          | none =>
              simp only [writeEntries, List.length_cons, List.length_append] at bound
              have tail := below fuel rest (by omega)
              simp [writeEntries, readEntries, stringCode.decode_encode, tail]
          | some tree =>
              simp only [writeEntries, List.length_cons, List.length_append] at bound
              have first := trees key tree List.mem_cons_self fuel (writeEntries entries ++ rest)
                (by omega)
              have tail := below fuel rest (by omega)
              simp [writeEntries, readEntries, stringCode.decode_encode, first, tail]

theorem readTree_write (tree : Tree String) : ∀ fuel rest, (writeTree tree).length < fuel →
    readTree fuel (writeTree tree ++ rest) = some (tree, rest) := by
  induction tree using Tree.induct with
  | node v d c ih =>
      intro fuel rest bound
      cases fuel with
      | zero => omega
      | succ fuel =>
          cases c with
          | none =>
              simp [writeTree, readTree, valueCode.decode_encode, deadlineCode.decode_encode]
          | some entries =>
              simp only [writeTree, List.length_append, List.length_cons] at bound
              have below := readEntries_write entries (ih entries rfl) fuel rest (by omega)
              simp [writeTree, readTree, valueCode.decode_encode, deadlineCode.decode_encode, below]

/-- The text of a tree, undefined children included. -/
def spellTree (tree : Tree String) : String := String.ofList (writeTree tree)

/-- Only objects are decoded: a children map that lists a key twice is rejected. -/
def decodeTree (text : String) : Except Err (Tree String) :=
  match readTree (text.toList.length + 1) text.toList with
  | some (tree, []) =>
      if tree.wellFormed then .ok tree else .error (.thrown "duplicate key")
  | _ => .error (.thrown "not a tree")

theorem decodeTree_spellTree (tree : Tree String) (wellFormed : tree.wellFormed = true) :
    decodeTree (spellTree tree) = .ok tree := by
  have read := readTree_write tree ((writeTree tree).length + 1) [] (by omega)
  rw [List.append_nil] at read
  simp [decodeTree, spellTree, String.toList_ofList, read, wellFormed]

theorem decodeTree_wellFormed (text : String) (tree : Tree String)
    (decoded : decodeTree text = .ok tree) : tree.wellFormed = true := by
  unfold decodeTree at decoded
  split at decoded
  · split at decoded
    · rename_i wellFormed
      cases decoded
      exact wellFormed
    · cases decoded
  · cases decoded

theorem spellTree_ne_empty (tree : Tree String) : spellTree tree ≠ "" := by
  intro empty
  have written := congrArg String.toList empty
  obtain ⟨v, d, c⟩ := tree
  cases c <;> simp [spellTree, writeTree] at written

/-! ## Undefined children -/

mutual
/-- The tree without its undefined children. -/
def defined : Tree String → Tree String
  | .mk v d none => .mk v d none
  | .mk v d (some entries) => .mk v d (some (definedEntries entries))

def definedEntries : TreeChildren String → TreeChildren String
  | [] => []
  | (_, none) :: rest => definedEntries rest
  | (key, some tree) :: rest => (key, some (defined tree)) :: definedEntries rest
end

theorem label_defined (tree : Tree String) : (defined tree).label = tree.label := by
  obtain ⟨v, d, c⟩ := tree
  cases c <;> rfl

theorem keys_definedEntries (entries : TreeChildren String) :
    ((definedEntries entries).map Prod.fst).Sublist (entries.map Prod.fst) := by
  induction entries with
  | nil => exact List.Sublist.refl _
  | cons head rest ih =>
      obtain ⟨key, child⟩ := head
      cases child with
      | none => exact ih.cons key
      | some tree => exact ih.cons_cons key

theorem mem_definedEntries {key : String} {child : Tree String} {entries : TreeChildren String}
    (listed : (key, some child) ∈ definedEntries entries) :
    ∃ tree, (key, some tree) ∈ entries ∧ defined tree = child := by
  induction entries with
  | nil => cases listed
  | cons head rest ih =>
      obtain ⟨k, own⟩ := head
      cases own with
      | none =>
          obtain ⟨tree, member, same⟩ := ih listed
          exact ⟨tree, List.mem_cons_of_mem _ member, same⟩
      | some tree =>
          rcases List.mem_cons.mp listed with first | later
          · obtain ⟨rfl, same⟩ := Prod.mk.inj first
            exact ⟨tree, List.mem_cons_self, (Option.some.inj same).symm⟩
          · obtain ⟨tree', member, same⟩ := ih later
            exact ⟨tree', List.mem_cons_of_mem _ member, same⟩

theorem lookup_definedEntries (key : String) {entries : TreeChildren String}
    (unique : Entries.Unique entries) :
    ((definedEntries entries).lookup key).join = (entries.lookup key).join.map defined := by
  induction entries with
  | nil => rfl
  | cons head rest ih =>
      obtain ⟨k, child⟩ := head
      have later := ih (List.nodup_cons.mp unique).2
      cases here : key == k with
      | false => cases child <;> simp [definedEntries, List.lookup_cons, here, later]
      | true =>
          cases child with
          | some tree => simp [definedEntries, List.lookup_cons, here]
          | none =>
              have absent : (definedEntries rest).lookup key = none := by
                rw [List.lookup_eq_none_iff]
                intro entry member
                rw [bne_iff_ne]
                rintro rfl
                have listed := (keys_definedEntries rest).subset (List.mem_map_of_mem member)
                rw [beq_iff_eq.mp here] at listed
                exact (List.nodup_cons.mp unique).1 listed
              simp [definedEntries, List.lookup_cons, here, absent]

theorem defined_wellFormed (tree : Tree String) :
    tree.wellFormed = true → (defined tree).wellFormed = true := by
  induction tree using Tree.induct with
  | node v d c ih =>
      intro wellFormed
      cases c with
      | none => rfl
      | some entries =>
          obtain ⟨unique, below⟩ := (Tree.wellFormed_iff _).mp wellFormed entries rfl
          rw [Tree.wellFormed_iff]
          rintro _ ⟨⟩
          refine ⟨unique.sublist (keys_definedEntries entries), ?_⟩
          intro key child listed
          obtain ⟨tree, member, rfl⟩ := mem_definedEntries listed
          exact ih entries rfl key tree member (below key tree member)

theorem child_defined (tree : Tree String) (wellFormed : tree.wellFormed = true) (key : String) :
    (defined tree).child key = (tree.child key).map defined := by
  obtain ⟨v, d, c⟩ := tree
  cases c with
  | none => rfl
  | some entries =>
      exact lookup_definedEntries key ((Tree.wellFormed_iff _).mp wellFormed entries rfl).1

theorem defined_sameNodes (tree : Tree String) (wellFormed : tree.wellFormed = true) :
    (defined tree).SameNodes tree := by
  intro q
  induction q generalizing tree with
  | nil => simp [Tree.slot, label_defined]
  | cons key rest ih =>
      have here := child_defined tree wellFormed key
      simp only [Tree.slot, Tree.sub_cons, here] at ih ⊢
      cases found : tree.child key with
      | none => rfl
      | some child =>
          exact ih child (tree.wellFormed_child child key wellFormed found)

/-- Like `JSON.stringify`, it leaves undefined children out. -/
def encodeTree (tree : Tree String) : String := spellTree (defined tree)

theorem decodeTree_encodeTree (tree : Tree String) (wellFormed : tree.wellFormed = true) :
    decodeTree (encodeTree tree) = .ok (defined tree) :=
  decodeTree_spellTree _ (defined_wellFormed tree wellFormed)

theorem encodeTree_ne_empty (tree : Tree String) : encodeTree tree ≠ "" :=
  spellTree_ne_empty _

/-! ## A cache of numbers -/

def treeSerializer : TreeSerializer String where
  serialize tree := .ok (encodeTree tree)
  deserialize := decodeTree
  deserialize_wellFormed := decodeTree_wellFormed

def encodeNat (n : Nat) : String := String.ofList (natCode.encode n)

def decodeNat (text : String) : Except Err (Option Nat) :=
  match natCode.decode text.toList with
  | some (n, []) => .ok (some n)
  | _ => .error (.thrown "not a number")

theorem decodeNat_encodeNat (n : Nat) : decodeNat (encodeNat n) = .ok (some n) := by
  have read := natCode.decode_encode n []
  rw [List.append_nil] at read
  simp [decodeNat, encodeNat, String.toList_ofList, read]

def valueSerializer : ValueSerializer Nat String where
  serialize n := .ok (encodeNat n)
  deserialize := decodeNat

/-- A cache of numbers that stores text. -/
def options (keyLevelNodes : Nat) : LawfulOptions Nat String where
  keyLevelNodes := keyLevelNodes
  valueSerializer := valueSerializer
  treeSerializer := treeSerializer
  encode := encodeNat
  encodeTree := encodeTree
  serialize_value _ := rfl
  deserialize_value := decodeNat_encodeNat
  truthy_value n := by
    apply decide_eq_true
    intro empty
    have written := congrArg String.toList empty
    simp [encodeNat, natCode, Code.nat] at written
  serialize_tree _ := rfl
  deserialize_tree tree wellFormed :=
    ⟨defined tree, decodeTree_encodeTree tree wellFormed, defined_sameNodes tree wellFormed⟩
  truthy_tree tree falsy := absurd (of_decide_eq_false falsy) (not_not_intro (encodeTree_ne_empty tree))

theorem deserialize_encodeTree (keyLevelNodes : Nat) (tree : Tree String)
    (wellFormed : tree.wellFormed = true) (complete : defined tree = tree) :
    (options keyLevelNodes).treeSerializer.deserialize (encodeTree tree) = .ok tree := by
  change decodeTree (encodeTree tree) = .ok tree
  rw [decodeTree_encodeTree tree wellFormed, complete]

end Text

end TreeKeyCache
