import TreeKeyCache.AsyncTraversal
import TreeKeyCache.TraversalOrder

/-! # The lists that the traversals work through

`Queue` (`utils/graphs/queue.ts`), the array that serves as a stack, and the loop of
`treePreOrderTraversal` over either of them.  The nodes of a queue are numbered in the order
they are created. -/
set_option autoImplicit false
namespace TreeKeyCache

variable {A L R : Type}

/-! ## The linked queue -/

structure LinkedNode (A : Type) where
  value : A
  next : Option Nat

structure Queue (A : Type) where
  nodes : List (LinkedNode A)
  next : Option Nat
  last : Option Nat
  size : Nat

namespace Queue

def new : Queue A := ⟨[], none, none, 0⟩

def length (queue : Queue A) : Nat := queue.size

def push (queue : Queue A) (value : A) : Queue A :=
  let node := queue.nodes.length
  let nodes := queue.nodes ++ [⟨value, none⟩]
  match queue.last with
  | some last => ⟨nodes.modify last fun before => { before with next := some node }, queue.next,
      some node, queue.size + 1⟩
  | none => ⟨nodes, some node, some node, queue.size + 1⟩

def peek (queue : Queue A) : Option A :=
  (queue.next.bind fun node => queue.nodes[node]?).map LinkedNode.value

def pop (queue : Queue A) : Option A × Queue A :=
  match queue.next.bind fun node => queue.nodes[node]? with
  | none => (none, queue)
  | some node =>
      (some node.value, ⟨queue.nodes, node.next, if node.next.isNone then none else queue.last,
        queue.size - 1⟩)

/-- The nodes from `first` to `last` hold these values. -/
inductive Linked (nodes : List (LinkedNode A)) : Option Nat → Option Nat → List A → Prop where
  | nil : Linked nodes none none []
  | last (node : Nat) (value : A) (held : nodes[node]? = some ⟨value, none⟩) :
      Linked nodes (some node) (some node) [value]
  | cons (node after last : Nat) (value : A) (values : List A)
      (held : nodes[node]? = some ⟨value, some after⟩)
      (rest : Linked nodes (some after) (some last) values) :
      Linked nodes (some node) (some last) (value :: values)

/-- The values in the queue, the oldest first. -/
structure Holds (queue : Queue A) (values : List A) : Prop where
  linked : Linked queue.nodes queue.next queue.last values
  size : queue.size = values.length

theorem holds_new : (new : Queue A).Holds [] := ⟨.nil, rfl⟩

theorem Linked.last_held {nodes : List (LinkedNode A)} {first : Option Nat} {last : Nat}
    {values : List A} (linked : Linked nodes first (some last) values) :
    ∃ value, nodes[last]? = some ⟨value, none⟩ := by
  generalize ending : some last = final at linked
  induction linked with
  | nil => cases ending
  | last node value held =>
      obtain rfl := Option.some.inj ending
      exact ⟨value, held⟩
  | cons node after last' value values held rest ih => exact ih ending

theorem Linked.push {nodes : List (LinkedNode A)} {first last : Nat} {values : List A} (value : A)
    (linked : Linked nodes (some first) (some last) values) :
    Linked ((nodes ++ [(⟨value, none⟩ : LinkedNode A)]).modify last fun before =>
      { before with next := some nodes.length }) (some first) (some nodes.length)
        (values ++ [value]) := by
  generalize start : some first = front at linked
  generalize ending : some last = final at linked
  have short : ∀ {node : Nat} {held : LinkedNode A}, nodes[node]? = some held →
      (nodes ++ [(⟨value, none⟩ : LinkedNode A)])[node]? = some held := by
    intro node held found
    obtain ⟨inside, _⟩ := List.getElem?_eq_some_iff.mp found
    rw [List.getElem?_append_left inside, found]
  induction linked generalizing first with
  | nil => cases start
  | last node value' held =>
      obtain rfl := Option.some.inj ending
      obtain ⟨inside, _⟩ := List.getElem?_eq_some_iff.mp held
      apply Linked.cons last nodes.length nodes.length value' [value]
      · rw [List.getElem?_modify, short held]
        simp
      · apply Linked.last
        rw [List.getElem?_modify, List.getElem?_append_right (le_refl _), Nat.sub_self]
        simp [Nat.ne_of_lt inside]
  | cons node after last' value' values held rest ih =>
      obtain rfl := Option.some.inj ending
      obtain ⟨final, lastHeld⟩ := rest.last_held
      have apart : last ≠ node := by
        intro same
        rw [same, held] at lastHeld
        cases lastHeld
      apply Linked.cons node after nodes.length value' (values ++ [value]) _ (ih rfl rfl)
      rw [List.getElem?_modify, short held]
      simp [apart]

theorem Holds.push {queue : Queue A} {values : List A} (holds : queue.Holds values) (value : A) :
    (queue.push value).Holds (values ++ [value]) := by
  obtain ⟨nodes, next, last, size⟩ := queue
  obtain ⟨linked, counted⟩ := holds
  have size' : size + 1 = (values ++ [value]).length := by
    rw [List.length_append, List.length_singleton]
    exact congrArg (· + 1) counted
  cases linked with
  | nil =>
      refine ⟨Linked.last nodes.length value ?_, size'⟩
      exact List.getElem?_concat_length
  | last node value' held => exact ⟨(Linked.last node value' held).push value, size'⟩
  | cons node after last value' values held rest =>
      exact ⟨(Linked.cons node after last value' values held rest).push value, size'⟩

theorem Holds.pop {queue : Queue A} {value : A} {values : List A} (holds : queue.Holds (value :: values)) :
    ∃ queue', queue.pop = (some value, queue') ∧ queue'.Holds values := by
  obtain ⟨nodes, next, last, size⟩ := queue
  obtain ⟨linked, counted⟩ := holds
  have size' : size - 1 = values.length := by
    change size = values.length + 1 at counted
    rw [counted, Nat.add_sub_cancel]
  cases linked with
  | last node _ held =>
      refine ⟨⟨nodes, none, none, size - 1⟩, ?_, .nil, size'⟩
      rw [Queue.pop, Option.bind_some, held]
      rfl
  | cons node after last _ _ held rest =>
      refine ⟨⟨nodes, some after, some last, size - 1⟩, ?_, rest, size'⟩
      rw [Queue.pop, Option.bind_some, held]
      rfl

end Queue

/-! ## The loop over a list -/

/-- `SimpleList`: what the loop asks of a list. -/
structure SimpleList (L A : Type) where
  length : L → Nat
  push : L → A → L
  pop : L → Option A × L

def Queue.simpleList : SimpleList (Queue A) A := ⟨Queue.length, Queue.push, Queue.pop⟩

/-- An array that is pushed to and popped from at its end. -/
def arrayList : SimpleList (List A) A where
  length := List.length
  push items item := items ++ [item]
  pop items := (items.getLast?, items.dropLast)

/-- A list that holds entries, to be taken in this order. -/
structure SimpleList.Keeps (list : SimpleList L A) (order : Worklist.Order) (holds : L → List A → Prop) :
    Prop where
  length : ∀ l entries, holds l entries → list.length l = entries.length
  push : ∀ l entries a, holds l entries → holds (list.push l a) (order.push entries [a])
  pop : ∀ l a entries, holds l (a :: entries) → ∃ l', list.pop l = (some a, l') ∧ holds l' entries

theorem Queue.keeps : (Queue.simpleList : SimpleList (Queue A) A).Keeps .fifo Queue.Holds :=
  ⟨fun _ _ holds => holds.size, fun _ _ a holds => holds.push a, fun _ _ _ holds => holds.pop⟩

theorem arrayList_keeps : (arrayList : SimpleList (List A) A).Keeps .lifo
    fun items entries => entries = items.reverse := by
  refine ⟨?_, ?_, ?_⟩
  · rintro items _ rfl
    exact List.length_reverse.symm
  · rintro items _ a rfl
    change _ = (items ++ [a]).reverse
    rw [List.reverse_append]
    rfl
  · intro items a entries last
    have reversed : items = entries.reverse ++ [a] := by
      rw [← List.reverse_reverse items, ← last, List.reverse_cons]
    refine ⟨entries.reverse, ?_, (List.reverse_reverse entries).symm⟩
    change (items.getLast?, items.dropLast) = _
    rw [reversed, List.getLast?_concat, List.dropLast_concat]

theorem SimpleList.Keeps.push_all {list : SimpleList L A} {order : Worklist.Order}
    {holds : L → List A → Prop} (keeps : list.Keeps order holds) : ∀ (new : List A) (l : L)
      (entries : List A), holds l entries → holds (new.foldl list.push l) (order.push entries new) := by
  intro new
  induction new with
  | nil =>
      intro l entries held
      have same : order.push entries [] = entries := by
        cases order with
        | fifo => exact List.append_nil entries
        | lifo => rfl
      rw [same]
      exact held
  | cons a new ih =>
      intro l entries held
      have pushed := ih _ _ (keeps.push l entries a held)
      rw [Worklist.Order.push_append, List.singleton_append] at pushed
      exact pushed

/-- The loop of `treePreOrderTraversal`, unless it goes on after `rounds`. -/
def preOrderLoop (list : SimpleList L (Pending R)) (now : ℚ) :
    Nat → L → Option (Yielded (TraversalItem R))
  | 0, _ => none
  | rounds + 1, l =>
      if list.length l = 0 then some ⟨[], none⟩
      else
        match list.pop l with
        | (none, _) =>
            some ⟨[], some (.typeError "Something went wrong processing list structure")⟩
        | (some entry, popped) =>
            (preOrderLoop list now rounds (entry.next.foldl list.push popped)).map fun later =>
              ⟨(entry.item now).toList ++ later.items, later.error⟩

/-- `treePreOrderTraversal` over a list that is empty at first. -/
def treePreOrderTraversalOver (list : SimpleList L (Pending R)) (empty : L) (now : ℚ) (root : Tree R)
    (startParentRef : Option ChainedObject) : Option (Yielded (TraversalItem R)) :=
  let start := startParentRef.map fun ref =>
    createTraversalItem ref.key ref.level ref.parentRef root now
  (preOrderLoop list now (root.size + 1) (list.push empty (startEntry root startParentRef))).map
    fun later => ⟨start.toList ++ later.items, later.error⟩

theorem preOrderLoop_eq {list : SimpleList L (Pending R)} {order : Worklist.Order}
    {holds : L → List (Pending R) → Prop} (keeps : list.Keeps order holds) (now : ℚ) :
    ∀ (rounds : Nat) (l : L) (entries : List (Pending R)), holds l entries →
      (entries.map fun entry => entry.treeRef.size).sum ≤ rounds →
        preOrderLoop list now (rounds + 1) l =
          some ⟨(Worklist.visit order Pending.next rounds entries).filterMap (Pending.item now), none⟩ := by
  intro rounds
  induction rounds with
  | zero =>
      intro l entries held enough
      cases entries with
      | nil => rw [preOrderLoop, keeps.length l [] held]; rfl
      | cons entry entries =>
          have positive := size_pos entry.treeRef
          rw [List.map_cons, List.sum_cons] at enough
          omega
  | succ rounds ih =>
      intro l entries held enough
      cases entries with
      | nil => rw [preOrderLoop, keeps.length l [] held]; rfl
      | cons entry entries =>
          obtain ⟨popped, pops, left⟩ := keeps.pop l entry entries held
          have lighter := entry.size_next
          have weights := order.sum_push (fun entry : Pending R => entry.treeRef.size) entries entry.next
          rw [List.map_cons, List.sum_cons] at enough
          have later := ih (entry.next.foldl list.push popped) (order.push entries entry.next)
            (keeps.push_all entry.next popped entries left) (by omega)
          rw [preOrderLoop, keeps.length l _ held, List.length_cons, if_neg (Nat.succ_ne_zero _), pops]
          simp only [later, Option.map_some]
          rw [Worklist.visit, List.filterMap_cons]
          cases entry.item now <;> rfl

theorem treePreOrderTraversalOver_eq {list : SimpleList L (Pending R)} {order : Worklist.Order}
    {holds : L → List (Pending R) → Prop} (keeps : list.Keeps order holds) (empty : L)
    (isEmpty : holds empty []) (now : ℚ) (root : Tree R) (startParentRef : Option ChainedObject) :
    treePreOrderTraversalOver list empty now root startParentRef =
      some ⟨treePreOrderTraversal order now root startParentRef, none⟩ := by
  have one : order.push [] [startEntry root startParentRef] = [startEntry root startParentRef] := by
    cases order <;> rfl
  have held := keeps.push empty [] (startEntry root startParentRef) isEmpty
  rw [one] at held
  have looped := preOrderLoop_eq keeps now root.size _ _ held
    (by rw [List.map_singleton, List.sum_singleton]; exact le_refl _)
  rw [treePreOrderTraversalOver, looped]
  rfl

end TreeKeyCache
