import TreeKeyCache.Materialised
import TreeKeyCache.WorkingLists
import Mathlib.Algebra.Order.Ring.Int
import Mathlib.Data.List.Perm.Subperm

/-! # The queue of the asynchronous traversal

`AsyncQueue` (`utils/graphs/async/aync-queue.ts`) holds items and async iterators in one linked
list.  An iterator stays at the head until it is done, and is then dropped on a path of its own,
which leaves `size` as it is.  Iterators are numbered in the order they are created; what is left
of each is kept beside the nodes.  Items are never `undefined` and no iterators themselves. -/
set_option autoImplicit false
namespace TreeKeyCache

variable {A : Type}

inductive QueueValue (A : Type) where
  | item (value : A)
  | iterator (number : Nat)

structure AsyncQueue (A : Type) where
  nodes : List (LinkedNode (QueueValue A))
  next : Option Nat
  last : Option Nat
  size : Int
  /-- What each iterator has not handed out yet. -/
  iterators : List (List A)

namespace AsyncQueue

def new : AsyncQueue A := ⟨[], none, none, 0, []⟩

def length (queue : AsyncQueue A) : Int := queue.size

def removeNode (queue : AsyncQueue A) : AsyncQueue A :=
  match queue.next.bind fun node => queue.nodes[node]? with
  | none => queue
  | some node =>
      { queue with next := node.next, last := if node.next.isNone then none else queue.last }

/-- A new node behind the last one. -/
def pushNode (queue : AsyncQueue A) (treated : QueueValue A) : AsyncQueue A :=
  let node := queue.nodes.length
  let nodes := queue.nodes ++ [⟨treated, none⟩]
  match queue.last with
  | some last =>
      { queue with
        nodes := nodes.modify last fun before => { before with next := some node }
        last := some node
        size := queue.size + 1 }
  | none => { queue with nodes := nodes, next := some node, last := some node, size := queue.size + 1 }

/-- `push` of an item. -/
def push (queue : AsyncQueue A) (value : A) : AsyncQueue A := queue.pushNode (.item value)

/-- `push` of an async iterable: the node holds a new iterator. -/
def pushIterable (queue : AsyncQueue A) (items : List A) : AsyncQueue A :=
  { queue with iterators := queue.iterators ++ [items] }.pushNode (.iterator queue.iterators.length)

/-- An awaited `pop` with `asyncNext`, which call each other `fuel` times at most. -/
def popWithin : Nat → AsyncQueue A → Option (Option A × AsyncQueue A)
  | 0, _ => none
  | fuel + 1, queue =>
      match queue.next.bind fun node => queue.nodes[node]? with
      | none => some (none, queue)
      | some node =>
          match node.value with
          | .item value =>
              some (some value, { queue.removeNode with size := queue.size - 1 })
          | .iterator number =>
              match queue.iterators[number]? with
              | some (value :: rest) =>
                  some (some value, { queue with iterators := queue.iterators.set number rest })
              | _ => popWithin fuel queue.removeNode

/-- Every call takes a node away, and there are no more than have been pushed. -/
def pop (queue : AsyncQueue A) : Option (Option A × AsyncQueue A) :=
  popWithin (queue.nodes.length + 1) queue

end AsyncQueue

inductive QueueCall (A : Type) where
  | push (value : A)
  | pushIterable (items : List A)
  | pop

/-- The answers of the pops, oldest first, and the queue after the calls. -/
def AsyncQueue.run : List (QueueCall A) → AsyncQueue A → Option (List (Option A) × AsyncQueue A)
  | [], queue => some ([], queue)
  | .push value :: calls, queue => AsyncQueue.run calls (queue.push value)
  | .pushIterable items :: calls, queue => AsyncQueue.run calls (queue.pushIterable items)
  | .pop :: calls, queue => do
      let (answer, queue) ← queue.pop
      let (answers, queue) ← AsyncQueue.run calls queue
      pure (answer :: answers, queue)

/-! ## The nodes behind the links -/

namespace AsyncQueue

/-- The node that a linked value stands for. -/
def look (queue : AsyncQueue A) : QueueValue A → QueueNode A
  | .item value => .value value
  | .iterator number => .iterator ⟨(queue.iterators[number]?).getD [], none⟩

def numbers (values : List (QueueValue A)) : List Nat :=
  values.filterMap fun
    | .item _ => none
    | .iterator number => some number

/-- The list of nodes that the traversals are modelled with. -/
def list (queue : AsyncQueue A) (values : List (QueueValue A)) : AsyncSimpleList A :=
  .queue (values.map queue.look) queue.size.toNat

/-- Every iterator that was ever pushed counts for one, and so does every item in the list. -/
structure Holds (queue : AsyncQueue A) (values : List (QueueValue A)) : Prop where
  linked : Queue.Linked queue.nodes queue.next queue.last values
  short : values.length ≤ queue.nodes.length
  distinct : (numbers values).Nodup
  created : ∀ number ∈ numbers values, number < queue.iterators.length
  size : queue.size + (numbers values).length = values.length + queue.iterators.length

theorem holds_new : (new : AsyncQueue A).Holds [] :=
  ⟨.nil, le_refl _, List.nodup_nil, fun _ member => (nomatch member), rfl⟩

theorem linked_pushNode {queue : AsyncQueue A} {values : List (QueueValue A)}
    (linked : Queue.Linked queue.nodes queue.next queue.last values) (treated : QueueValue A) :
    Queue.Linked (queue.pushNode treated).nodes (queue.pushNode treated).next
      (queue.pushNode treated).last (values ++ [treated]) := by
  have holds : (⟨queue.nodes, queue.next, queue.last, values.length⟩ :
      Queue (QueueValue A)).Holds values := ⟨linked, rfl⟩
  have pushed := (holds.push treated).linked
  obtain ⟨nodes, next, last, size, iterators⟩ := queue
  cases last <;> exact pushed

theorem length_pushNode (queue : AsyncQueue A) (treated : QueueValue A) :
    (queue.pushNode treated).nodes.length = queue.nodes.length + 1 := by
  obtain ⟨nodes, next, last, size, iterators⟩ := queue
  cases last with
  | none => exact List.length_append
  | some last =>
      change ((nodes ++ [_]).modify last _).length = _
      rw [List.length_modify]
      exact List.length_append

theorem size_pushNode (queue : AsyncQueue A) (treated : QueueValue A) :
    (queue.pushNode treated).size = queue.size + 1 := by
  obtain ⟨nodes, next, last, size, iterators⟩ := queue
  cases last <;> rfl

theorem iterators_pushNode (queue : AsyncQueue A) (treated : QueueValue A) :
    (queue.pushNode treated).iterators = queue.iterators := by
  obtain ⟨nodes, next, last, size, iterators⟩ := queue
  cases last <;> rfl

theorem Holds.push {queue : AsyncQueue A} {values : List (QueueValue A)} (holds : queue.Holds values)
    (value : A) : (queue.push value).Holds (values ++ [.item value]) := by
  have same : numbers (values ++ [.item value]) = numbers values := by
    rw [numbers, List.filterMap_append]
    exact List.append_nil _
  refine ⟨linked_pushNode holds.linked _, ?_, ?_, ?_, ?_⟩
  · rw [List.length_append, AsyncQueue.push, length_pushNode]
    exact Nat.succ_le_succ holds.short
  · rw [same]
    exact holds.distinct
  · rw [same, AsyncQueue.push, iterators_pushNode]
    exact holds.created
  · rw [same, AsyncQueue.push, iterators_pushNode, size_pushNode, List.length_append,
      List.length_singleton]
    have counted := holds.size
    omega

theorem Holds.pushIterable {queue : AsyncQueue A} {values : List (QueueValue A)}
    (holds : queue.Holds values) (items : List A) :
    (queue.pushIterable items).Holds (values ++ [.iterator queue.iterators.length]) := by
  have more : numbers (values ++ [.iterator queue.iterators.length]) =
      numbers values ++ [queue.iterators.length] := by
    rw [numbers, List.filterMap_append]
    rfl
  have later : (queue.pushIterable items).iterators = queue.iterators ++ [items] :=
    iterators_pushNode _ _
  let created : AsyncQueue A := { queue with iterators := queue.iterators ++ [items] }
  have linked : Queue.Linked created.nodes created.next created.last values := holds.linked
  refine ⟨linked_pushNode linked _, ?_, ?_, ?_, ?_⟩
  · rw [List.length_append, AsyncQueue.pushIterable, length_pushNode]
    exact Nat.succ_le_succ holds.short
  · rw [more, List.nodup_append]
    refine ⟨holds.distinct, List.nodup_singleton _, ?_⟩
    intro number old other new same
    have small := holds.created number old
    rw [same, List.mem_singleton.mp new] at small
    exact Nat.lt_irrefl _ small
  · intro number member
    rw [later, List.length_append, List.length_singleton]
    rw [more] at member
    rcases List.mem_append.mp member with old | new
    · exact Nat.lt_succ_of_lt (holds.created number old)
    · rw [List.mem_singleton.mp new]
      exact Nat.lt_succ_self _
  · rw [more, later, AsyncQueue.pushIterable, size_pushNode]
    simp only [List.length_append, List.length_singleton]
    have counted := holds.size
    push_cast
    omega

theorem removeNode_of_linked {queue : AsyncQueue A} {value : QueueValue A}
    {values : List (QueueValue A)}
    (linked : Queue.Linked queue.nodes queue.next queue.last (value :: values)) :
    ∃ node, (queue.next.bind fun node => queue.nodes[node]?) = some node ∧ node.value = value ∧
      queue.removeNode = { queue with next := queue.removeNode.next, last := queue.removeNode.last } ∧
      Queue.Linked queue.nodes queue.removeNode.next queue.removeNode.last values := by
  obtain ⟨nodes, next, last, size, iterators⟩ := queue
  cases linked with
  | last node _ held =>
      refine ⟨⟨value, none⟩, held, rfl, ?_⟩
      rw [removeNode, Option.bind_some, held]
      exact ⟨rfl, .nil⟩
  | cons node after last _ _ held rest =>
      refine ⟨⟨value, some after⟩, held, rfl, ?_⟩
      rw [removeNode, Option.bind_some, held]
      exact ⟨rfl, rest⟩

/-- Taking an item from the iterator at the head changes what is left of this iterator only. -/
theorem look_set (queue : AsyncQueue A) (number : Nat) (rest : List A) (values : List (QueueValue A))
    (apart : number ∉ numbers values) :
    values.map ({ queue with iterators := queue.iterators.set number rest } : AsyncQueue A).look =
      values.map queue.look := by
  apply List.map_congr_left
  intro value member
  cases value with
  | item value => rfl
  | iterator other =>
      have differs : number ≠ other := by
        intro same
        exact apart (List.mem_filterMap.mpr ⟨.iterator other, member, congrArg some same.symm⟩)
      change QueueNode.iterator ⟨(((queue.iterators.set number rest)[other]?).getD []), none⟩ = _
      rw [List.getElem?_set_ne differs]
      rfl

theorem Holds.takeItem {queue : AsyncQueue A} {value : A} {values : List (QueueValue A)}
    (holds : queue.Holds (.item value :: values)) :
    ({ queue.removeNode with size := queue.size - 1 } : AsyncQueue A).Holds values := by
  obtain ⟨-, -, -, removed, linked⟩ := removeNode_of_linked holds.linked
  have counted : queue.size + ((numbers values).length : Int) =
      (values.length + 1 : Nat) + queue.iterators.length := holds.size
  rw [removed]
  refine ⟨linked, Nat.le_of_succ_le holds.short, holds.distinct, holds.created, ?_⟩
  change queue.size - 1 + ((numbers values).length : Int) = values.length + queue.iterators.length
  omega

theorem Holds.dropIterator {queue : AsyncQueue A} {number : Nat} {values : List (QueueValue A)}
    (holds : queue.Holds (.iterator number :: values)) : queue.removeNode.Holds values := by
  obtain ⟨-, -, -, removed, linked⟩ := removeNode_of_linked holds.linked
  have distinct : (number :: numbers values).Nodup := holds.distinct
  have counted : queue.size + ((numbers values).length + 1 : Nat) =
      (values.length + 1 : Nat) + (queue.iterators.length : Int) := holds.size
  rw [removed]
  refine ⟨linked, Nat.le_of_succ_le holds.short, (List.nodup_cons.mp distinct).2, ?_, ?_⟩
  · intro other member
    exact holds.created other (List.mem_cons_of_mem _ member)
  · change queue.size + ((numbers values).length : Int) = values.length + queue.iterators.length
    omega

theorem Holds.setIterator {queue : AsyncQueue A} {values : List (QueueValue A)}
    (holds : queue.Holds values) (number : Nat) (rest : List A) :
    ({ queue with iterators := queue.iterators.set number rest } : AsyncQueue A).Holds values := by
  refine ⟨holds.linked, holds.short, holds.distinct, ?_, ?_⟩
  · rw [List.length_set]
    exact holds.created
  · rw [List.length_set]
    exact holds.size

theorem pop_list_iterator (queue : AsyncQueue A) (number : Nat) (values : List (QueueValue A)) :
    (queue.list (.iterator number :: values)).pop =
      AsyncSimpleList.popQueue (.iterator ⟨(queue.iterators[number]?).getD [], none⟩ ::
        values.map queue.look) queue.size.toNat := rfl

theorem popWithin_refines : ∀ (values : List (QueueValue A)) (queue : AsyncQueue A) (fuel : Nat),
    queue.Holds values → values.length < fuel →
      ∃ answer queue' values', popWithin fuel queue = some (answer, queue') ∧
        (queue.list values).pop = .ok (answer, queue'.list values') ∧ queue'.Holds values' ∧
        queue'.iterators.length = queue.iterators.length := by
  intro values
  induction values with
  | nil =>
      intro queue fuel holds enough
      obtain ⟨fuel, rfl⟩ := Nat.exists_eq_succ_of_ne_zero (Nat.ne_of_gt enough)
      refine ⟨none, queue, [], ?_, rfl, holds, rfl⟩
      have empty : queue.next = none := by
        obtain ⟨linked, -, -, -, -⟩ := holds
        generalize queue.next = next, queue.last = last at linked ⊢
        cases linked
        rfl
      rw [popWithin, empty]
      rfl
  | cons value values ih =>
      intro queue fuel holds enough
      obtain ⟨fuel, rfl⟩ := Nat.exists_eq_succ_of_ne_zero (Nat.ne_of_gt (Nat.zero_lt_of_lt enough))
      obtain ⟨node, found, valued, removed, -⟩ := removeNode_of_linked holds.linked
      rw [popWithin, found]
      simp only [valued]
      cases value with
      | item value =>
          refine ⟨some value, _, values, rfl, ?_, holds.takeItem, ?_⟩
          · rw [removed]
            change Except.ok (some value, AsyncSimpleList.queue (values.map queue.look)
              (queue.size.toNat - 1)) = .ok (some value, .queue (values.map queue.look)
                (queue.size - 1).toNat)
            congr 3
            omega
          · rw [removed]
      | iterator number =>
          have distinct : (number :: numbers values).Nodup := holds.distinct
          have inside : number < queue.iterators.length :=
            holds.created number List.mem_cons_self
          have present := List.getElem?_eq_getElem inside
          rw [pop_list_iterator]
          cases left : queue.iterators[number] with
          | nil =>
              obtain ⟨answer, queue', values', popped, refines, holds', same⟩ :=
                ih queue.removeNode fuel holds.dropIterator (Nat.lt_of_succ_lt_succ enough)
              refine ⟨answer, queue', values', ?_, ?_, holds', ?_⟩
              · simp only [present, left]
                exact popped
              · rw [← refines, removed, present, left]
                rfl
              · rw [same, removed]
          | cons item rest =>
              refine ⟨some item, _, .iterator number :: values, ?_, ?_, holds.setIterator number rest,
                List.length_set⟩
              · simp only [present, left]
              · rw [present, left, list, List.map_cons,
                  look_set queue number rest values (List.nodup_cons.mp distinct).1, look,
                  List.getElem?_set_self inside]
                rfl

theorem Holds.pop {queue : AsyncQueue A} {values : List (QueueValue A)} (holds : queue.Holds values) :
    ∃ answer queue' values', queue.pop = some (answer, queue') ∧
      (queue.list values).pop = .ok (answer, queue'.list values') ∧ queue'.Holds values' ∧
      queue'.iterators.length = queue.iterators.length :=
  popWithin_refines values queue _ holds (Nat.lt_succ_of_le holds.short)

end AsyncQueue

/-! ## What is left after some calls -/

/-- The answers of a queue of single items. -/
def fifoAnswers : List (QueueCall A) → List A → List (Option A)
  | [], _ => []
  | .push value :: calls, items => fifoAnswers calls (items ++ [value])
  | .pushIterable more :: calls, items => fifoAnswers calls (items ++ more)
  | .pop :: calls, items => items.head? :: fifoAnswers calls items.tail

def leftByPop : List (QueueNode A) → List (QueueNode A)
  | [] => []
  | .value _ :: nodes => nodes
  | .iterator ⟨_ :: items, error⟩ :: nodes => .iterator ⟨items, error⟩ :: nodes
  | .iterator ⟨[], _⟩ :: nodes => leftByPop nodes

def QueueCall.leaves (nodes : List (QueueNode A)) : QueueCall A → List (QueueNode A)
  | .push value => nodes ++ [.value value]
  | .pushIterable items => nodes ++ [.iterator ⟨items, none⟩]
  | .pop => leftByPop nodes

/-- What was pushed, without the items that were popped and the iterables seen to be done. -/
def nodesLeft (calls : List (QueueCall A)) : List (QueueNode A) := calls.foldl QueueCall.leaves []

/-- The pops answer in the order of the pushes, and the length is zero on a drained queue only. -/
def QueueTellsTruth (calls : List (QueueCall A)) : Prop :=
  ∃ queue, AsyncQueue.run calls .new = some (fifoAnswers calls [], queue) ∧
    (queue.length = 0 ↔ queue.next = none)

def QueueCall.iterates : QueueCall A → Bool
  | .pushIterable _ => true
  | _ => false

theorem popQueue_leaves : ∀ (nodes : List (QueueNode A)) (size : Nat) (answer : Option A)
    (list : AsyncSimpleList A), AsyncSimpleList.popQueue nodes size = .ok (answer, list) →
      (∃ size', list = .queue (leftByPop nodes) size') ∧
      answer = (nodes.flatMap AsyncSimpleList.nodeContents).head? ∧
      (leftByPop nodes).flatMap AsyncSimpleList.nodeContents =
        (nodes.flatMap AsyncSimpleList.nodeContents).tail := by
  intro nodes
  induction nodes with
  | nil =>
      rintro size answer list ⟨⟩
      exact ⟨⟨size, rfl⟩, rfl, rfl⟩
  | cons node nodes ih =>
      intro size answer list popped
      cases node with
      | value a =>
          cases popped
          exact ⟨⟨size - 1, rfl⟩, rfl, rfl⟩
      | iterator rest =>
          obtain ⟨items, error⟩ := rest
          cases items with
          | nil =>
              cases error with
              | none => exact ih size answer list popped
              | some e => cases popped
          | cons item items =>
              cases popped
              exact ⟨⟨size, rfl⟩, rfl, rfl⟩

namespace AsyncQueue

theorem look_push (queue : AsyncQueue A) (value : A) (values : List (QueueValue A)) :
    (values ++ [QueueValue.item value]).map (queue.push value).look =
      values.map queue.look ++ [.value value] := by
  have same : (queue.push value).look = queue.look := by
    funext other
    cases other with
    | item => rfl
    | iterator number => rw [look, look, push, iterators_pushNode]
  rw [same, List.map_append]
  rfl

theorem Holds.look_pushIterable {queue : AsyncQueue A} {values : List (QueueValue A)}
    (holds : queue.Holds values) (items : List A) :
    (values ++ [QueueValue.iterator queue.iterators.length]).map (queue.pushIterable items).look =
      values.map queue.look ++ [.iterator ⟨items, none⟩] := by
  have later : (queue.pushIterable items).iterators = queue.iterators ++ [items] :=
    iterators_pushNode _ _
  rw [List.map_append]
  congr 1
  · apply List.map_congr_left
    intro value member
    cases value with
    | item => rfl
    | iterator number =>
        have old : number < queue.iterators.length :=
          holds.created number (List.mem_filterMap.mpr ⟨_, member, rfl⟩)
        rw [look, look, later, List.getElem?_append_left old]
  · rw [List.map_singleton, look, later, List.getElem?_concat_length]
    rfl

theorem run_follows : ∀ (calls : List (QueueCall A)) (queue : AsyncQueue A)
    (values : List (QueueValue A)), queue.Holds values →
      ∃ queue' values', AsyncQueue.run calls queue = some (fifoAnswers calls
          ((values.map queue.look).flatMap AsyncSimpleList.nodeContents), queue') ∧
        queue'.Holds values' ∧
        values'.map queue'.look = calls.foldl QueueCall.leaves (values.map queue.look) ∧
        queue'.iterators.length = queue.iterators.length + calls.countP QueueCall.iterates := by
  intro calls
  induction calls with
  | nil => exact fun queue values holds => ⟨queue, values, rfl, holds, rfl, rfl⟩
  | cons call calls ih =>
      intro queue values holds
      cases call with
      | push value =>
          obtain ⟨queue', values', ran, holds', left, created⟩ := ih _ _ (holds.push value)
          rw [look_push] at ran left
          rw [List.flatMap_append] at ran
          refine ⟨queue', values', ran, holds', left, ?_⟩
          rw [created, push, iterators_pushNode]
          rfl
      | pushIterable items =>
          obtain ⟨queue', values', ran, holds', left, created⟩ := ih _ _ (holds.pushIterable items)
          rw [holds.look_pushIterable] at ran left
          rw [List.flatMap_append, List.flatMap_singleton] at ran
          refine ⟨queue', values', ran, holds', left, ?_⟩
          rw [created, pushIterable, iterators_pushNode, List.length_append, List.countP_cons]
          change _ + 1 + _ = _ + (_ + 1)
          omega
      | pop =>
          obtain ⟨answer, popped, kept, pops, refines, holds', same⟩ := holds.pop
          obtain ⟨⟨size, lists⟩, first, rest⟩ := popQueue_leaves _ _ _ _ refines
          have nodes : kept.map popped.look = leftByPop (values.map queue.look) :=
            (AsyncSimpleList.queue.inj lists).1
          obtain ⟨queue', values', ran, holds'', left, created⟩ := ih popped kept holds'
          rw [nodes] at ran left
          rw [rest] at ran
          refine ⟨queue', values', ?_, holds'', left, ?_⟩
          · rw [AsyncQueue.run, pops, fifoAnswers, ← first]
            change (AsyncQueue.run calls popped >>= _) = _
            rw [ran]
            rfl
          · rw [created, same]
            rfl

end AsyncQueue

theorem AsyncQueue.Holds.drained {queue : AsyncQueue A} {values : List (QueueValue A)}
    (holds : queue.Holds values) : queue.next = none ↔ values = [] := by
  have linked := holds.linked
  generalize queue.next = next, queue.last = last at linked ⊢
  cases linked <;> simp

theorem AsyncQueue.Holds.length_ge {queue : AsyncQueue A} {values : List (QueueValue A)}
    (holds : queue.Holds values) : (values.length : Int) ≤ queue.length := by
  have within : numbers values ⊆ List.range queue.iterators.length :=
    fun number member => List.mem_range.mpr (holds.created number member)
  have few := (List.subperm_of_subset holds.distinct within).length_le
  rw [List.length_range] at few
  have counted := holds.size
  rw [AsyncQueue.length]
  omega

theorem run_length (calls : List (QueueCall A)) : ∃ queue values,
    AsyncQueue.run calls .new = some (fifoAnswers calls [], queue) ∧ queue.Holds values ∧
    values.map queue.look = nodesLeft calls ∧
    queue.length + (AsyncQueue.numbers values).length =
      (nodesLeft calls).length + calls.countP QueueCall.iterates := by
  obtain ⟨queue, values, ran, holds, left, created⟩ :=
    AsyncQueue.run_follows calls .new [] AsyncQueue.holds_new
  refine ⟨queue, values, ran, holds, left, ?_⟩
  have counted := holds.size
  have none : (AsyncQueue.new : AsyncQueue A).iterators.length = 0 := rfl
  have many : (nodesLeft calls).length = values.length := by
    rw [nodesLeft, ← List.map_nil, ← left, List.length_map]
  rw [created, none, Nat.zero_add] at counted
  rw [many]
  exact counted

theorem iterates_none (calls : List (QueueCall A)) :
    calls.countP QueueCall.iterates = 0 ↔ ∀ items, QueueCall.pushIterable items ∉ calls := by
  rw [List.countP_eq_zero]
  constructor
  · exact fun quiet items member => quiet _ member rfl
  · intro quiet call member
    cases call with
    | pushIterable items => exact absurd member (quiet items)
    | push | pop => exact Bool.false_ne_true

/-- The length of a drained queue counts the iterables that have gone through it. -/
theorem queueTellsTruth_iff (calls : List (QueueCall A)) : QueueTellsTruth calls ↔
    (∀ items, QueueCall.pushIterable items ∉ calls) ∨ nodesLeft calls ≠ [] := by
  obtain ⟨queue, values, ran, holds, left, counted⟩ := run_length calls
  have tells : QueueTellsTruth calls ↔ (queue.length = 0 ↔ queue.next = none) := by
    constructor
    · rintro ⟨other, ran', truth⟩
      rw [ran, Option.some.injEq, Prod.mk.injEq] at ran'
      rw [ran'.2]
      exact truth
    · exact fun truth => ⟨queue, ran, truth⟩
  have empty : nodesLeft calls = [] ↔ values = [] := by rw [← left, List.map_eq_nil_iff]
  have large := holds.length_ge
  rw [tells, holds.drained, ← iterates_none, Ne, empty]
  cases values with
  | nil =>
      rw [← left] at counted
      change queue.length + 0 = 0 + (calls.countP QueueCall.iterates : Int) at counted
      simp only [not_true, or_false, iff_true]
      omega
  | cons value values =>
      rw [List.length_cons] at large
      simp only [reduceCtorEq, not_false_eq_true, or_true, iff_true, iff_false]
      omega

theorem length_after_drained :
    ¬ ∀ calls : List (QueueCall Nat), QueueTellsTruth calls := by
  intro truth
  obtain ⟨queue, ran, told⟩ := truth [.pushIterable [5], .pop, .pop]
  obtain rfl : AsyncQueue.mk [⟨.iterator 0, none⟩] none none 1 [[]] = queue :=
    (Prod.mk.inj (Option.some.inj ran)).2
  exact absurd (told.mpr rfl) Int.one_ne_zero

end TreeKeyCache
