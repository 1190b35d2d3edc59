import Mathlib.Data.List.Basic
import Mathlib.Data.List.Perm.Basic
import Mathlib.Algebra.Order.BigOperators.Group.List
import Mathlib.Algebra.Order.Ring.Nat

/-! # Worklists

A traversal takes the next entry from a list, handles it, and puts what comes after it
into the list, at one end or at the other. -/
set_option autoImplicit false
namespace Worklist

variable {A : Type}

inductive Order where
  | fifo
  | lifo
deriving DecidableEq

/-- The entries still to handle, in the order they are taken, after `new` ones were pushed
one by one. -/
def Order.push (order : Order) (pending new : List A) : List A :=
  match order with
  | fifo => pending ++ new
  | lifo => new.reverse ++ pending

/-- The entries handled within `fuel` rounds, in order. -/
def visit (order : Order) (next : A → List A) : Nat → List A → List A
  | 0, _ => []
  | _ + 1, [] => []
  | fuel + 1, a :: pending => a :: visit order next fuel (order.push pending (next a))

theorem Order.mem_push (order : Order) (pending new : List A) (a : A) :
    a ∈ order.push pending new ↔ a ∈ pending ∨ a ∈ new := by
  cases order with
  | fifo => exact List.mem_append
  | lifo =>
      rw [push, List.mem_append, List.mem_reverse]
      exact Or.comm

theorem Order.push_append (order : Order) (pending first second : List A) :
    order.push (order.push pending first) second = order.push pending (first ++ second) := by
  cases order with
  | fifo => exact List.append_assoc _ _ _
  | lifo => rw [push, push, push, List.reverse_append, List.append_assoc]

theorem visit_origin (order : Order) (next : A → List A) : ∀ (fuel : Nat) (pending : List A)
    (before : List A) (a : A) (after : List A),
      visit order next fuel pending = before ++ a :: after →
        a ∈ pending ∨ ∃ parent ∈ before, a ∈ next parent := by
  intro fuel
  induction fuel with
  | zero =>
      intro pending before a after visited
      exact absurd visited.symm (by simp [visit])
  | succ fuel ih =>
      intro pending before a after visited
      cases pending with
      | nil => exact absurd visited.symm (by simp [visit])
      | cons first pending =>
          rw [visit] at visited
          cases before with
          | nil =>
              rw [List.nil_append, List.cons.injEq] at visited
              rw [← visited.1]
              exact Or.inl List.mem_cons_self
          | cons head before =>
              rw [List.cons_append, List.cons.injEq] at visited
              obtain ⟨rfl, later⟩ := visited
              rcases ih _ before a after later with listed | ⟨parent, earlier, leads⟩
              · rcases (order.mem_push pending (next first) a).mp listed with old | new
                · exact Or.inl (List.mem_cons_of_mem _ old)
                · exact Or.inr ⟨first, List.mem_cons_self, new⟩
              · exact Or.inr ⟨parent, List.mem_cons_of_mem _ earlier, leads⟩

/-- A property of the entries at the start that is handed on holds of everything handled. -/
theorem visit_forall (order : Order) (next : A → List A) (P : A → Prop)
    (handed : ∀ a, P a → ∀ b ∈ next a, P b) : ∀ (fuel : Nat) (pending : List A),
      (∀ a ∈ pending, P a) → ∀ a ∈ visit order next fuel pending, P a := by
  intro fuel
  induction fuel with
  | zero =>
      intro pending _ a member
      cases member
  | succ fuel ih =>
      intro pending all a member
      cases pending with
      | nil => cases member
      | cons first pending =>
          have firstHolds : P first := all first List.mem_cons_self
          rcases List.mem_cons.mp member with rfl | later
          · exact firstHolds
          · refine ih _ (fun b listed => ?_) a later
            rcases (order.mem_push pending (next first) b).mp listed with old | new
            · exact all b (List.mem_cons_of_mem _ old)
            · exact handed first firstHolds b new

theorem visit_map {B : Type} (order : Order) (next : A → List A) (next' : B → List B) (f : A → B)
    (P : A → Prop) (handed : ∀ a, P a → ∀ b ∈ next a, P b)
    (agree : ∀ a, P a → next' (f a) = (next a).map f) : ∀ (fuel : Nat) (pending : List A),
      (∀ a ∈ pending, P a) →
        visit order next' fuel (pending.map f) = (visit order next fuel pending).map f := by
  intro fuel
  induction fuel with
  | zero => exact fun pending _ => rfl
  | succ fuel ih =>
      intro pending all
      cases pending with
      | nil => rfl
      | cons first pending =>
          have firstHolds : P first := all first List.mem_cons_self
          have pushed : order.push (pending.map f) (next' (f first)) =
              (order.push pending (next first)).map f := by
            rw [agree first firstHolds]
            cases order with
            | fifo => exact (List.map_append).symm
            | lifo => rw [Order.push, Order.push, List.map_append, List.map_reverse]
          rw [List.map_cons, visit, visit, List.map_cons, pushed, ih]
          intro b listed
          rcases (order.mem_push pending (next first) b).mp listed with old | new
          · exact all b (List.mem_cons_of_mem _ old)
          · exact handed first firstHolds b new

theorem Order.sum_push (order : Order) (weight : A → Nat) (pending new : List A) :
    ((order.push pending new).map weight).sum =
      (pending.map weight).sum + (new.map weight).sum := by
  cases order with
  | fifo => rw [push, List.map_append, List.sum_append]
  | lifo => rw [push, List.map_append, List.sum_append, List.map_reverse, List.sum_reverse, Nat.add_comm]

/-- When every entry weighs more than what it leads to, the weight of the list is enough fuel. -/
theorem visit_enough (order : Order) (next : A → List A) (weight : A → Nat)
    (heavier : ∀ a, ((next a).map weight).sum < weight a) : ∀ (fuel fuel' : Nat) (pending : List A),
      (pending.map weight).sum ≤ fuel → (pending.map weight).sum ≤ fuel' →
        visit order next fuel pending = visit order next fuel' pending := by
  intro fuel
  induction fuel with
  | zero =>
      intro fuel' pending enough enough'
      cases pending with
      | nil => cases fuel' <;> rfl
      | cons first pending =>
          have positive := heavier first
          rw [List.map_cons, List.sum_cons] at enough
          omega
  | succ fuel ih =>
      intro fuel' pending enough enough'
      cases pending with
      | nil => cases fuel' <;> rfl
      | cons first pending =>
          have positive := heavier first
          rw [List.map_cons, List.sum_cons] at enough enough'
          cases fuel' with
          | zero => omega
          | succ fuel' =>
              have weights := order.sum_push weight pending (next first)
              rw [visit, visit, ih fuel' _ (by omega) (by omega)]

/-! ## The order of the entries -/

/-- An entry and everything it leads to, the last one it leads to first. -/
def depthFirst (next : A → List A) : Nat → A → List A
  | 0, _ => []
  | depth + 1, a => a :: (next a).reverse.flatMap (depthFirst next depth)

section
variable (next : A → List A) (weight : A → Nat)
  (heavier : ∀ a, ((next a).map weight).sum < weight a)
include heavier

theorem weight_lt_of_mem_next {a b : A} (listed : b ∈ next a) : weight b < weight a :=
  Nat.lt_of_le_of_lt (List.single_le_sum (fun _ _ => Nat.zero_le _) _ (List.mem_map_of_mem listed))
    (heavier a)

theorem depthFirst_enough : ∀ (depth depth' : Nat) (a : A), weight a ≤ depth → weight a ≤ depth' →
    depthFirst next depth a = depthFirst next depth' a := by
  intro depth
  induction depth with
  | zero =>
      intro depth' a enough _
      have positive := heavier a
      omega
  | succ depth ih =>
      intro depth' a enough enough'
      have positive := heavier a
      cases depth' with
      | zero => omega
      | succ depth' =>
          rw [depthFirst, depthFirst]
          congr 1
          apply List.flatMap_congr
          intro b listed
          have lighter := weight_lt_of_mem_next next weight heavier (List.mem_reverse.mp listed)
          exact ih depth' b (by omega) (by omega)

theorem flatMap_next (depth : Nat) (a : A) (enough : weight a ≤ depth + 1) :
    (next a).reverse.flatMap (depthFirst next (depth + 1)) =
      (next a).reverse.flatMap (depthFirst next depth) := by
  apply List.flatMap_congr
  intro b listed
  have lighter := weight_lt_of_mem_next next weight heavier (List.mem_reverse.mp listed)
  exact depthFirst_enough next weight heavier _ _ b (by omega) (by omega)

theorem visit_lifo_eq (depth : Nat) : ∀ (fuel : Nat) (pending : List A),
    (pending.map weight).sum ≤ fuel → (∀ a ∈ pending, weight a ≤ depth) →
      visit .lifo next fuel pending = pending.flatMap (depthFirst next depth) := by
  intro fuel
  induction fuel with
  | zero =>
      intro pending enough _
      cases pending with
      | nil => rfl
      | cons first pending =>
          have positive := heavier first
          rw [List.map_cons, List.sum_cons] at enough
          omega
  | succ fuel ih =>
      intro pending enough shallow
      cases pending with
      | nil => rfl
      | cons first pending =>
          have positive := heavier first
          have weights := Order.sum_push .lifo weight pending (next first)
          have firstShallow := shallow first List.mem_cons_self
          rw [List.map_cons, List.sum_cons] at enough
          obtain ⟨below, rfl⟩ : ∃ below, depth = below + 1 := ⟨depth - 1, by omega⟩
          have later := ih (Order.push .lifo pending (next first)) (by omega) (by
            intro b listed
            rcases (Order.mem_push .lifo pending (next first) b).mp listed with old | new
            · exact shallow b (List.mem_cons_of_mem _ old)
            · have lighter := weight_lt_of_mem_next next weight heavier new
              omega)
          have children := flatMap_next next weight heavier below first firstShallow
          rw [visit, later, Order.push, List.flatMap_append, children, List.flatMap_cons, depthFirst,
            List.cons_append]

theorem visit_perm (order : Order) (depth : Nat) : ∀ (fuel : Nat) (pending : List A),
    (pending.map weight).sum ≤ fuel → (∀ a ∈ pending, weight a ≤ depth) →
      (visit order next fuel pending).Perm (pending.flatMap (depthFirst next depth)) := by
  intro fuel
  induction fuel with
  | zero =>
      intro pending enough _
      cases pending with
      | nil => exact .nil
      | cons first pending =>
          have positive := heavier first
          rw [List.map_cons, List.sum_cons] at enough
          omega
  | succ fuel ih =>
      intro pending enough shallow
      cases pending with
      | nil => exact .nil
      | cons first pending =>
          have positive := heavier first
          have weights := order.sum_push weight pending (next first)
          have firstShallow := shallow first List.mem_cons_self
          rw [List.map_cons, List.sum_cons] at enough
          obtain ⟨below, rfl⟩ : ∃ below, depth = below + 1 := ⟨depth - 1, by omega⟩
          have later := ih (order.push pending (next first)) (by omega) (by
            intro b listed
            rcases (order.mem_push pending (next first) b).mp listed with old | new
            · exact shallow b (List.mem_cons_of_mem _ old)
            · have lighter := weight_lt_of_mem_next next weight heavier new
              omega)
          have pushed : (order.push pending (next first)).Perm ((next first).reverse ++ pending) := by
            cases order with
            | fifo => exact (List.perm_append_comm).trans ((List.reverse_perm _).symm.append_right _)
            | lifo => exact .refl _
          have children := flatMap_next next weight heavier below first firstShallow
          rw [visit, List.flatMap_cons, depthFirst, List.cons_append, ← children,
            ← List.flatMap_append]
          exact (later.trans (pushed.flatMap_right _)).cons first

end

theorem visit_fifo_sorted (next : A → List A) (level : A → Nat)
    (deeper : ∀ a, ∀ b ∈ next a, level b = level a + 1) : ∀ (fuel : Nat) (pending : List A),
      pending.Pairwise (fun a b => level a ≤ level b ∧ level b ≤ level a + 1) →
        (visit .fifo next fuel pending).Pairwise fun a b => level a ≤ level b := by
  intro fuel
  induction fuel with
  | zero => exact fun pending _ => .nil
  | succ fuel ih =>
      intro pending close
      cases pending with
      | nil => exact .nil
      | cons first pending =>
          rw [List.pairwise_cons] at close
          have later : (pending ++ next first).Pairwise
              (fun a b => level a ≤ level b ∧ level b ≤ level a + 1) := by
            rw [List.pairwise_append]
            refine ⟨close.2, ?_, ?_⟩
            · apply List.pairwise_of_forall_mem_list
              intro a aListed b bListed
              rw [deeper first a aListed, deeper first b bListed]
              omega
            · intro a aListed b bListed
              have near := close.1 a aListed
              rw [deeper first b bListed]
              omega
          rw [visit, List.pairwise_cons]
          refine ⟨?_, ih _ later⟩
          apply visit_forall .fifo next (fun b => level first ≤ level b)
          · intro a above b listed
            rw [deeper a b listed]
            omega
          · intro a listed
            rcases List.mem_append.mp listed with old | new
            · exact (close.1 a old).1
            · rw [deeper first a new]
              omega

/-- What the entries lead to after so many steps, in the order of the entries. -/
def level (next : A → List A) : Nat → List A → List A
  | 0, pending => pending
  | n + 1, pending => level next n (pending.flatMap next)

theorem visit_fifo_append (next : A → List A) (fuel : Nat) : ∀ pending later : List A,
    visit .fifo next (pending.length + fuel) (pending ++ later) =
      pending ++ visit .fifo next fuel (later ++ pending.flatMap next) := by
  intro pending
  induction pending with
  | nil =>
      intro later
      rw [List.length_nil, Nat.zero_add, List.nil_append, List.flatMap_nil, List.append_nil,
        List.nil_append]
  | cons first pending ih =>
      intro later
      rw [List.length_cons, Nat.add_right_comm, List.cons_append, visit, Order.push,
        List.append_assoc, ih, List.append_assoc, List.flatMap_cons, List.cons_append]

theorem sum_flatMap_next (next : A → List A) (weight : A → Nat)
    (heavier : ∀ a, ((next a).map weight).sum < weight a) : ∀ pending : List A,
      ((pending.flatMap next).map weight).sum + pending.length ≤ (pending.map weight).sum := by
  intro pending
  induction pending with
  | nil => exact Nat.le_refl _
  | cons first pending ih =>
      have lighter := heavier first
      rw [List.flatMap_cons, List.map_append, List.sum_append, List.length_cons, List.map_cons,
        List.sum_cons]
      omega

theorem visit_fifo_levels (next : A → List A) (weight : A → Nat)
    (heavier : ∀ a, ((next a).map weight).sum < weight a) : ∀ (n fuel : Nat) (pending : List A),
      (pending.map weight).sum ≤ fuel → level next n pending = [] →
        visit .fifo next fuel pending = (List.range n).flatMap fun i => level next i pending := by
  intro n
  induction n with
  | zero =>
      intro fuel pending _ none
      rw [level] at none
      rw [none, List.range_zero, List.flatMap_nil]
      cases fuel <;> rfl
  | succ n ih =>
      intro fuel pending enough none
      have lighter := sum_flatMap_next next weight heavier pending
      have later := ih fuel (pending.flatMap next) (by omega) none
      have one := visit_fifo_append next fuel pending []
      rw [List.append_nil, List.nil_append, later] at one
      rw [visit_enough .fifo next weight heavier fuel (pending.length + fuel) pending enough (by omega),
        one, List.range_succ_eq_map, List.flatMap_cons, List.flatMap_map]
      rfl

end Worklist
