import Mathlib.Logic.Hydra
import Mathlib.Order.WellFounded

/-! # Systems that get done

The work a system has left is a multiset.  An action does one piece of it and may leave
smaller pieces in its place, or it is idle and leaves all work as it was.  Then a run has
finitely many actions that are not idle, and actions that are not idle lead from every
state to one where none is possible. -/
set_option autoImplicit false
namespace Progress

open Relation (CutExpand)

/-! ## Work that runs out -/

section
variable {Work : Type} {smaller : Work → Work → Prop}

theorem cutExpand_set {list : List Work} {i : Nat} {piece next : Work} {besides rest : Multiset Work}
    (found : list[i]? = some piece) (less : smaller next piece)
    (lesser : ∀ other ∈ besides, smaller other piece) :
    CutExpand smaller (↑(list.set i next) + (besides + rest)) (↑list + rest) := by
  refine ⟨next ::ₘ besides, piece, ?_, ?_⟩
  · intro other member
    rcases Multiset.mem_cons.mp member with rfl | besides
    · exact less
    · exact lesser other besides
  · obtain ⟨bound, rfl⟩ := List.getElem?_eq_some_iff.mp found
    have split : list = list.take i ++ list[i] :: list.drop (i + 1) := by
      rw [List.cons_getElem_drop_succ, List.take_append_drop]
    have replaced : list.set i next = list.take i ++ next :: list.drop (i + 1) :=
      List.set_eq_take_append_cons_drop.trans (if_pos bound)
    rw [replaced]
    nth_rewrite 4 [split]
    simp only [← Multiset.coe_add, ← Multiset.cons_coe, ← Multiset.singleton_add]
    ac_rfl

end

/-! ## Runs -/

section
variable {State Act : Type} (act : State → Act → Option State)

def exec : State → List Act → Option State
  | s, [] => some s
  | s, a :: rest => (act s a).bind fun next => exec next rest

variable {act}

theorem exec_invariant {invariant : State → Prop} {allowed : Act → Prop}
    (keeps : ∀ s a s', invariant s → allowed a → act s a = some s' → invariant s') :
    ∀ (schedule : List Act), (∀ a ∈ schedule, allowed a) → ∀ s final : State, invariant s →
      exec act s schedule = some final → invariant final := by
  intro schedule
  induction schedule with
  | nil =>
      intro _ s final holds ran
      obtain rfl := Option.some.inj ran
      exact holds
  | cons a rest ih =>
      intro permitted s final holds ran
      obtain ⟨next, acted, later⟩ := Option.bind_eq_some_iff.mp ran
      exact ih (fun b member => permitted b (List.mem_cons_of_mem _ member)) next final
        (keeps s a next holds (permitted a List.mem_cons_self) acted) later

variable (act)

/-- Every allowed action keeps the invariant; it is idle, or it takes from what is left. -/
structure Dwindles {M : Type} (less : M → M → Prop) (left : State → M) (invariant : State → Prop)
    (allowed idle : Act → Prop) : Prop where
  wellFounded : WellFounded less
  keeps : ∀ s a s', invariant s → allowed a → act s a = some s' → invariant s'
  idles : ∀ s a s', invariant s → idle a → act s a = some s' → left s' = left s
  works : ∀ s a s', invariant s → allowed a → ¬ idle a → act s a = some s' → less (left s') (left s)

variable {act} {M : Type} {less : M → M → Prop} {left : State → M} {invariant : State → Prop}
  {allowed idle : Act → Prop}

theorem Dwindles.settles (dwindles : Dwindles act less left invariant allowed idle)
    (states : ℕ → State) (actions : ℕ → Act)
    (runs : ∀ n, act (states n) (actions n) = some (states (n + 1)))
    (permitted : ∀ n, allowed (actions n)) (initially : invariant (states 0)) :
    ∃ N, ∀ n, N ≤ n → idle (actions n) := by
  have always : ∀ n, invariant (states n) := by
    intro n
    induction n with
    | zero => exact initially
    | succ n ih => exact dwindles.keeps _ _ _ ih (permitted n) (runs n)
  have later : ∀ m n, left (states n) = m → ∃ N, ∀ n, N ≤ n → idle (actions n) := by
    intro m
    induction m using dwindles.wellFounded.induction with
    | _ m ih =>
        intro n same
        by_cases done : ∀ k, n ≤ k → idle (actions k)
        · exact ⟨n, done⟩
        · -- what is left stays the same up to the first action that is not idle
          push Not at done
          classical
          obtain ⟨past, busy⟩ := Nat.find_spec done
          generalize found : Nat.find done = k at past busy
          have before : ∀ j, n ≤ j → j ≤ k → left (states j) = m := by
            intro j from_n
            induction j, from_n using Nat.le_induction with
            | base => exact fun _ => same
            | succ j from_n ih =>
                intro to_k
                have quiet : idle (actions j) := by
                  have early : ¬ (n ≤ j ∧ ¬ idle (actions j)) := Nat.find_min done (by omega)
                  by_contra busy
                  exact early ⟨from_n, busy⟩
                rw [dwindles.idles _ _ _ (always j) quiet (runs j)]
                exact ih (by omega)
          have lower := dwindles.works _ _ _ (always k) (permitted k) busy (runs k)
          rw [before k past (le_refl k)] at lower
          exact ih _ lower (k + 1) rfl
  exact later _ 0 rfl

theorem Dwindles.completes (dwindles : Dwindles act less left invariant allowed idle)
    (own : Act → Prop) (busy : ∀ a, own a → allowed a ∧ ¬ idle a) (s : State) (holds : invariant s) :
    ∃ schedule final, (∀ a ∈ schedule, own a) ∧ exec act s schedule = some final ∧
      invariant final ∧ ∀ a, own a → act final a = none := by
  generalize measure : left s = m
  induction m using dwindles.wellFounded.induction generalizing s with
  | _ m ih =>
      by_cases stuck : ∀ a, own a → act s a = none
      · exact ⟨[], s, fun _ none => (List.not_mem_nil none).elim, rfl, holds, stuck⟩
      · push Not at stuck
        obtain ⟨a, mine, possible⟩ := stuck
        obtain ⟨next, acted⟩ := Option.ne_none_iff_exists'.mp possible
        obtain ⟨permitted, working⟩ := busy a mine
        have lower := dwindles.works s a next holds permitted working acted
        rw [measure] at lower
        obtain ⟨schedule, final, own, ran, holds', stuck⟩ :=
          ih _ lower next (dwindles.keeps s a next holds permitted acted) rfl
        refine ⟨a :: schedule, final, ?_, ?_, holds', stuck⟩
        · intro b member
          rcases List.mem_cons.mp member with rfl | member
          · exact mine
          · exact own b member
        · rw [exec, acted]
          exact ran

end

end Progress
