import Mathlib.Data.List.Basic
import Mathlib.Logic.Function.Basic

/-! # A shared table of promises

Programs ask a table for the answer to a key.  The first one to ask starts a computation of its
own and leaves a promise in the table; whoever asks later, before or after the promise is
settled, waits for the same promise.  When every program would compute the same answer for the
same key, nobody can tell that the table is there, whatever the schedule. -/
set_option autoImplicit false
namespace MemoTable

variable {K V Y A : Type}

/-- A program that asks: `own` is what it would compute itself. -/
inductive Asking (K V Y A : Type) where
  | ret (result : A)
  | ask (key : K) (own : V) (rest : V → Asking K V Y A)
  | yield (item : Y) (rest : Asking K V Y A)

namespace Asking

/-- What the program yields and returns without a table. -/
def alone : Asking K V Y A → List Y × A
  | ret result => ([], result)
  | ask _ own rest => (rest own).alone
  | yield item rest => (item :: rest.alone.1, rest.alone.2)

/-- What the program yields and returns when the table holds these answers. -/
def answered (memo : K → Option V) : Asking K V Y A → List Y × A
  | ret result => ([], result)
  | ask key own rest => (rest ((memo key).getD own)).answered memo
  | yield item rest => (item :: (rest.answered memo).1, (rest.answered memo).2)

theorem answered_empty : ∀ program : Asking K V Y A,
    program.answered (fun _ => none) = program.alone := by
  intro program
  induction program with
  | ret result => rfl
  | ask key own rest ih => exact ih own
  | yield item rest ih => rw [answered, ih, alone]

/-- What the program would compute for a key is the answer to the key. -/
def Consistent (answer : K → V) : Asking K V Y A → Prop
  | ret _ => True
  | ask key own rest => own = answer key ∧ (rest own).Consistent answer
  | yield _ rest => rest.Consistent answer

end Asking

inductive Phase (K V Y A : Type) where
  | running (program : Asking K V Y A)
  | awaiting (promise : Nat) (own : V) (rest : V → Asking K V Y A)

structure Call (K V Y A : Type) where
  yielded : List Y
  phase : Phase K V Y A

/-- A promise is what it resolves to, and whether it has. -/
structure Promise (V : Type) where
  value : V
  settled : Bool

structure Table (K V Y A : Type) where
  memo : K → Option Nat
  promises : List (Promise V)
  calls : List (Call K V Y A)

inductive Action (K V Y A : Type) where
  | start (program : Asking K V Y A)
  | settle (promise : Nat)
  | advance (call : Nat)

namespace Table

def empty : Table K V Y A := ⟨fun _ => none, [], []⟩

variable [DecidableEq K]

def withCall (table : Table K V Y A) (i : Nat) (call : Call K V Y A) : Table K V Y A :=
  { table with calls := table.calls.set i call }

def remember (table : Table K V Y A) (key : K) (value : V) : Table K V Y A :=
  { table with
    memo := Function.update table.memo key (some table.promises.length)
    promises := table.promises ++ [⟨value, false⟩] }

def advanceCall (table : Table K V Y A) (i : Nat) (call : Call K V Y A) : Table K V Y A :=
  match call.phase with
  | .running (.ret _) => table
  | .running (.yield item rest) => table.withCall i ⟨call.yielded ++ [item], .running rest⟩
  | .running (.ask key own rest) =>
      match table.memo key with
      | some promise => table.withCall i ⟨call.yielded, .awaiting promise own rest⟩
      | none => (table.remember key own).withCall i
          ⟨call.yielded, .awaiting table.promises.length own rest⟩
  | .awaiting promise _ rest =>
      match table.promises[promise]? with
      | some ⟨value, true⟩ => table.withCall i ⟨call.yielded, .running (rest value)⟩
      | _ => table

def step (table : Table K V Y A) : Action K V Y A → Table K V Y A
  | .start program => { table with calls := table.calls ++ [⟨[], .running program⟩] }
  | .settle promise =>
      { table with promises := table.promises.modify promise fun p => { p with settled := true } }
  | .advance i =>
      match table.calls[i]? with
      | none => table
      | some call => table.advanceCall i call

def run (table : Table K V Y A) (actions : List (Action K V Y A)) : Table K V Y A :=
  actions.foldl step table

end Table

/-- The programs a schedule starts. -/
def Action.started : Action K V Y A → Option (Asking K V Y A)
  | start program => some program
  | _ => none

/-! ## The invariant -/

/-- What the call has yielded and what is left of it make up what its program does alone. -/
def Call.Follows (answer : K → V) (promises : List (Promise V)) (program : Asking K V Y A)
    (call : Call K V Y A) : Prop :=
  match call.phase with
  | .running rest => rest.Consistent answer ∧
      program.alone = (call.yielded ++ rest.alone.1, rest.alone.2)
  | .awaiting promise own rest =>
      (∃ settled, promises[promise]? = some ⟨own, settled⟩) ∧ (rest own).Consistent answer ∧
      program.alone = (call.yielded ++ (rest own).alone.1, (rest own).alone.2)

structure Sound (answer : K → V) (programs : List (Asking K V Y A)) (table : Table K V Y A) :
    Prop where
  memo : ∀ key promise, table.memo key = some promise →
    ∃ settled, table.promises[promise]? = some ⟨answer key, settled⟩
  length : table.calls.length = programs.length
  calls : ∀ (i : Nat) (program : Asking K V Y A) (call : Call K V Y A),
    programs[i]? = some program → table.calls[i]? = some call →
      call.Follows answer table.promises program

/-- Every promise is still there, with its value. -/
def Kept (promises promises' : List (Promise V)) : Prop :=
  ∀ (promise : Nat) (value : V), (∃ settled, promises[promise]? = some ⟨value, settled⟩) →
    ∃ settled, promises'[promise]? = some ⟨value, settled⟩

theorem Kept.refl (promises : List (Promise V)) : Kept promises promises := fun _ _ found => found

theorem Kept.append (promises : List (Promise V)) (new : Promise V) :
    Kept promises (promises ++ [new]) := by
  intro promise value found
  obtain ⟨settled, there⟩ := found
  have bound : promise < promises.length := (List.getElem?_eq_some_iff.mp there).1
  exact ⟨settled, by rw [List.getElem?_append_left bound, there]⟩

theorem Kept.settle (promises : List (Promise V)) (id : Nat) :
    Kept promises (promises.modify id fun p => { p with settled := true }) := by
  intro promise value found
  obtain ⟨settled, there⟩ := found
  rw [List.getElem?_modify, there]
  by_cases same : id = promise
  · exact ⟨true, congrArg some (if_pos same)⟩
  · exact ⟨settled, congrArg some (if_neg same)⟩

theorem Call.Follows.kept {answer : K → V} {promises promises' : List (Promise V)}
    {program : Asking K V Y A} {call : Call K V Y A} (follows : call.Follows answer promises program)
    (kept : Kept promises promises') : call.Follows answer promises' program := by
  unfold Call.Follows at follows ⊢
  cases phase : call.phase with
  | running rest =>
      rw [phase] at follows
      exact follows
  | awaiting promise own rest =>
      rw [phase] at follows
      exact ⟨kept promise own follows.1, follows.2⟩

section
variable {answer : K → V} {programs : List (Asking K V Y A)} {table : Table K V Y A}

theorem Sound.withCall (sound : Sound answer programs table) (i : Nat) (call : Call K V Y A)
    {memo : K → Option Nat} {promises : List (Promise V)} (kept : Kept table.promises promises)
    (remembered : ∀ key promise, memo key = some promise →
      ∃ settled, promises[promise]? = some ⟨answer key, settled⟩)
    (follows : ∀ program, programs[i]? = some program → call.Follows answer promises program) :
    Sound answer programs ⟨memo, promises, table.calls.set i call⟩ := by
  refine ⟨remembered, (List.length_set).trans sound.length, ?_⟩
  intro j program other listed found
  rw [List.getElem?_set] at found
  split at found
  · rename_i same
    split at found
    · obtain rfl := Option.some.inj found
      rw [← same] at listed
      exact follows program listed
    · cases found
  · exact (sound.calls j program other listed found).kept kept

theorem Sound.program (sound : Sound answer programs table) {i : Nat} {call : Call K V Y A}
    (found : table.calls[i]? = some call) :
    ∃ program, programs[i]? = some program ∧ call.Follows answer table.promises program := by
  have bound : i < programs.length := by
    rw [← sound.length]
    exact (List.getElem?_eq_some_iff.mp found).1
  have listed := List.getElem?_eq_getElem bound
  exact ⟨_, listed, sound.calls i _ call listed found⟩

theorem Sound.moved (sound : Sound answer programs table) (i : Nat) (call : Call K V Y A)
    (program : Asking K V Y A) (listed : programs[i]? = some program)
    (follows : call.Follows answer table.promises program) :
    Sound answer programs (table.withCall i call) := by
  refine sound.withCall i call (.refl _) sound.memo fun other again => ?_
  rw [listed] at again
  exact Option.some.inj again ▸ follows

variable [DecidableEq K]

theorem Sound.remembered (sound : Sound answer programs table) (i : Nat) (call : Call K V Y A)
    (program : Asking K V Y A) (listed : programs[i]? = some program) (key : K)
    (follows : call.Follows answer (table.promises ++ [⟨answer key, false⟩]) program) :
    Sound answer programs ((table.remember key (answer key)).withCall i call) := by
  refine sound.withCall i call (.append _ _) (fun other promise found => ?_) fun other again => ?_
  · change Function.update table.memo key (some table.promises.length) other = some promise at found
    by_cases same : other = key
    · rw [same, Function.update_self] at found
      obtain rfl := Option.some.inj found
      rw [same]
      exact ⟨false, List.getElem?_concat_length⟩
    · rw [Function.update_of_ne same] at found
      exact Kept.append _ _ promise _ (sound.memo other promise found)
  · rw [listed] at again
    exact Option.some.inj again ▸ follows

theorem Sound.advanceCall (sound : Sound answer programs table) (i : Nat) (call : Call K V Y A)
    (found : table.calls[i]? = some call) : Sound answer programs (table.advanceCall i call) := by
  obtain ⟨program, listed, own⟩ := sound.program found
  unfold Table.advanceCall
  unfold Call.Follows at own
  cases phase : call.phase with
  | running rest =>
      rw [phase] at own
      obtain ⟨consistent, alone⟩ := own
      cases rest with
      | ret result => exact sound
      | yield item rest =>
          apply sound.moved i _ program listed
          refine ⟨consistent, ?_⟩
          rw [alone, List.append_assoc]
          rfl
      | ask key value rest =>
          obtain ⟨same, consistentRest⟩ := consistent
          dsimp only
          cases known : table.memo key with
          | some promise =>
              obtain ⟨settled, there⟩ := sound.memo key promise known
              apply sound.moved i _ program listed
              exact ⟨⟨settled, by rw [there, ← same]⟩, consistentRest, alone⟩
          | none =>
              have new : (table.promises ++ [⟨answer key, false⟩])[table.promises.length]? =
                  some ⟨answer key, false⟩ := List.getElem?_concat_length
              rw [same] at consistentRest alone ⊢
              exact sound.remembered i _ program listed key ⟨⟨false, new⟩, consistentRest, alone⟩
  | awaiting promise value rest =>
      rw [phase] at own
      obtain ⟨⟨settled, promised⟩, consistent, alone⟩ := own
      dsimp only
      rw [promised]
      cases settled with
      | false => exact sound
      | true =>
          apply sound.moved i _ program listed
          exact ⟨consistent, alone⟩

theorem Sound.step (sound : Sound answer programs table) (action : Action K V Y A)
    (consistent : ∀ program, action.started = some program → program.Consistent answer) :
    Sound answer (programs ++ action.started.toList) (table.step action) := by
  cases action with
  | start program =>
      refine ⟨sound.memo, ?_, ?_⟩
      · change (table.calls ++ [_]).length = (programs ++ [program]).length
        rw [List.length_append, List.length_append, sound.length]
        rfl
      · intro i other call listed found
        change (programs ++ [program])[i]? = some other at listed
        change (table.calls ++ [_])[i]? = some call at found
        by_cases old : i < programs.length
        · rw [List.getElem?_append_left old] at listed
          rw [List.getElem?_append_left (by rw [sound.length]; exact old)] at found
          exact sound.calls i other call listed found
        · have last : i = programs.length := by
            have bound := (List.getElem?_eq_some_iff.mp listed).1
            rw [List.length_append, List.length_singleton] at bound
            omega
          rw [last, List.getElem?_concat_length] at listed
          rw [last, ← sound.length, List.getElem?_concat_length] at found
          obtain rfl := Option.some.inj listed
          obtain rfl := Option.some.inj found
          exact ⟨consistent program rfl, rfl⟩
  | settle promise =>
      rw [show (Action.settle promise : Action K V Y A).started.toList = [] from rfl, List.append_nil]
      have kept := Kept.settle table.promises promise
      exact ⟨fun key id known => kept id _ (sound.memo key id known), sound.length,
        fun i program call listed found => (sound.calls i program call listed found).kept kept⟩
  | advance i =>
      rw [show (Action.advance i : Action K V Y A).started.toList = [] from rfl, List.append_nil,
        Table.step]
      cases found : table.calls[i]? with
      | none => exact sound
      | some call => exact sound.advanceCall i call found

theorem Sound.quietStep (sound : Sound answer programs table) (action : Action K V Y A)
    (quiet : action.started = none) : Sound answer programs (table.step action) := by
  have next := sound.step action fun program started => by
    rw [quiet] at started
    cases started
  rw [quiet, Option.toList_none, List.append_nil] at next
  exact next

theorem Sound.run (actions : List (Action K V Y A)) : ∀ (programs : List (Asking K V Y A))
    (table : Table K V Y A), Sound answer programs table →
      (∀ program ∈ actions.filterMap Action.started, program.Consistent answer) →
        Sound answer (programs ++ actions.filterMap Action.started) (table.run actions) := by
  induction actions with
  | nil =>
      intro programs table sound _
      rw [List.filterMap_nil, List.append_nil]
      exact sound
  | cons action actions ih =>
      intro programs table sound consistent
      have first := sound.step action fun program started =>
        consistent program (List.mem_filterMap.mpr ⟨action, List.mem_cons_self, started⟩)
      have later := ih _ _ first fun program member => consistent program (by
        rw [List.filterMap_cons]
        cases action.started with
        | none => exact member
        | some other => exact List.mem_cons_of_mem _ member)
      have split : (action :: actions).filterMap Action.started =
          action.started.toList ++ actions.filterMap Action.started := by
        rw [List.filterMap_cons]
        cases action.started <;> rfl
      rw [split, ← List.append_assoc]
      exact later

omit [DecidableEq K] in
theorem sound_empty : Sound answer ([] : List (Asking K V Y A)) Table.empty :=
  ⟨fun _ _ known => (nomatch known), rfl, fun _ _ _ listed => (nomatch listed)⟩

/-! ## Completion -/

/-- The call is over. -/
def Call.Returned (call : Call K V Y A) (result : A) : Prop := call.phase = .running (.ret result)

/-- The actions do not start anything. -/
def Quiet (actions : List (Action K V Y A)) : Prop := actions.filterMap Action.started = []

omit [DecidableEq K] in
theorem getElem?_withCall {i : Nat} {old : Call K V Y A} (found : table.calls[i]? = some old)
    (call : Call K V Y A) : (table.withCall i call).calls[i]? = some call := by
  have bound : i < table.calls.length := (List.getElem?_eq_some_iff.mp found).1
  exact List.getElem?_set_self bound

theorem step_advance {i : Nat} {call : Call K V Y A} (found : table.calls[i]? = some call) :
    table.step (.advance i) = table.advanceCall i call := by
  rw [Table.step, found]

theorem advance_ask {i : Nat} {yielded : List Y} {key : K} {own : V} {rest : V → Asking K V Y A}
    (found : table.calls[i]? = some ⟨yielded, .running (.ask key own rest)⟩) :
    ∃ promise, (table.step (.advance i)).calls[i]? = some ⟨yielded, .awaiting promise own rest⟩ := by
  rw [step_advance found, Table.advanceCall]
  dsimp only
  split
  · exact ⟨_, getElem?_withCall found _⟩
  · have still : (table.remember key own).calls[i]? = _ := found
    exact ⟨_, getElem?_withCall still _⟩

theorem advance_awaiting {i promise : Nat} {yielded : List Y} {own : V} {rest : V → Asking K V Y A}
    (sound : Sound answer programs table)
    (found : table.calls[i]? = some ⟨yielded, .awaiting promise own rest⟩) :
    ((table.step (.settle promise)).step (.advance i)).calls[i]? =
      some ⟨yielded, .running (rest own)⟩ := by
  obtain ⟨program, _, ⟨settled, promised⟩, _⟩ := sound.program found
  have settledNow : (table.step (.settle promise)).promises[promise]? = some ⟨own, true⟩ := by
    change (table.promises.modify promise _)[promise]? = _
    rw [List.getElem?_modify, promised]
    exact congrArg some (if_pos rfl)
  have still : (table.step (.settle promise)).calls[i]? =
      some ⟨yielded, .awaiting promise own rest⟩ := found
  rw [step_advance still, Table.advanceCall]
  dsimp only
  rw [settledNow]
  exact getElem?_withCall still _

/-- Whatever has happened, a call can be brought to its end. -/
theorem Sound.finish (i : Nat) : ∀ (rest : Asking K V Y A) (table : Table K V Y A) (yielded : List Y),
    Sound answer programs table → table.calls[i]? = some ⟨yielded, .running rest⟩ →
      ∃ actions, Quiet actions ∧ ∃ call result, (table.run actions).calls[i]? = some call ∧
        call.Returned result := by
  intro rest
  induction rest with
  | ret result =>
      intro table yielded _ found
      exact ⟨[], rfl, _, result, found, rfl⟩
  | yield item rest ih =>
      intro table yielded sound found
      have moved : (table.step (.advance i)).calls[i]? =
          some ⟨yielded ++ [item], .running rest⟩ := by
        rw [step_advance found]
        exact getElem?_withCall found _
      obtain ⟨actions, quiet, done⟩ := ih _ _ (sound.quietStep (.advance i) rfl) moved
      exact ⟨.advance i :: actions, quiet, done⟩
  | ask key own rest ih =>
      intro table yielded sound found
      obtain ⟨promise, waits⟩ := advance_ask found
      have asked := sound.quietStep (.advance i) rfl
      have moved := advance_awaiting asked waits
      have settled := (asked.quietStep (.settle promise) rfl).quietStep (.advance i) rfl
      obtain ⟨actions, quiet, done⟩ := ih own _ _ settled moved
      exact ⟨.advance i :: .settle promise :: .advance i :: actions, quiet, done⟩

theorem Sound.finishCall (sound : Sound answer programs table) {i : Nat} {call : Call K V Y A}
    (found : table.calls[i]? = some call) :
    ∃ actions, Quiet actions ∧ ∃ call' result, (table.run actions).calls[i]? = some call' ∧
      call'.Returned result := by
  obtain ⟨yielded, phase⟩ := call
  cases phase with
  | running rest => exact Sound.finish i rest table yielded sound found
  | awaiting promise own rest =>
      have settled := (sound.quietStep (.settle promise) rfl).quietStep (.advance i) rfl
      obtain ⟨actions, quiet, done⟩ := Sound.finish i (rest own) _ yielded settled
        (advance_awaiting sound found)
      exact ⟨.settle promise :: .advance i :: actions, quiet, done⟩

end

section
variable [DecidableEq K] {answer : K → V}

/-- Programs that agree on the answers cannot tell that there is a table. -/
theorem transparent (actions : List (Action K V Y A))
    (consistent : ∀ program ∈ actions.filterMap Action.started, program.Consistent answer)
    (i : Nat) (program : Asking K V Y A)
    (listed : (actions.filterMap Action.started)[i]? = some program) :
    ∃ call, (Table.empty.run actions).calls[i]? = some call ∧
      call.yielded <+: program.alone.1 ∧
      (∀ result, call.Returned result → program.alone = (call.yielded, result)) ∧
      (∀ promise own rest, call.phase = .awaiting promise own rest →
        ∃ settled, (Table.empty.run actions).promises[promise]? = some ⟨own, settled⟩) ∧
      ∃ more, Quiet more ∧ ∃ call' result, (Table.empty.run (actions ++ more)).calls[i]? = some call' ∧
        call'.Returned result ∧ program.alone = (call'.yielded, result) := by
  have sound := Sound.run actions [] Table.empty sound_empty consistent
  rw [List.nil_append] at sound
  have bound : i < (Table.empty.run actions).calls.length := by
    rw [sound.length]
    exact (List.getElem?_eq_some_iff.mp listed).1
  have found := List.getElem?_eq_getElem bound
  have follows := sound.calls i program _ listed found
  have returned : ∀ (table : Table K V Y A) (call : Call K V Y A) (result : A),
      call.Follows answer table.promises program → call.Returned result →
        program.alone = (call.yielded, result) := by
    intro table call result follows ended
    unfold Call.Follows at follows
    rw [ended] at follows
    rw [follows.2]
    exact congrArg (fun items => (items, result)) (List.append_nil _)
  obtain ⟨more, quiet, call', result, found', ended⟩ := sound.finishCall found
  have later := Sound.run more _ _ sound fun other member => by
    rw [quiet] at member
    cases member
  rw [quiet, List.append_nil] at later
  refine ⟨_, found, ?_, fun result ended => returned _ _ result follows ended, ?_, more, quiet, call',
    result, ?_, ended, returned _ _ result (later.calls i program call' listed found') ended⟩
  · unfold Call.Follows at follows
    split at follows
    · rw [follows.2]
      exact List.prefix_append _ _
    · rw [follows.2.2]
      exact List.prefix_append _ _
  · intro promise own rest phase
    unfold Call.Follows at follows
    rw [phase] at follows
    exact follows.1
  · rw [Table.run, List.foldl_append]
    exact found'

end

end MemoTable
