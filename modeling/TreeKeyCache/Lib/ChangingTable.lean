import TreeKeyCache.Lib.MemoTable

/-! # A table of promises over a changing state

The answers are computed from a state that changes meanwhile.  A promise takes its answer from the
state of the moment at which it is settled, and everyone who asks for its key gets this answer.  So
each key has one moment, and all programs see the key as it was then. -/
set_option autoImplicit false
namespace MemoTable

variable {S K V Y A : Type}

/-- A program that asks a table, or looks at the state itself: `own` computes an answer. -/
inductive Watching (S K V Y A : Type) where
  | ret (result : A)
  | ask (key : K) (own : S → V) (rest : V → Watching S K V Y A)
  | look (rest : S → Watching S K V Y A)
  | yield (item : Y) (rest : Watching S K V Y A)

namespace Watching

/-- The program over a state that stands still. -/
def still (s : S) : Watching S K V Y A → Asking K V Y A
  | ret result => .ret result
  | ask key own rest => .ask key (own s) fun v => (rest v).still s
  | look rest => (rest s).still s
  | yield item rest => .yield item (rest.still s)

/-- Whoever asks for a key would compute the same. -/
def Computes (compute : K → S → V) : Watching S K V Y A → Prop
  | ret _ => True
  | ask key own rest => own = compute key ∧ ∀ v, (rest v).Computes compute
  | look rest => ∀ s, (rest s).Computes compute
  | yield _ rest => rest.Computes compute

/-- The program sees the state through the table alone. -/
def Memoizes (compute : K → S → V) : Watching S K V Y A → Prop
  | ret _ => True
  | ask key own rest => own = compute key ∧ ∀ v, (rest v).Memoizes compute
  | look _ => False
  | yield _ rest => rest.Memoizes compute

theorem Memoizes.computes {compute : K → S → V} : ∀ {program : Watching S K V Y A},
    program.Memoizes compute → program.Computes compute := by
  intro program
  induction program with
  | ret result => exact id
  | ask key own rest ih => exact fun memoizes => ⟨memoizes.1, fun v => ih v (memoizes.2 v)⟩
  | look rest _ => exact fun memoizes => memoizes.elim
  | yield item rest ih => exact fun memoizes => ih memoizes

/-- With such answers and such states a program comes to another one, and yields the items. -/
inductive Reaches (answered : K → V → Prop) (seen : S → Prop) (program : Watching S K V Y A) :
    List Y → Watching S K V Y A → Prop
  | refl : Reaches answered seen program [] program
  | ask {items : List Y} {key : K} {own : S → V} {rest : V → Watching S K V Y A} {v : V} :
      Reaches answered seen program items (.ask key own rest) → answered key v →
        Reaches answered seen program items (rest v)
  | look {items : List Y} {rest : S → Watching S K V Y A} {s : S} :
      Reaches answered seen program items (.look rest) → seen s →
        Reaches answered seen program items (rest s)
  | yield {items : List Y} {item : Y} {rest : Watching S K V Y A} :
      Reaches answered seen program items (.yield item rest) →
        Reaches answered seen program (items ++ [item]) rest

variable {answered answered' : K → V → Prop} {seen seen' : S → Prop} {program last : Watching S K V Y A}
  {items : List Y} {compute : K → S → V}

theorem Reaches.mono (reaches : program.Reaches answered seen items last)
    (more : ∀ key v, answered key v → answered' key v) (later : ∀ s, seen s → seen' s) :
    program.Reaches answered' seen' items last := by
  induction reaches with
  | refl => exact .refl
  | ask _ told ih => exact .ask ih (more _ _ told)
  | look _ there ih => exact .look ih (later _ there)
  | yield _ ih => exact .yield ih

theorem Reaches.computes (reaches : program.Reaches answered seen items last)
    (computes : program.Computes compute) : last.Computes compute := by
  induction reaches with
  | refl => exact computes
  | ask _ _ ih => exact ih.2 _
  | look _ _ ih => exact ih _
  | yield _ ih => exact ih

theorem Reaches.memoizes (reaches : program.Reaches answered seen items last)
    (memoizes : program.Memoizes compute) : last.Memoizes compute := by
  induction reaches with
  | refl => exact memoizes
  | ask _ _ ih => exact ih.2 _
  | look _ _ ih => exact ih.elim
  | yield _ ih => exact ih

/-- When the answers are those of one state, so is all that the program has done. -/
theorem Reaches.alone (reaches : program.Reaches answered seen items last)
    (memoizes : program.Memoizes compute) {s : S}
    (answers : ∀ key v, answered key v → v = compute key s) :
    (program.still s).alone = (items ++ (last.still s).alone.1, (last.still s).alone.2) := by
  induction reaches with
  | refl => rfl
  | ask before told ih =>
      rw [ih, still, Asking.alone, (before.memoizes memoizes).1, ← answers _ _ told]
  | look before _ _ => exact (before.memoizes memoizes).elim
  | yield _ ih =>
      rw [ih, still, Asking.alone, List.append_assoc]
      rfl

theorem Reaches.of_ret {result : A}
    (reaches : (Watching.ret result : Watching S K V Y A).Reaches answered seen items last) :
    items = [] ∧ last = .ret result := by
  induction reaches with
  | refl => exact ⟨rfl, rfl⟩
  | ask _ _ ih => cases ih.2
  | look _ _ ih => cases ih.2
  | yield _ ih => cases ih.2

theorem Reaches.of_look {read : S → A}
    (reaches : (Watching.look fun s => .ret (read s) : Watching S K V Y A).Reaches answered seen items
      last) :
    items = [] ∧ (last = .look (fun s => .ret (read s)) ∨ ∃ s, seen s ∧ last = .ret (read s)) := by
  induction reaches with
  | refl => exact ⟨rfl, .inl rfl⟩
  | ask _ _ ih =>
      obtain ⟨_, same | ⟨s, _, same⟩⟩ := ih
      · cases same
      · cases same
  | look _ there ih =>
      obtain ⟨none, same | ⟨s, _, same⟩⟩ := ih
      · cases same
        exact ⟨none, .inr ⟨_, there, rfl⟩⟩
      · cases same
  | yield _ ih =>
      obtain ⟨_, same | ⟨s, _, same⟩⟩ := ih
      · cases same
      · cases same

end Watching

/-! ## The table -/

/-- What a promise computes, and its answer once it is settled. -/
structure Pledge (S V : Type) where
  own : S → V
  value : Option V

def Pledge.settle (s : S) (pledge : Pledge S V) : Pledge S V :=
  { pledge with value := some (pledge.value.getD (pledge.own s)) }

inductive WatchPhase (S K V Y A : Type) where
  | running (program : Watching S K V Y A)
  | awaiting (promise : Nat) (rest : V → Watching S K V Y A)

structure WatchCall (S K V Y A : Type) where
  yielded : List Y
  phase : WatchPhase S K V Y A

structure WatchTable (S K V Y A : Type) where
  state : S
  memo : K → Option Nat
  promises : List (Pledge S V)
  calls : List (WatchCall S K V Y A)

inductive WatchAction (S K V Y A : Type) where
  | start (program : Watching S K V Y A)
  | change (state : S)
  | settle (promise : Nat)
  | advance (call : Nat)

namespace WatchTable

def empty (s : S) : WatchTable S K V Y A := ⟨s, fun _ => none, [], []⟩

variable [DecidableEq K]

def withCall (table : WatchTable S K V Y A) (i : Nat) (call : WatchCall S K V Y A) :
    WatchTable S K V Y A :=
  { table with calls := table.calls.set i call }

def remember (table : WatchTable S K V Y A) (key : K) (own : S → V) : WatchTable S K V Y A :=
  { table with
    memo := Function.update table.memo key (some table.promises.length)
    promises := table.promises ++ [⟨own, none⟩] }

/-- The answer of a settled promise. -/
def answer (table : WatchTable S K V Y A) (promise : Nat) : Option V :=
  table.promises[promise]?.bind Pledge.value

def advanceCall (table : WatchTable S K V Y A) (i : Nat) (call : WatchCall S K V Y A) :
    WatchTable S K V Y A :=
  match call.phase with
  | .running (.ret _) => table
  | .running (.yield item rest) => table.withCall i ⟨call.yielded ++ [item], .running rest⟩
  | .running (.look rest) => table.withCall i ⟨call.yielded, .running (rest table.state)⟩
  | .running (.ask key own rest) =>
      match table.memo key with
      | some promise => table.withCall i ⟨call.yielded, .awaiting promise rest⟩
      | none => (table.remember key own).withCall i
          ⟨call.yielded, .awaiting table.promises.length rest⟩
  | .awaiting promise rest =>
      match table.answer promise with
      | some value => table.withCall i ⟨call.yielded, .running (rest value)⟩
      | none => table

def step (table : WatchTable S K V Y A) : WatchAction S K V Y A → WatchTable S K V Y A
  | .start program => { table with calls := table.calls ++ [⟨[], .running program⟩] }
  | .change s => { table with state := s }
  | .settle promise =>
      { table with promises := table.promises.modify promise (Pledge.settle table.state) }
  | .advance i =>
      match table.calls[i]? with
      | none => table
      | some call => table.advanceCall i call

def run (table : WatchTable S K V Y A) (actions : List (WatchAction S K V Y A)) :
    WatchTable S K V Y A :=
  actions.foldl step table

end WatchTable

namespace WatchAction

def started : WatchAction S K V Y A → Option (Watching S K V Y A)
  | start program => some program
  | _ => none

/-- The state an action brings about. -/
def changed : WatchAction S K V Y A → Option S
  | change s => some s
  | _ => none

end WatchAction

/-! ## What is told stays told -/

/-- The table has answered `v` for the key. -/
def WatchTable.Told (table : WatchTable S K V Y A) (key : K) (v : V) : Prop :=
  ∃ promise, table.memo key = some promise ∧ table.answer promise = some v

/-- Promises are kept under their keys, with their computations and answers. -/
structure WatchTable.Grows (table table' : WatchTable S K V Y A) : Prop where
  memo : ∀ key promise, table.memo key = some promise → table'.memo key = some promise
  promises : ∀ (promise : Nat) pledge, table.promises[promise]? = some pledge →
    ∃ value, table'.promises[promise]? = some ⟨pledge.own, value⟩ ∧
      ∀ v, pledge.value = some v → value = some v

namespace WatchTable

variable {table table' : WatchTable S K V Y A}

theorem Grows.same (memo : table'.memo = table.memo) (promises : table'.promises = table.promises) :
    table.Grows table' :=
  ⟨fun key promise known => by rw [memo, known],
    fun promise pledge there => ⟨pledge.value, by rw [promises, there], fun _ told => told⟩⟩

theorem Grows.told (grows : table.Grows table') {key : K} {v : V} (told : table.Told key v) :
    table'.Told key v := by
  obtain ⟨promise, known, answered⟩ := told
  obtain ⟨pledge, there, value⟩ := Option.bind_eq_some_iff.mp answered
  obtain ⟨value', there', same⟩ := grows.promises promise pledge there
  refine ⟨promise, grows.memo key promise known, ?_⟩
  rw [answer, there', Option.bind_some, same v value]

theorem Grows.settle (s : S) (promise : Nat) : table.Grows
    { table with promises := table.promises.modify promise (Pledge.settle s) } := by
  refine ⟨fun _ _ known => known, fun other pledge there => ?_⟩
  change ∃ value, (table.promises.modify promise (Pledge.settle s))[other]? = _ ∧ _
  rw [List.getElem?_modify, there]
  by_cases same : promise = other
  · refine ⟨some (pledge.value.getD (pledge.own s)), congrArg some (if_pos same), fun v told => ?_⟩
    rw [told, Option.getD_some]
  · exact ⟨pledge.value, congrArg some (if_neg same), fun _ told => told⟩

theorem Grows.remember [DecidableEq K] {key : K} (fresh : table.memo key = none) (own : S → V) :
    table.Grows (table.remember key own) := by
  refine ⟨fun other promise known => ?_, fun promise pledge there => ?_⟩
  · have apart : other ≠ key := by
      rintro rfl
      rw [fresh] at known
      cases known
    exact (Function.update_of_ne apart _ _).trans known
  · have bound : promise < table.promises.length := (List.getElem?_eq_some_iff.mp there).1
    refine ⟨pledge.value, ?_, fun _ told => told⟩
    change (table.promises ++ [_])[promise]? = _
    rw [List.getElem?_append_left bound, there]

end WatchTable

/-! ## The invariant -/

def WatchCall.Left (table : WatchTable S K V Y A) (call : WatchCall S K V Y A)
    (left : Watching S K V Y A) : Prop :=
  match call.phase with
  | .running program => left = program
  | .awaiting promise rest => ∃ key own, table.memo key = some promise ∧ left = .ask key own rest

/-- Every call has come to where it is through answers of the table and states of the past. -/
structure Steady (compute : K → S → V) (past : List S) (programs : List (Watching S K V Y A))
    (table : WatchTable S K V Y A) : Prop where
  current : table.state ∈ past
  memo : ∀ key promise, table.memo key = some promise →
    ∃ value, table.promises[promise]? = some ⟨compute key, value⟩
  answers : ∀ (promise : Nat) pledge v, table.promises[promise]? = some pledge →
    pledge.value = some v → ∃ s ∈ past, v = pledge.own s
  length : table.calls.length = programs.length
  calls : ∀ (i : Nat) (program : Watching S K V Y A) (call : WatchCall S K V Y A),
    programs[i]? = some program → table.calls[i]? = some call →
      ∃ left, call.Left table left ∧ program.Reaches table.Told (· ∈ past) call.yielded left

section
variable {compute : K → S → V} {past : List S} {programs : List (Watching S K V Y A)}
  {table table' : WatchTable S K V Y A}

theorem WatchCall.Left.grows {call : WatchCall S K V Y A} {left : Watching S K V Y A}
    (here : call.Left table left) (grows : table.Grows table') : call.Left table' left := by
  unfold WatchCall.Left at here ⊢
  cases phase : call.phase with
  | running program =>
      rw [phase] at here
      exact here
  | awaiting promise rest =>
      rw [phase] at here
      obtain ⟨key, own, known, same⟩ := here
      exact ⟨key, own, grows.memo key promise known, same⟩

theorem Steady.grown (steady : Steady compute past programs table) (grows : table.Grows table')
    {past' : List S} (later : ∀ s ∈ past, s ∈ past') {i : Nat} {program : Watching S K V Y A}
    {call : WatchCall S K V Y A} (listed : programs[i]? = some program)
    (found : table.calls[i]? = some call) :
    ∃ left, call.Left table' left ∧ program.Reaches table'.Told (· ∈ past') call.yielded left := by
  obtain ⟨left, here, reaches⟩ := steady.calls i program call listed found
  exact ⟨left, here.grows grows, reaches.mono (fun _ _ => grows.told) later⟩

theorem Steady.withCall (steady : Steady compute past programs table) {memo : K → Option Nat}
    {promises : List (Pledge S V)} (i : Nat) (call : WatchCall S K V Y A)
    (grows : table.Grows ⟨table.state, memo, promises, table.calls.set i call⟩)
    (kept : ∀ key promise, memo key = some promise →
      ∃ value, promises[promise]? = some ⟨compute key, value⟩)
    (answers : ∀ (promise : Nat) pledge v, promises[promise]? = some pledge →
      pledge.value = some v → ∃ s ∈ past, v = pledge.own s)
    (moved : ∀ program, programs[i]? = some program → ∃ left,
      call.Left ⟨table.state, memo, promises, table.calls.set i call⟩ left ∧
        program.Reaches (WatchTable.Told ⟨table.state, memo, promises, table.calls.set i call⟩)
          (· ∈ past) call.yielded left) :
    Steady compute past programs ⟨table.state, memo, promises, table.calls.set i call⟩ := by
  refine ⟨steady.current, kept, answers, (List.length_set).trans steady.length, ?_⟩
  intro j program other listed found
  by_cases same : i = j
  · subst same
    have bound : i < table.calls.length := by
      rw [steady.length]
      exact (List.getElem?_eq_some_iff.mp listed).1
    change (table.calls.set i call)[i]? = some other at found
    rw [List.getElem?_set_self bound] at found
    obtain rfl := Option.some.inj found
    exact moved program listed
  · change (table.calls.set i call)[j]? = some other at found
    rw [List.getElem?_set_ne same] at found
    exact steady.grown grows (fun _ member => member) listed found

theorem Steady.moved (steady : Steady compute past programs table) {i : Nat}
    (call call' : WatchCall S K V Y A) (found : table.calls[i]? = some call)
    {left' : Watching S K V Y A} (here : call'.Left table left')
    (reaches : ∀ program left, programs[i]? = some program → call.Left table left →
      program.Reaches table.Told (· ∈ past) call.yielded left →
        program.Reaches table.Told (· ∈ past) call'.yielded left') :
    Steady compute past programs (table.withCall i call') := by
  refine steady.withCall i call' (.same rfl rfl) steady.memo steady.answers fun program listed => ?_
  obtain ⟨left, before, reached⟩ := steady.calls i program call listed found
  exact ⟨left', here.grows (.same rfl rfl), reaches program left listed before reached⟩

variable [DecidableEq K]

theorem Steady.remembered (steady : Steady compute past programs table) {i : Nat}
    {items : List Y} {key : K} {rest : V → Watching S K V Y A}
    (found : table.calls[i]? = some ⟨items, .running (.ask key (compute key) rest)⟩)
    (fresh : table.memo key = none) :
    Steady compute past programs ((table.remember key (compute key)).withCall i
      ⟨items, .awaiting table.promises.length rest⟩) := by
  have grows : table.Grows ((table.remember key (compute key)).withCall i
      ⟨items, .awaiting table.promises.length rest⟩) := by
    obtain ⟨memo, promises⟩ := WatchTable.Grows.remember fresh (compute key)
    exact ⟨memo, promises⟩
  refine steady.withCall i _ grows (fun other promise known => ?_) (fun promise pledge v there told => ?_)
    fun program listed => ?_
  · change Function.update table.memo key (some table.promises.length) other = some promise at known
    by_cases same : other = key
    · rw [same, Function.update_self] at known
      obtain rfl := Option.some.inj known
      rw [same]
      exact ⟨none, List.getElem?_concat_length⟩
    · rw [Function.update_of_ne same] at known
      obtain ⟨value, there⟩ := steady.memo other promise known
      have bound := (List.getElem?_eq_some_iff.mp there).1
      exact ⟨value, (List.getElem?_append_left bound).trans there⟩
  · change (table.promises ++ [⟨compute key, none⟩])[promise]? = some pledge at there
    rw [List.getElem?_append] at there
    split at there
    · exact steady.answers promise pledge v there told
    · obtain rfl := List.mem_singleton.mp (List.mem_of_getElem? there)
      cases told
  · obtain ⟨left, here, reaches⟩ := steady.calls i program _ listed found
    obtain rfl : left = .ask key (compute key) rest := here
    exact ⟨_, ⟨key, compute key, Function.update_self _ _ _, rfl⟩,
      reaches.mono (fun _ _ => grows.told) fun _ member => member⟩

theorem Steady.advanceCall (steady : Steady compute past programs table)
    (computes : ∀ program ∈ programs, program.Computes compute) {i : Nat} {call : WatchCall S K V Y A}
    (found : table.calls[i]? = some call) :
    Steady compute past programs (table.advanceCall i call) := by
  obtain ⟨items, phase⟩ := call
  unfold WatchTable.advanceCall
  cases phase with
  | running program =>
      cases program with
      | ret result => exact steady
      | yield item rest =>
          refine steady.moved _ ⟨items ++ [item], .running rest⟩ found rfl ?_
          rintro program left _ rfl reaches
          exact reaches.yield
      | look rest =>
          refine steady.moved _ ⟨items, .running (rest table.state)⟩ found rfl ?_
          rintro program left _ rfl reaches
          exact reaches.look steady.current
      | ask key own rest =>
          dsimp only
          cases known : table.memo key with
          | some promise =>
              refine steady.moved _ ⟨items, .awaiting promise rest⟩ found ⟨key, own, known, rfl⟩ ?_
              rintro program left _ rfl reaches
              exact reaches
          | none =>
              have bound : i < programs.length := by
                rw [← steady.length]
                exact (List.getElem?_eq_some_iff.mp found).1
              have listed := List.getElem?_eq_getElem bound
              obtain ⟨left, here, reaches⟩ := steady.calls i _ _ listed found
              obtain rfl : left = .ask key own rest := here
              obtain rfl : own = compute key :=
                (reaches.computes (computes _ (List.mem_of_getElem? listed))).1
              exact steady.remembered found known
  | awaiting promise rest =>
      dsimp only
      cases answered : table.answer promise with
      | none => exact steady
      | some v =>
          refine steady.moved _ ⟨items, .running (rest v)⟩ found rfl ?_
          rintro program left _ ⟨key, own, known, rfl⟩ reaches
          exact reaches.ask ⟨promise, known, answered⟩

theorem Steady.step (steady : Steady compute past programs table) (action : WatchAction S K V Y A)
    (computes : ∀ program ∈ programs, program.Computes compute) :
    Steady compute (past ++ action.changed.toList) (programs ++ action.started.toList)
      (table.step action) := by
  cases action with
  | start program =>
      rw [show (WatchAction.start program).changed.toList = ([] : List S) from rfl, List.append_nil]
      refine ⟨steady.current, steady.memo, steady.answers, ?_, ?_⟩
      · change (table.calls ++ [_]).length = (programs ++ [program]).length
        rw [List.length_append, List.length_append, steady.length]
        rfl
      · intro i other call listed found
        change (programs ++ [program])[i]? = some other at listed
        change (table.calls ++ [_])[i]? = some call at found
        by_cases old : i < programs.length
        · rw [List.getElem?_append_left old] at listed
          rw [List.getElem?_append_left (by rw [steady.length]; exact old)] at found
          exact steady.grown (.same rfl rfl) (fun _ member => member) listed found
        · have last : i = programs.length := by
            have bound := (List.getElem?_eq_some_iff.mp listed).1
            rw [List.length_append, List.length_singleton] at bound
            omega
          rw [last, List.getElem?_concat_length] at listed
          rw [last, ← steady.length, List.getElem?_concat_length] at found
          obtain rfl := Option.some.inj listed
          obtain rfl := Option.some.inj found
          exact ⟨program, rfl, .refl⟩
  | change s =>
      rw [show (WatchAction.change s : WatchAction S K V Y A).started.toList = [] from rfl,
        List.append_nil]
      have later : ∀ s' ∈ past, s' ∈ past ++ [s] := fun s' member => List.mem_append_left _ member
      refine ⟨List.mem_append_right _ List.mem_cons_self, steady.memo, ?_, steady.length, ?_⟩
      · intro promise pledge v there told
        obtain ⟨s', member, same⟩ := steady.answers promise pledge v there told
        exact ⟨s', later s' member, same⟩
      · intro i program call listed found
        exact steady.grown (.same rfl rfl) later listed found
  | settle promise =>
      rw [show (WatchAction.settle promise : WatchAction S K V Y A).started.toList = [] from rfl,
        show (WatchAction.settle promise : WatchAction S K V Y A).changed.toList = [] from rfl,
        List.append_nil, List.append_nil]
      have grows : table.Grows (table.step (.settle promise)) := .settle table.state promise
      refine ⟨steady.current, ?_, ?_, steady.length, ?_⟩
      · intro key other known
        obtain ⟨value, there⟩ := steady.memo key other known
        obtain ⟨value', there', _⟩ := grows.promises other _ there
        exact ⟨value', there'⟩
      · intro other pledge v there told
        change (table.promises.modify promise (Pledge.settle table.state))[other]? = _ at there
        rw [List.getElem?_modify] at there
        obtain ⟨before, listed, rfl⟩ := Option.map_eq_some_iff.mp there
        by_cases same : promise = other
        · rw [if_pos same] at told ⊢
          obtain rfl := Option.some.inj told
          cases settled : before.value with
          | none => exact ⟨table.state, steady.current, rfl⟩
          | some v => exact steady.answers other before v listed settled
        · rw [if_neg same] at told ⊢
          exact steady.answers other before v listed told
      · intro i program call listed found
        exact steady.grown grows (fun _ member => member) listed found
  | advance i =>
      rw [show (WatchAction.advance i : WatchAction S K V Y A).started.toList = [] from rfl,
        show (WatchAction.advance i : WatchAction S K V Y A).changed.toList = [] from rfl,
        List.append_nil, List.append_nil, WatchTable.step]
      cases found : table.calls[i]? with
      | none => exact steady
      | some call => exact steady.advanceCall computes found

theorem Steady.run (actions : List (WatchAction S K V Y A)) :
    ∀ (past : List S) (programs : List (Watching S K V Y A)) (table : WatchTable S K V Y A),
      Steady compute past programs table →
      (∀ program ∈ programs ++ actions.filterMap WatchAction.started, program.Computes compute) →
        Steady compute (past ++ actions.filterMap WatchAction.changed)
          (programs ++ actions.filterMap WatchAction.started) (table.run actions) := by
  induction actions with
  | nil =>
      intro past programs table steady _
      rw [List.filterMap_nil, List.filterMap_nil, List.append_nil, List.append_nil]
      exact steady
  | cons action actions ih =>
      intro past programs table steady computes
      have started : (action :: actions).filterMap WatchAction.started =
          action.started.toList ++ actions.filterMap WatchAction.started := by
        rw [List.filterMap_cons]
        cases action.started <;> rfl
      have changed : (action :: actions).filterMap WatchAction.changed =
          action.changed.toList ++ actions.filterMap WatchAction.changed := by
        rw [List.filterMap_cons]
        cases action.changed <;> rfl
      rw [started, ← List.append_assoc] at computes
      rw [started, changed, ← List.append_assoc, ← List.append_assoc]
      exact ih _ _ _ (steady.step action fun program member =>
        computes program (List.mem_append_left _ (List.mem_append_left _ member))) computes

omit [DecidableEq K] in
theorem steady_empty (s : S) :
    Steady compute [s] ([] : List (Watching S K V Y A)) (WatchTable.empty s) := by
  refine ⟨List.mem_cons_self, fun _ _ known => ?_, fun _ _ _ there _ => ?_, rfl, fun _ _ _ listed _ => ?_⟩
  · cases known
  · cases there
  · cases listed

omit [DecidableEq K] in
/-- For each key there is the moment at which the table got its answer. -/
theorem Steady.moments (steady : Steady compute past programs table) :
    ∃ moment : K → S, (∀ key, moment key ∈ past) ∧
      ∀ key v, table.Told key v → v = compute key (moment key) := by
  have each : ∀ key, ∃ s ∈ past, ∀ v, table.Told key v → v = compute key s := by
    intro key
    by_cases answered : ∃ v, table.Told key v
    · obtain ⟨v, promise, known, answer⟩ := answered
      obtain ⟨pledge, there, value⟩ := Option.bind_eq_some_iff.mp answer
      obtain ⟨s, member, same⟩ := steady.answers promise pledge v there value
      obtain ⟨value', own⟩ := steady.memo key promise known
      rw [there] at own
      rw [Option.some.inj own] at same
      refine ⟨s, member, fun v' told => ?_⟩
      obtain ⟨promise', known', answer'⟩ := told
      obtain rfl := Option.some.inj (known.symm.trans known')
      exact (Option.some.inj (answer'.symm.trans answer)).trans same
    · exact ⟨table.state, steady.current, fun v told => absurd ⟨v, told⟩ answered⟩
  choose moment past' same using each
  exact ⟨moment, past', same⟩

end

/-! ## Completion -/

/-- The call is over. -/
def WatchCall.Returned (call : WatchCall S K V Y A) (result : A) : Prop :=
  call.phase = .running (.ret result)

namespace WatchTable

variable [DecidableEq K] {table : WatchTable S K V Y A} {i : Nat}

/-- The actions move the calls along, and do nothing else. -/
def Completes (actions : List (WatchAction S K V Y A)) : Prop :=
  ∀ action ∈ actions, action.started = none ∧ action.changed = none

omit [DecidableEq K] in
theorem getElem?_withCall {old : WatchCall S K V Y A} (found : table.calls[i]? = some old)
    (call : WatchCall S K V Y A) : (table.withCall i call).calls[i]? = some call :=
  List.getElem?_set_self (List.getElem?_eq_some_iff.mp found).1

theorem step_advance {call : WatchCall S K V Y A} (found : table.calls[i]? = some call) :
    table.step (.advance i) = table.advanceCall i call := by
  rw [step, found]

theorem advance_awaiting {promise : Nat} {items : List Y} {rest : V → Watching S K V Y A}
    {pledge : Pledge S V} (found : table.calls[i]? = some ⟨items, .awaiting promise rest⟩)
    (there : table.promises[promise]? = some pledge) :
    ∃ v, ((table.step (.settle promise)).step (.advance i)).calls[i]? =
      some ⟨items, .running (rest v)⟩ := by
  have settled : (table.step (.settle promise)).answer promise =
      some (pledge.value.getD (pledge.own table.state)) := by
    have now : (table.step (.settle promise)).promises[promise]? =
        some (pledge.settle table.state) := by
      change (table.promises.modify promise _)[promise]? = _
      rw [List.getElem?_modify, there]
      exact congrArg some (if_pos rfl)
    rw [answer, now]
    rfl
  have still : (table.step (.settle promise)).calls[i]? = some ⟨items, .awaiting promise rest⟩ := found
  rw [step_advance still, advanceCall]
  dsimp only
  rw [settled]
  exact ⟨_, getElem?_withCall still _⟩

theorem advance_ask {items : List Y} {key : K} {own : S → V} {rest : V → Watching S K V Y A}
    (promised : ∀ promise, table.memo key = some promise → ∃ pledge, table.promises[promise]? = some pledge)
    (found : table.calls[i]? = some ⟨items, .running (.ask key own rest)⟩) :
    ∃ promise pledge, (table.step (.advance i)).calls[i]? = some ⟨items, .awaiting promise rest⟩ ∧
      (table.step (.advance i)).promises[promise]? = some pledge := by
  rw [step_advance found, advanceCall]
  dsimp only
  cases known : table.memo key with
  | some promise =>
      obtain ⟨pledge, there⟩ := promised promise known
      exact ⟨promise, pledge, getElem?_withCall found _, there⟩
  | none =>
      have still : (table.remember key own).calls[i]? = _ := found
      exact ⟨_, _, getElem?_withCall still _, List.getElem?_concat_length⟩

end WatchTable

section
variable [DecidableEq K] {compute : K → S → V} {past : List S} {programs : List (Watching S K V Y A)}
  {i : Nat}

theorem Steady.quietStep {table : WatchTable S K V Y A} (steady : Steady compute past programs table)
    (computes : ∀ program ∈ programs, program.Computes compute) (action : WatchAction S K V Y A)
    (started : action.started = none) (changed : action.changed = none) :
    Steady compute past programs (table.step action) := by
  have next := steady.step action computes
  rw [started, changed, Option.toList_none, Option.toList_none, List.append_nil, List.append_nil] at next
  exact next

theorem Steady.finish (computes : ∀ program ∈ programs, program.Computes compute)
    (rest : Watching S K V Y A) : ∀ (table : WatchTable S K V Y A) (items : List Y),
      Steady compute past programs table → table.calls[i]? = some ⟨items, .running rest⟩ →
        ∃ actions, WatchTable.Completes actions ∧ ∃ call result,
          (table.run actions).calls[i]? = some call ∧ call.Returned result := by
  induction rest with
  | ret result =>
      intro table items _ found
      exact ⟨[], fun _ impossible => (by cases impossible), _, result, found, rfl⟩
  | yield item rest ih =>
      intro table items steady found
      have moved : (table.step (.advance i)).calls[i]? = some ⟨items ++ [item], .running rest⟩ := by
        rw [WatchTable.step_advance found]
        exact WatchTable.getElem?_withCall found _
      obtain ⟨actions, quiet, ended⟩ := ih _ _ (steady.quietStep computes (.advance i) rfl rfl) moved
      exact ⟨.advance i :: actions, List.forall_mem_cons.mpr ⟨⟨rfl, rfl⟩, quiet⟩, ended⟩
  | look rest ih =>
      intro table items steady found
      have moved : (table.step (.advance i)).calls[i]? = some ⟨items, .running (rest table.state)⟩ := by
        rw [WatchTable.step_advance found]
        exact WatchTable.getElem?_withCall found _
      obtain ⟨actions, quiet, ended⟩ := ih _ _ _ (steady.quietStep computes (.advance i) rfl rfl) moved
      exact ⟨.advance i :: actions, List.forall_mem_cons.mpr ⟨⟨rfl, rfl⟩, quiet⟩, ended⟩
  | ask key own rest ih =>
      intro table items steady found
      obtain ⟨promise, pledge, waits, there⟩ := WatchTable.advance_ask (fun promise known => by
        obtain ⟨value, there⟩ := steady.memo key promise known
        exact ⟨_, there⟩) found
      obtain ⟨v, moved⟩ := WatchTable.advance_awaiting waits there
      have asked := steady.quietStep computes (.advance i) rfl rfl
      have settled := (asked.quietStep computes (.settle promise) rfl rfl).quietStep computes
        (.advance i) rfl rfl
      obtain ⟨actions, quiet, ended⟩ := ih v _ _ settled moved
      exact ⟨.advance i :: .settle promise :: .advance i :: actions, List.forall_mem_cons.mpr
        ⟨⟨rfl, rfl⟩, List.forall_mem_cons.mpr ⟨⟨rfl, rfl⟩, List.forall_mem_cons.mpr ⟨⟨rfl, rfl⟩, quiet⟩⟩⟩,
        ended⟩

theorem Steady.finishCall {table : WatchTable S K V Y A} (steady : Steady compute past programs table)
    (computes : ∀ program ∈ programs, program.Computes compute) {call : WatchCall S K V Y A}
    (found : table.calls[i]? = some call) :
    ∃ actions, WatchTable.Completes actions ∧ ∃ call' result,
      (table.run actions).calls[i]? = some call' ∧ call'.Returned result := by
  obtain ⟨items, phase⟩ := call
  cases phase with
  | running rest => exact Steady.finish computes rest table items steady found
  | awaiting promise rest =>
      have bound : i < programs.length := by
        rw [← steady.length]
        exact (List.getElem?_eq_some_iff.mp found).1
      obtain ⟨left, ⟨key, own, known, _⟩, _⟩ :=
        steady.calls i _ _ (List.getElem?_eq_getElem bound) found
      obtain ⟨value, there⟩ := steady.memo key promise known
      obtain ⟨v, moved⟩ := WatchTable.advance_awaiting found there
      have settled := (steady.quietStep computes (.settle promise) rfl rfl).quietStep computes
        (.advance i) rfl rfl
      obtain ⟨actions, quiet, ended⟩ := Steady.finish computes (rest v) _ items settled moved
      exact ⟨.settle promise :: .advance i :: actions, List.forall_mem_cons.mpr
        ⟨⟨rfl, rfl⟩, List.forall_mem_cons.mpr ⟨⟨rfl, rfl⟩, quiet⟩⟩, ended⟩

end

/-! ## The state that the table shows -/

variable {C : Type} [DecidableEq K]

/-- When an answer depends on nothing but the content of its key, the table shows one state to all
programs, the content of each key being that of some moment, and no program is ever stuck. -/
theorem one_state_shown (compute : K → (K → C) → V)
    (reads : ∀ key s s', s key = s' key → compute key s = compute key s') (s : K → C)
    (actions : List (WatchAction (K → C) K V Y A))
    (computes : ∀ program ∈ actions.filterMap WatchAction.started, program.Computes compute) :
    ∃ shown : K → C,
      (∀ key, ∃ moment ∈ s :: actions.filterMap WatchAction.changed, shown key = moment key) ∧
      ∀ (i : Nat) program call, (actions.filterMap WatchAction.started)[i]? = some program →
        ((WatchTable.empty s).run actions).calls[i]? = some call →
          ∃ left, (∀ result, call.Returned result → left = .ret result) ∧
            program.Reaches (fun key v => v = compute key shown)
              (· ∈ s :: actions.filterMap WatchAction.changed) call.yielded left ∧
            ∃ more, WatchTable.Completes more ∧ ∃ call' result,
              ((WatchTable.empty s).run (actions ++ more)).calls[i]? = some call' ∧
                call'.Returned result := by
  have steady := Steady.run actions [s] [] _ (steady_empty s) computes
  obtain ⟨moment, past, told⟩ := steady.moments
  refine ⟨fun key => moment key key, fun key => ⟨moment key, past key, rfl⟩, ?_⟩
  intro i program call listed found
  obtain ⟨left, here, reaches⟩ := steady.calls i program call listed found
  refine ⟨left, fun result ended => ?_, reaches.mono (fun key v said => ?_) fun _ member => member, ?_⟩
  · rw [WatchCall.Left, ended] at here
    exact here
  · exact (told key v said).trans (reads key (moment key) (fun key => moment key key) rfl)
  · obtain ⟨more, completes, ended⟩ := steady.finishCall computes found
    refine ⟨more, completes, ?_⟩
    rw [WatchTable.run, List.foldl_append]
    exact ended

end MemoTable
