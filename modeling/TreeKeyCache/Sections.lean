import TreeKeyCache.Program

/-! # Sections

Every writer treats one storage key after the other: it registers children, takes
the key's semaphore or not, reads the entry, presents items to its consumer, writes
the entry or leaves it, and schedules the release.  A `Section` is what one such
round does as a function of the content it reads, and `Performs` says that a program
does exactly a list of rounds, whatever runs between its operations.  Whoever runs
the program, alone or among others, only needs its sections. -/
set_option autoImplicit false
namespace TreeKeyCache

variable {Y T R A B : Type}

/-- The ttl a write passes to the storage: a fixed one, or the maximum of a ttl and
the one the key has at that time. -/
inductive TtlRule where
  | exactly (ttl : Option ℚ)
  | atLeast (ttl : ℚ)

def TtlRule.ttl : TtlRule → Option ℚ → Option ℚ
  | exactly ttl, _ => ttl
  | atLeast ttl, none => some ttl
  | atLeast ttl, some current => some (max current ttl)

theorem TtlRule.exists_atLeast (s : ℚ) (current : Option ℚ) :
    ∃ m, (TtlRule.atLeast s).ttl current = some m ∧ s ≤ m ∧ ∀ c, current = some c → m = max c s := by
  cases current with
  | none => exact ⟨s, rfl, le_refl s, fun c found => (nomatch found)⟩
  | some current =>
      refine ⟨max current s, rfl, le_max_right _ _, ?_⟩
      intro c found
      rw [Option.some.inj found]

structure Section (Y R : Type) where
  registers : List (Option String × String)
  key : String
  locked : Bool
  presents : Option R → List Y
  writes : Option R → Option (R × TtlRule)

/-- How far a program is: between two sections, in one before its read, after its
read with items still to present, after reading the key's ttl, or after its write. -/
inductive Stage (Y R : Type) where
  | outside (todo : List (Section Y R))
  | inside (s : Section Y R) (todo : List (Section Y R))
  | loaded (s : Section Y R) (content : Option R) (pending : List Y) (todo : List (Section Y R))
  | timed (s : Section Y R) (content : Option R) (value : R) (ttl : Option ℚ)
      (todo : List (Section Y R))
  | stored (s : Section Y R) (todo : List (Section Y R))

/-- `Performs edit valid p stage`: when its consumer assigns `edit item` to each
item and every content it reads is `valid`, the program `p` does what is left to do
at `stage` and ends without throwing. -/
inductive Performs (edit : Y → Option T) (valid : String → Option R → Prop) :
    Prog Y T R Unit → Stage Y R → Prop where
  | done : Performs edit valid (.ret (.ok ())) (.outside [])
  | register (s : Section Y R) (todo : List (Section Y R)) (parent : Option String)
      (child : String) (rest : List (Option String × String))
      (k : Except Err Unit → Prog Y T R Unit) (listed : s.registers = (parent, child) :: rest)
      (next : Performs edit valid (k (.ok ())) (.outside ({ s with registers := rest } :: todo))) :
      Performs edit valid (.registerChild parent child k) (.outside (s :: todo))
  | acquire (s : Section Y R) (todo : List (Section Y R)) (k : Except Err Unit → Prog Y T R Unit)
      (locked : s.locked = true) (next : Performs edit valid (k (.ok ())) (.inside s todo)) :
      Performs edit valid (.acquire s.key k) (.outside (s :: todo))
  | enter (s : Section Y R) (todo : List (Section Y R)) (p : Prog Y T R Unit)
      (unlocked : s.locked = false) (next : Performs edit valid p (.inside s todo)) :
      Performs edit valid p (.outside (s :: todo))
  | registerInside (s : Section Y R) (todo : List (Section Y R)) (parent : Option String)
      (child : String) (rest : List (Option String × String))
      (k : Except Err Unit → Prog Y T R Unit) (listed : s.registers = (parent, child) :: rest)
      (next : Performs edit valid (k (.ok ())) (.inside { s with registers := rest } todo)) :
      Performs edit valid (.registerChild parent child k) (.inside s todo)
  | load (s : Section Y R) (todo : List (Section Y R))
      (k : Except Err (Option R) → Prog Y T R Unit) (registered : s.registers = [])
      (next : ∀ content, valid s.key content →
        Performs edit valid (k (.ok content)) (.loaded s content (s.presents content) todo)) :
      Performs edit valid (.get s.key k) (.inside s todo)
  | present (s : Section Y R) (todo : List (Section Y R)) (content : Option R) (item : Y)
      (pending : List Y) (k : Except Err (Option T) → Prog Y T R Unit)
      (next : Performs edit valid (k (.ok (edit item))) (.loaded s content pending todo)) :
      Performs edit valid (.yield item k) (.loaded s content (item :: pending) todo)
  | store (s : Section Y R) (todo : List (Section Y R)) (content : Option R) (value : R)
      (ttl : Option ℚ) (k : Except Err Unit → Prog Y T R Unit)
      (written : s.writes content = some (value, .exactly ttl))
      (next : Performs edit valid (k (.ok ())) (.stored s todo)) :
      Performs edit valid (.set s.key value ttl k) (.loaded s content [] todo)
  | time (s : Section Y R) (todo : List (Section Y R)) (content : Option R) (value : R)
      (ttl : ℚ) (k : Except Err (Option ℚ) → Prog Y T R Unit)
      (written : s.writes content = some (value, .atLeast ttl))
      (next : ∀ current, Performs edit valid (k (.ok current))
        (.timed s content value ((TtlRule.atLeast ttl).ttl current) todo)) :
      Performs edit valid (.getCurrentTtl s.key k) (.loaded s content [] todo)
  | storeTimed (s : Section Y R) (todo : List (Section Y R)) (content : Option R) (value : R)
      (ttl : Option ℚ) (k : Except Err Unit → Prog Y T R Unit)
      (written : (s.writes content).map Prod.fst = some value)
      (next : Performs edit valid (k (.ok ())) (.stored s todo)) :
      Performs edit valid (.set s.key value ttl k) (.timed s content value ttl todo)
  | skip (s : Section Y R) (todo : List (Section Y R)) (content : Option R)
      (p : Prog Y T R Unit) (unwritten : s.writes content = none)
      (next : Performs edit valid p (.stored s todo)) :
      Performs edit valid p (.loaded s content [] todo)
  | release (s : Section Y R) (todo : List (Section Y R)) (k : Prog Y T R Unit)
      (locked : s.locked = true) (next : Performs edit valid k (.outside todo)) :
      Performs edit valid (.release s.key k) (.stored s todo)
  | leave (s : Section Y R) (todo : List (Section Y R)) (p : Prog Y T R Unit)
      (unlocked : s.locked = false) (next : Performs edit valid p (.outside todo)) :
      Performs edit valid p (.stored s todo)

/-! ## Programs that only yield -/

inductive Yields (edit : Y → Option T) : Prog Y T R A → List Y → A → Prop where
  | ret (a : A) : Yields edit (.ret (.ok a)) [] a
  | yield (item : Y) (items : List Y) (a : A) (k : Except Err (Option T) → Prog Y T R A)
      (next : Yields edit (k (.ok (edit item))) items a) :
      Yields edit (.yield item k) (item :: items) a

theorem Yields.bind (edit : Y → Option T) (p : Prog Y T R A) (f : A → Prog Y T R B)
    (items moreItems : List Y) (a : A) (b : B) (first : Yields edit p items a)
    (second : Yields edit (f a) moreItems b) : Yields edit (p >>= f) (items ++ moreItems) b := by
  induction first with
  | ret a => exact second
  | yield item items a k next ih =>
      simp only [Prog.yield_bind, List.cons_append]
      exact Yields.yield item _ b _ (ih second)

theorem Yields.map (edit : Y → Option T) (p : Prog Y T R A) (f : A → B) (items : List Y) (a : A)
    (yields : Yields edit p items a) : Yields edit (p >>= fun a => pure (f a)) items (f a) := by
  have both := Yields.bind edit p (fun a => pure (f a)) items [] a (f a) yields (Yields.ret (f a))
  rwa [List.append_nil] at both

/-- A guarded block that starts with a yielding program presents its items. -/
theorem Yields.performs (edit : Y → Option T) (valid : String → Option R → Prop)
    (s : Section Y R) (todo : List (Section Y R)) (content : Option R) (p : Prog Y T R A)
    (items pending : List Y) (a : A) (f : A → Prog Y T R B) (last : Prog Y T R Unit)
    (rest : B → Prog Y T R Unit) (yields : Yields edit p items a)
    (after : Performs edit valid ((f a).tryFinally last >>= rest)
      (.loaded s content pending todo)) :
    Performs edit valid ((p >>= f).tryFinally last >>= rest)
      (.loaded s content (items ++ pending) todo) := by
  induction yields with
  | ret a => exact after
  | yield item items a k next ih =>
      simp only [Prog.yield_bind, Prog.tryFinally, List.cons_append]
      exact Performs.present s todo content item _ _ (ih after)

/-! ## Sections run alone -/

namespace World

def registerAll (w : World R) (pairs : List (Option String × String)) : World R :=
  pairs.foldl (fun w pair => w.register pair.1 pair.2) w

def writeRule (w : World R) (key : String) (written : Option (R × TtlRule)) : World R :=
  match written with
  | none => w
  | some (value, rule) => w.write key value (rule.ttl (w.currentTtl key))

def perform (w : World R) (s : Section Y R) : World R :=
  (w.registerAll s.registers).writeRule s.key (s.writes (w.read s.key))

theorem registerAll_eq (w : World R) (pairs : List (Option String × String)) :
    w.registerAll pairs = { w with registry := w.registry ++ pairs } := by
  induction pairs generalizing w with
  | nil => simp [registerAll]
  | cons pair rest ih =>
      have := ih (w.register pair.1 pair.2)
      simp only [registerAll, List.foldl_cons] at this ⊢
      rw [this]
      simp [register]

@[simp] theorem registerAll_read (w : World R) (pairs : List (Option String × String))
    (key : String) : (w.registerAll pairs).read key = w.read key := by
  rw [registerAll_eq]
  rfl

@[simp] theorem writeRule_clock (w : World R) (key : String) (written : Option (R × TtlRule)) :
    (w.writeRule key written).clock = w.clock := by
  unfold writeRule
  cases written <;> rfl

@[simp] theorem perform_clock (w : World R) (s : Section Y R) : (w.perform s).clock = w.clock := by
  simp [perform, registerAll_eq]

end World

/-- The items a list of sections presents, one section after the other. -/
def presented : World R → List (Section Y R) → List Y
  | _, [] => []
  | w, s :: rest => s.presents (w.read s.key) ++ presented (w.perform s) rest

def performAll (w : World R) (todo : List (Section Y R)) : World R := todo.foldl World.perform w

theorem performAll_append (w : World R) (first later : List (Section Y R)) :
    performAll w (first ++ later) = performAll (performAll w first) later := List.foldl_append

namespace Stage

def finish (w : World R) : Stage Y R → World R
  | outside todo => performAll w todo
  | inside s todo => performAll (w.perform s) todo
  | loaded s content _ todo => performAll (w.writeRule s.key (s.writes content)) todo
  | timed s _ value ttl todo => performAll (w.write s.key value ttl) todo
  | stored _ todo => performAll w todo

def items (w : World R) : Stage Y R → List Y
  | outside todo => presented w todo
  | inside s todo => s.presents (w.read s.key) ++ presented (w.perform s) todo
  | loaded s content pending todo =>
      pending ++ presented (w.writeRule s.key (s.writes content)) todo
  | timed s _ value ttl todo => presented (w.write s.key value ttl) todo
  | stored _ todo => presented w todo

/-- The contents read from here on are all valid. -/
def Reads (valid : String → Option R → Prop) (w : World R) : Stage Y R → Prop
  | outside todo => ReadsAll w todo
  | inside s todo => valid s.key (w.read s.key) ∧ ReadsAll (w.perform s) todo
  | loaded s content _ todo => ReadsAll (w.writeRule s.key (s.writes content)) todo
  | timed s _ value ttl todo => ReadsAll (w.write s.key value ttl) todo
  | stored _ todo => ReadsAll w todo
where
  ReadsAll : World R → List (Section Y R) → Prop
    | _, [] => True
    | w, s :: rest => valid s.key (w.read s.key) ∧ ReadsAll (w.perform s) rest

end Stage

/-- Alone, a program that performs its sections ends in the world they make of it and
presents what they present. -/
theorem Performs.run_eq (edit : Y → Option T) (valid : String → Option R → Prop)
    (p : Prog Y T R Unit) (stage : Stage Y R) (performs : Performs edit valid p stage) :
    ∀ w : World R, stage.Reads valid w →
      p.run edit w = ⟨.ok (), stage.finish w, stage.items w⟩ := by
  induction performs with
  | done => intro w _; rfl
  | register s todo parent child rest k listed next ih =>
      intro w reads
      have same : (w.register parent child).perform { s with registers := rest } = w.perform s := by
        simp only [World.perform, listed, World.registerAll, List.foldl_cons]
        rfl
      have reads' : (Stage.outside ({ s with registers := rest } :: todo)).Reads valid
          (w.register parent child) := by
        simp only [Stage.Reads, Stage.Reads.ReadsAll, same] at reads ⊢
        exact reads
      rw [Prog.run, ih _ reads']
      simp only [Stage.finish, Stage.items, performAll, presented, List.foldl_cons, same]
      rfl
  | acquire s todo k locked next ih => intro w reads; exact ih w reads
  | enter s todo p unlocked next ih => intro w reads; exact ih w reads
  | registerInside s todo parent child rest k listed next ih =>
      intro w reads
      have same : (w.register parent child).perform { s with registers := rest } = w.perform s := by
        simp only [World.perform, listed, World.registerAll, List.foldl_cons]
        rfl
      have reads' : (Stage.inside { s with registers := rest } todo).Reads valid
          (w.register parent child) := by
        simp only [Stage.Reads, same] at reads ⊢
        exact reads
      rw [Prog.run, ih _ reads']
      simp only [Stage.finish, Stage.items, same]
      rfl
  | load s todo k registered next ih =>
      intro w reads
      have same : w.writeRule s.key (s.writes (w.read s.key)) = w.perform s := by
        simp [World.perform, registered, World.registerAll]
      have reads' : (Stage.loaded s (w.read s.key) (s.presents (w.read s.key)) todo).Reads
          valid w := by
        simp only [Stage.Reads, same]
        exact reads.2
      rw [Prog.run, ih _ reads.1 w reads']
      simp only [Stage.finish, Stage.items, same]
  | present s todo content item pending k next ih =>
      intro w reads
      rw [Prog.run, ih w reads]
      rfl
  | store s todo content value ttl k written next ih =>
      intro w reads
      have same : w.writeRule s.key (s.writes content) = w.write s.key value ttl := by
        rw [written]
        rfl
      simp only [Stage.Reads, same] at reads
      rw [Prog.run, ih _ reads]
      simp only [Stage.finish, Stage.items, same, List.nil_append]
  | time s todo content value ttl k written next ih =>
      intro w reads
      have same : w.writeRule s.key (s.writes content) =
          w.write s.key value ((TtlRule.atLeast ttl).ttl (w.currentTtl s.key)) := by
        rw [written]
        rfl
      simp only [Stage.Reads, same] at reads
      rw [Prog.run, ih (w.currentTtl s.key) w reads]
      simp only [Stage.finish, Stage.items, same, List.nil_append]
  | storeTimed s todo content value ttl k written next ih =>
      intro w reads
      rw [Prog.run, ih _ reads]
      rfl
  | skip s todo content p unwritten next ih =>
      intro w reads
      have same : w.writeRule s.key (s.writes content) = w := by
        rw [unwritten]
        rfl
      simp only [Stage.Reads, same] at reads
      rw [ih w reads]
      simp only [Stage.finish, Stage.items, same, List.nil_append]
  | release s todo k locked next ih => intro w reads; exact ih w reads
  | leave s todo p unlocked next ih => intro w reads; exact ih w reads

/-! ## Whole programs

Every writer first asks for the time; its sections depend on the answer. -/

def Starts (edit : Y → Option T) (valid : String → Option R → Prop) (p : Prog Y T R Unit)
    (sections : ℚ → List (Section Y R)) : Prop :=
  ∃ k, p = .dateNow k ∧ ∀ now, Performs edit valid (k now) (.outside (sections now))

theorem Starts.run_eq (edit : Y → Option T) (valid : String → Option R → Prop)
    (p : Prog Y T R Unit) (sections : ℚ → List (Section Y R)) (starts : Starts edit valid p sections)
    (w : World R) (reads : (Stage.outside (sections w.clock)).Reads valid w) :
    p.run edit w =
      ⟨.ok (), performAll w (sections w.clock), presented w (sections w.clock)⟩ := by
  obtain ⟨k, rfl, performs⟩ := starts
  rw [Prog.run, (performs w.clock).run_eq edit valid _ _ w reads]
  rfl

/-- The section of a caller that consumes the items itself. -/
def Section.silent (s : Section Y R) : Section Y R := { s with presents := fun _ => [] }

def Stage.silent : Stage Y R → Stage Y R
  | outside todo => outside (todo.map Section.silent)
  | inside s todo => inside s.silent (todo.map Section.silent)
  | loaded s content _ todo => loaded s.silent content [] (todo.map Section.silent)
  | timed s content value ttl todo => timed s.silent content value ttl (todo.map Section.silent)
  | stored s todo => stored s.silent (todo.map Section.silent)

end TreeKeyCache
