import TreeKeyCache.Calls
import TreeKeyCache.Interleaving

/-! # Concurrent writers without ttl

A pool of writers, each walking a path with sections that visit its prefixes.  When all
have ended, every key's content is that of the writers that count at the key, replayed
in the order in which they entered it. -/
set_option autoImplicit false
namespace TreeKeyCache

open SharedCells

variable {T R : Type} [SerializedForm R]

/-- A walk along `path` by a program that goes through the sections `plan`. -/
structure Writer (o : LawfulOptions T R) where
  path : List String
  create : Option (ChainedObject → Option T)
  edit : Step T → Option T
  thread : Thread (Step T) T R
  plan : ℚ → List (Section (Step T) R)
  plain : PlainPath path
  starts : Starts thread.consumer (TreeEntry o) thread.prog plan
  visits : ∀ now, List.Forall₂ (Visits o create edit path) (deepPrefixes o path) (plan now)

section
variable {o : LawfulOptions T R}

theorem exists_of_mem_forall₂ {A B : Type} {P : A → B → Prop} {left : List A} {right : List B}
    (related : List.Forall₂ P left right) (b : B) (member : b ∈ right) : ∃ a ∈ left, P a b := by
  induction related with
  | nil => cases member
  | @cons a b' left right head _ ih =>
      rcases List.mem_cons.mp member with rfl | later
      · exact ⟨a, List.mem_cons_self, head⟩
      · obtain ⟨a', listed, holds⟩ := ih later
        exact ⟨a', List.mem_cons_of_mem _ listed, holds⟩

theorem Writer.exists_visited (writer : Writer o) (now : ℚ) (s : Section (Step T) R)
    (member : s ∈ writer.plan now) :
    ∃ p, p <+: writer.path ∧ p ≠ [] ∧ p.length ≤ o.keyLevelNodes ∧ PlainPath p ∧
      Visits o writer.create writer.edit writer.path p s := by
  obtain ⟨p, listed, visits⟩ := exists_of_mem_forall₂ (writer.visits now) s member
  obtain ⟨onPath, nonempty, short⟩ := (mem_deepPrefixes o writer.path p).mp listed
  exact ⟨p, onPath, nonempty, short, writer.plain.above onPath, visits⟩

omit [SerializedForm R] in
theorem Section.job_after {Y : Type} (s : Section Y R) (content : Option R) :
    s.job.after content = s.after content := by
  simp only [Job.after, Section.job, Section.after]
  cases s.writes content <;> rfl

/-! ## Good contents -/

variable (o)

/-- The content of a key that stands for a plain path is sound. -/
def GoodContent (key : String) (content : Option R) : Prop :=
  ∀ p, PlainPath p → p ≠ [] → p.length ≤ o.keyLevelNodes → joinKeys p = key → Sound o p content

theorem GoodContent.treeEntry (key : String) (content : Option R)
    (good : GoodContent o key content) : TreeEntry o key content := by
  intro plain components
  have sound := good (splitKey key) plain (splitKey_ne_nil key) (le_of_eq components)
    (joinKeys_splitKey key)
  exact sound.tree components

theorem Represents.goodContent {o : LawfulOptions T R} {w : World R} {f : List String → Option T}
    (represents : Represents o w f) (key : String) : GoodContent o key (w.read key) := by
  intro p plain nonempty short same
  rw [← same]
  exact represents.sound p plain nonempty short

/-- The values a key holds are those the value serializer writes. -/
def Canonical (key : String) (content : Option R) : Prop :=
  ∀ q r, PlainPath q → q ≠ [] → nodeKey o q = key → (nodeLabel o content q).value = some r →
    ∃ v, r = o.encode v

variable {o} (writers : List (Writer o))

def plansOf : List (ℚ → List (Section (Step T) R)) := writers.map Writer.plan

variable {writers}

theorem admits_iff (i : Nat) (job : Job String (Option R)) (admitted : Admits (plansOf writers) i job) :
    ∃ (writer : Writer o) (p : List String) (s : Section (Step T) R) (now : ℚ),
      writers[i]? = some writer ∧ s ∈ writer.plan now ∧ s.job = job ∧ p <+: writer.path ∧ p ≠ [] ∧
        p.length ≤ o.keyLevelNodes ∧ PlainPath p ∧
        Visits o writer.create writer.edit writer.path p s := by
  obtain ⟨plan, now, planned, member⟩ := admitted
  rw [plansOf, List.getElem?_map, Option.map_eq_some_iff] at planned
  obtain ⟨writer, found, rfl⟩ := planned
  obtain ⟨s, listed, same⟩ := List.mem_map.mp member
  obtain ⟨p, onPath, nonempty, short, plain, visits⟩ := writer.exists_visited now s listed
  exact ⟨writer, p, s, now, found, listed, same, onPath, nonempty, short, plain, visits⟩

theorem goodContent_closed (i : Nat) (job : Job String (Option R)) (v v' : Option R)
    (admitted : Admits (plansOf writers) i job) (good : GoodContent o job.key v)
    (written : job.writes v = some v') : GoodContent o job.key v' := by
  obtain ⟨writer, p, s, now, _, _, rfl, _, nonempty, short, plain, visits⟩ := admits_iff i job admitted
  have after : v' = s.after v := by rw [← Section.job_after, Job.after, written]; rfl
  have key : s.job.key = joinKeys p := visits.key
  rw [key] at good ⊢
  intro p' plain' nonempty' _ same
  obtain rfl := (joinKeys_eq_iff p' p plain' plain nonempty' nonempty).mp same
  rw [after]
  exact visits.sound v (good p' plain' nonempty' short rfl)

theorem canonical_closed (positive : 1 ≤ o.keyLevelNodes) (i : Nat) (job : Job String (Option R))
    (v v' : Option R) (admitted : Admits (plansOf writers) i job)
    (canonical : Canonical o job.key v) (written : job.writes v = some v') :
    Canonical o job.key v' := by
  obtain ⟨writer, p, s, now, _, _, rfl, _, nonempty, short, plain, visits⟩ := admits_iff i job admitted
  have after : v' = s.after v := by rw [← Section.job_after, Job.after, written]; rfl
  have key : s.job.key = joinKeys p := visits.key
  rw [key] at canonical ⊢
  intro q r qPlain qNonempty same stored
  have taken := (joinKeys_eq_iff _ p (qPlain.take _) plain (take_keyLevels_ne_nil o q positive qNonempty)
    nonempty).mp same
  rw [after] at stored
  rcases visits.values v q r taken stored with before | written
  · exact canonical q r qPlain qNonempty same before
  · exact written

/-! ## Replaying jobs on one node -/

/-- What writer `i` does to the node at `q`. -/
def editBy (writers : List (Writer o)) (q : List String) (v : Option T) (i : Nat) : Option T :=
  match writers[i]? with
  | none => v
  | some writer => if q <+: writer.path then applyEdit writer.create writer.edit q v else v

theorem replay_held (positive : 1 ≤ o.keyLevelNodes) (q : List String) (plain : PlainPath q)
    (nonempty : q ≠ []) : ∀ (entries : List (Nat × Job String (Option R))),
      (∀ entry ∈ entries, Admits (plansOf writers) entry.1 entry.2 ∧ entry.2.key = nodeKey o q) →
      ∀ content, Sound o (q.take o.keyLevelNodes) content →
        Sound o (q.take o.keyLevelNodes) (replay (entries.map Prod.snd) content) ∧
          (nodeLabel o (replay (entries.map Prod.snd) content) q).held o =
            (entries.map Prod.fst).foldl (editBy writers q) ((nodeLabel o content q).held o) := by
  intro entries
  induction entries with
  | nil => intro _ content sound; exact ⟨sound, rfl⟩
  | cons entry entries ih =>
      intro admitted content sound
      obtain ⟨i, job⟩ := entry
      obtain ⟨own, atNode⟩ := admitted (i, job) List.mem_cons_self
      obtain ⟨writer, p, s, now, found, _, rfl, onPath, pNonempty, _, pPlain, visits⟩ :=
        admits_iff i job own
      have taken : p = q.take o.keyLevelNodes := by
        refine (joinKeys_eq_iff p _ pPlain (plain.take _) pNonempty
          (take_keyLevels_ne_nil o q positive nonempty)).mp ?_
        rw [← visits.key]
        exact atNode
      subst taken
      have held : (nodeLabel o (s.after content) q).held o =
          editBy writers q ((nodeLabel o content q).held o) i := by
        rw [visits.held content sound q rfl, editBy, found]
      have later := ih (fun entry member => admitted entry (List.mem_cons_of_mem _ member))
        (s.after content) (visits.sound content sound)
      rw [held] at later
      simp only [List.map_cons, replay, List.foldl_cons, Section.job_after]
      exact later

/-! ## Finished pools of writers -/

theorem sim_start (w : World R)
    (permanent : ∀ key entry, w.store key = some entry → entry.expiry = none) :
    Sim (TreeEntry o) (plansOf writers) (Pool.start w (writers.map Writer.thread))
      (State.start w.read) := by
  refine ⟨permanent, fun _ => rfl, rfl, rfl, by simp [Pool.start, plansOf],
    fun j thread plan _ found planned => Or.inl ?_, fun _ _ => rfl⟩
  simp only [Pool.start, List.getElem?_map, Option.map_eq_some_iff] at found
  rw [plansOf, List.getElem?_map, Option.map_eq_some_iff] at planned
  obtain ⟨writer, listed, rfl⟩ := found
  obtain ⟨writer', listed', rfl⟩ := planned
  obtain rfl : writer = writer' := Option.some.inj (listed.symm.trans listed')
  refine ⟨writer.starts, fun now s member => ?_, rfl, rfl⟩
  obtain ⟨p, _, _, _, _, visits⟩ := writer.exists_visited now s member
  exact visits.untimed

theorem SimExcept.represents {p : Pool (Step T) T R} {s : State Nat String (Option R)}
    (sim : Sim (TreeEntry o) (plansOf writers) p s) (good : ∀ key, GoodContent o key (s.cell key)) :
    Represents o p.world fun q => (nodeLabel o (s.cell (nodeKey o q)) q).held o := by
  refine ⟨sim.permanent, fun q plain nonempty short => ?_, fun q _ _ => ?_⟩
  · rw [← sim.cell]
    exact good _ q plain nonempty short rfl
  · rw [sim.cell]

section
variable {good : String → Option R → Prop}
  (goodContent : ∀ key content, good key content → GoodContent o key content)
  (closed : ∀ i job v v', Admits (plansOf writers) i job → good job.key v →
    job.writes v = some v' → good job.key v')
include goodContent closed

/-- A finished pool of writers ends in a state of the cells in which all threads are idle and
have entered every section of their plans. -/
theorem writers_settle (w : World R)
    (permanent : ∀ key entry, w.store key = some entry → entry.expiry = none)
    (initially : ∀ key, good key (w.read key)) (schedule : List Action) (p : Pool (Step T) T R)
    (executed : (Pool.start w (writers.map Writer.thread)).exec schedule = some p)
    (finished : p.finished = true) :
    ∃ s, Moves (Admits (plansOf writers)) (State.start w.read) s ∧
      Sane (Admits (plansOf writers)) good s ∧ Sim (TreeEntry o) (plansOf writers) p s ∧
      (∀ i, s.phase i = .idle) ∧ ∀ i, i < writers.length → Done (plansOf writers) p s i := by
  have initial : Sane (Admits (plansOf writers)) good (State.start w.read) :=
    sane_start _ good w.read initially
  obtain ⟨mid, moves, sim⟩ := SimExcept.exec
    (fun key content h => (goodContent key content h).treeEntry o key content) closed schedule _ p _
    (sim_start w permanent) initial executed
  obtain ⟨s, moves', sim', done⟩ := sim.finish finished (plansOf writers).length (le_refl _) mid
  have length : (plansOf writers).length = writers.length := by simp [plansOf]
  have sane := Moves.invariant (fun s s' before move => before.step closed s s' move) initial
    (moves.trans moves')
  refine ⟨s, moves.trans moves', sane, sim', fun i => ?_, fun i bound => done i (by omega)⟩
  by_cases bound : i < (plansOf writers).length
  · exact (done i bound).1
  · exact sim'.idle i (by omega)

omit goodContent in
/-- When the writers that count at the key of a node exclude each other there, the node ends
with their edits, in the order in which they entered. -/
theorem node_settles (positive : 1 ≤ o.keyLevelNodes) (w : World R) (f : List String → Option T)
    (represents : Represents o w f) (initially : ∀ key, good key (w.read key))
    (s : State Nat String (Option R))
    (moves : Moves (Admits (plansOf writers)) (State.start w.read) s)
    (idle : ∀ i, s.phase i = .idle) (q : List String) (plain : PlainPath q) (nonempty : q ≠ [])
    (counts : Nat → Bool)
    (quiet : ∀ i job v, counts i = false → Admits (plansOf writers) i job → job.key = nodeKey o q →
      good (nodeKey o q) v → job.writes v = none)
    (exclusive : ∀ s : State Nat String (Option R), Sane (Admits (plansOf writers)) good s →
      LocksHeld s → Exclusive counts (nodeKey o q) s) :
    Sound o (q.take o.keyLevelNodes) (s.cell (nodeKey o q)) ∧
      (nodeLabel o (s.cell (nodeKey o q)) q).held o =
        ((s.log.filter fun entry => counts entry.1 && decide (entry.2.key = nodeKey o q)).map
          Prod.fst).foldl (editBy writers q) (f q) := by
  obtain ⟨sane, _, serialized⟩ :=
    Moves.serialized closed quiet exclusive w.read initially s moves
  have short : (q.take o.keyLevelNodes).length ≤ o.keyLevelNodes := by
    rw [List.length_take]
    omega
  have entries : ∀ entry ∈ s.log.filter (fun entry => counts entry.1 &&
      decide (entry.2.key = nodeKey o q)),
      Admits (plansOf writers) entry.1 entry.2 ∧ entry.2.key = nodeKey o q := by
    intro entry member
    obtain ⟨listed, kept⟩ := List.mem_filter.mp member
    rw [Bool.and_eq_true, decide_eq_true_eq] at kept
    exact ⟨sane.logged entry listed, kept.2⟩
  have replayed := replay_held positive q plain nonempty _ entries (w.read (nodeKey o q))
    (represents.sound _ (plain.take _) (take_keyLevels_ne_nil o q positive nonempty) short)
  rw [represents.held q plain nonempty] at replayed
  rw [serialized.cell_eq idle]
  exact replayed

end

end

end TreeKeyCache
