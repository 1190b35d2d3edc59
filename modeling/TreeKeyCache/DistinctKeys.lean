import TreeKeyCache.Refinement

/-! # Sections of different keys

The sections of one call have pairwise different keys.  Run alone, each of them finds
its key as the call found it, so that what the call leaves under a key is what one
section makes of it. -/
set_option autoImplicit false
namespace TreeKeyCache

variable {Y T R : Type}

namespace World

theorem perform_store_ne (w : World R) (s : Section Y R) (key : String) (other : key ≠ s.key) :
    (w.perform s).store key = w.store key := by
  unfold perform writeRule
  rw [registerAll_eq]
  cases s.writes (w.read s.key) with
  | none => rfl
  | some pair => exact Function.update_of_ne other _ _

/-- The entry a section leaves under its key. -/
theorem perform_store_self (w : World R) (s : Section Y R) :
    (w.perform s).store s.key = match s.writes (w.read s.key) with
      | none => w.store s.key
      | some (value, rule) =>
          some ⟨value, (rule.ttl (w.currentTtl s.key)).map fun ttl => w.clock + ttl * 1000⟩ := by
  unfold perform writeRule
  rw [registerAll_eq]
  cases s.writes (w.read s.key) with
  | none => rfl
  | some pair => exact Function.update_self _ _ _

theorem read_congr (w w' : World R) (key : String) (store : w.store key = w'.store key)
    (clock : w.clock = w'.clock) : w.read key = w'.read key := by
  unfold read readAt
  rw [store, clock]

theorem currentTtl_congr (w w' : World R) (key : String) (store : w.store key = w'.store key)
    (clock : w.clock = w'.clock) : w.currentTtl key = w'.currentTtl key := by
  unfold currentTtl
  rw [store, clock]

/-- A section only looks at its own key. -/
theorem perform_store_congr (w w' : World R) (s : Section Y R)
    (store : w.store s.key = w'.store s.key) (clock : w.clock = w'.clock) :
    (w.perform s).store s.key = (w'.perform s).store s.key := by
  rw [perform_store_self, perform_store_self, read_congr w w' s.key store clock,
    currentTtl_congr w w' s.key store clock, store, clock]

end World

theorem performAll_clock : ∀ (ss : List (Section Y R)) (w : World R),
    (performAll w ss).clock = w.clock := by
  intro ss
  induction ss with
  | nil => intro w; rfl
  | cons s rest ih => intro w; exact (ih (w.perform s)).trans (w.perform_clock s)

theorem performAll_store_of_not_mem (key : String) : ∀ (ss : List (Section Y R)) (w : World R),
    key ∉ ss.map Section.key → (performAll w ss).store key = w.store key := by
  intro ss
  induction ss with
  | nil => intro w _; rfl
  | cons s rest ih =>
      intro w absent
      rw [List.map_cons, List.mem_cons, not_or] at absent
      exact (ih (w.perform s) absent.2).trans (w.perform_store_ne s key absent.1)

theorem performAll_store (s : Section Y R) : ∀ (ss : List (Section Y R)) (w : World R),
    (ss.map Section.key).Nodup → s ∈ ss →
      (performAll w ss).store s.key = (w.perform s).store s.key := by
  intro ss
  induction ss with
  | nil => intro w _ member; cases member
  | cons first rest ih =>
      intro w distinct member
      rw [List.map_cons, List.nodup_cons] at distinct
      rcases List.mem_cons.mp member with rfl | later
      · exact performAll_store_of_not_mem s.key rest (w.perform s) distinct.1
      · have other : s.key ≠ first.key := by
          intro same
          exact distinct.1 (same ▸ List.mem_map_of_mem later)
        calc (performAll (w.perform first) rest).store s.key
            = ((w.perform first).perform s).store s.key := ih (w.perform first) distinct.2 later
          _ = (w.perform s).store s.key :=
              World.perform_store_congr _ _ s (w.perform_store_ne first s.key other)
                (w.perform_clock first)

/-- The sections read what was there before the first of them. -/
theorem readsAll_of_nodup (valid : String → Option R → Prop) : ∀ (ss : List (Section Y R))
    (w : World R), (ss.map Section.key).Nodup → (∀ s ∈ ss, valid s.key (w.read s.key)) →
      Stage.Reads.ReadsAll valid w ss := by
  intro ss
  induction ss with
  | nil => intro w _ _; trivial
  | cons first rest ih =>
      intro w distinct allValid
      rw [List.map_cons, List.nodup_cons] at distinct
      refine ⟨allValid first List.mem_cons_self, ih _ distinct.2 fun s member => ?_⟩
      have other : s.key ≠ first.key := by
        intro same
        exact distinct.1 (same ▸ List.mem_map_of_mem member)
      rw [World.read_congr _ w s.key (w.perform_store_ne first s.key other) (w.perform_clock first)]
      exact allValid s (List.mem_cons_of_mem _ member)

/-- The entry a section leaves under its key, when no other section has that key. -/
theorem performAll_entry (s : Section Y R) (ss : List (Section Y R)) (w : World R)
    (distinct : (ss.map Section.key).Nodup) (listed : s ∈ ss) :
    (performAll w ss).store s.key = match s.writes (w.read s.key) with
      | none => w.store s.key
      | some (value, rule) =>
          some ⟨value, (rule.ttl (w.currentTtl s.key)).map fun ttl => w.clock + ttl * 1000⟩ :=
  (performAll_store s ss w distinct listed).trans (w.perform_store_self s)

/-! ## The sections of a path -/

theorem map_key_of_forall₂ {ps : List (List String)} {ss : List (Section Y R)}
    (related : List.Forall₂ (fun p s => s.key = joinKeys p) ps ss) :
    ss.map Section.key = ps.map joinKeys := by
  induction related with
  | nil => rfl
  | cons head _ ih => rw [List.map_cons, List.map_cons, head, ih]

section
variable [SerializedForm R] (o : LawfulOptions T R) (create : Option (ChainedObject → Option T))
  (edit : Step T → Option T) (ttl : Option (StepTtl T))

theorem deepSections_keys (path : List String) (minLevelSemaphore : Nat) (now : ℚ)
    (positive : 1 ≤ o.keyLevelNodes) :
    (deepSections o create edit ttl path minLevelSemaphore now).map Section.key =
      (deepPrefixes o path).map joinKeys :=
  map_key_of_forall₂ (forall₂_deepSections o create edit (fun p s => s.key = joinKeys p) ttl
    path minLevelSemaphore now positive (fun _ _ _ => rfl) (fun _ => rfl))

theorem setSections_keys (path : List String) (v : T) (now : ℚ) (positive : 1 ≤ o.keyLevelNodes) :
    (setSections o path v ttl now).map Section.key = (deepPrefixes o path).map joinKeys := by
  rw [setSections, List.map_map]
  exact deepSections_keys o _ _ ttl path path.length now positive

theorem deepKeys_nodup (path : List String) (plain : PlainPath path) :
    ((deepPrefixes o path).map joinKeys).Nodup := by
  refine List.Nodup.map_on ?_ (prefixesFrom_nodup path 0 _ (by omega))
  intro p pListed p' pListed' same
  obtain ⟨pOn, pNonempty, _⟩ := (mem_deepPrefixes o path p).mp pListed
  obtain ⟨pOn', pNonempty', _⟩ := (mem_deepPrefixes o path p').mp pListed'
  exact (joinKeys_eq_iff p p' (plain.above pOn) (plain.above pOn') pNonempty pNonempty').mp same

theorem deepSections_nodup (path : List String) (plain : PlainPath path) (minLevelSemaphore : Nat)
    (now : ℚ) (positive : 1 ≤ o.keyLevelNodes) :
    ((deepSections o create edit ttl path minLevelSemaphore now).map Section.key).Nodup := by
  rw [deepSections_keys o create edit ttl path minLevelSemaphore now positive]
  exact deepKeys_nodup o path plain

theorem setSections_nodup (path : List String) (plain : PlainPath path) (v : T) (now : ℚ)
    (positive : 1 ≤ o.keyLevelNodes) :
    ((setSections o path v ttl now).map Section.key).Nodup := by
  rw [setSections_keys o ttl path v now positive]
  exact deepKeys_nodup o path plain

end

end TreeKeyCache
