import Mathlib.Data.List.Basic
import Mathlib.Data.List.Nodup

/-! # Ordered entry lists

A plain object is a list of own properties in enumeration order.  Reading takes
the first entry (`List.lookup`); assigning to a present key keeps its position
and assigning to a new key appends it.  Keys are unique in every list that
`put` builds from a list with unique keys. -/
set_option autoImplicit false
namespace Entries

variable {K A : Type} [DecidableEq K]

/-- Assign `value` under `key`. -/
def put (key : K) (value : A) : List (K × A) → List (K × A)
  | [] => [(key, value)]
  | (k, a) :: rest => if k = key then (key, value) :: rest else (k, a) :: put key value rest

def Unique (entries : List (K × A)) : Prop := (entries.map Prod.fst).Nodup

instance (entries : List (K × A)) : Decidable (Unique entries) :=
  inferInstanceAs (Decidable (entries.map Prod.fst).Nodup)

@[simp] theorem lookup_put_self (key : K) (value : A) :
    ∀ entries : List (K × A), (put key value entries).lookup key = some value := by
  intro entries
  induction entries with
  | nil => simp [put]
  | cons head rest ih =>
      obtain ⟨k, a⟩ := head
      by_cases hk : k = key
      · simp [put, hk]
      · have hne : (key == k) = false := by simpa using fun e => hk e.symm
        simp only [put, if_neg hk, List.lookup_cons, hne, ih]

theorem lookup_put_ne (key other : K) (value : A) (hne : other ≠ key) :
    ∀ entries : List (K × A), (put key value entries).lookup other = entries.lookup other := by
  intro entries
  induction entries with
  | nil =>
      have hno : (other == key) = false := by simpa using hne
      simp [put, List.lookup_cons, hno]
  | cons head rest ih =>
      obtain ⟨k, a⟩ := head
      by_cases hk : k = key
      · subst hk
        have hno : (other == k) = false := by simpa using hne
        simp [put, List.lookup_cons, hno]
      · simp only [put, if_neg hk, List.lookup_cons, ih]

theorem mem_keys_put (key other : K) (value : A) :
    ∀ entries : List (K × A),
      other ∈ (put key value entries).map Prod.fst ↔
        other = key ∨ other ∈ entries.map Prod.fst := by
  intro entries
  induction entries with
  | nil => simp [put]
  | cons head rest ih =>
      obtain ⟨k, a⟩ := head
      by_cases hk : k = key
      · subst hk
        simp only [put, if_true, List.map_cons, List.mem_cons]
        tauto
      · simp only [put, if_neg hk, List.map_cons, List.mem_cons, ih]
        tauto

theorem unique_put (key : K) (value : A) :
    ∀ entries : List (K × A), Unique entries → Unique (put key value entries) := by
  intro entries
  induction entries with
  | nil => intro _; simp [put, Unique]
  | cons head rest ih =>
      intro unique
      obtain ⟨k, a⟩ := head
      have hnot : k ∉ rest.map Prod.fst := (List.nodup_cons.mp unique).1
      have hrest : Unique rest := (List.nodup_cons.mp unique).2
      by_cases hk : k = key
      · subst hk
        simpa only [put, if_true, Unique, List.map_cons] using unique
      · simp only [put, if_neg hk, Unique, List.map_cons, List.nodup_cons]
        refine ⟨?_, ih hrest⟩
        rw [mem_keys_put]
        rintro (e | e)
        · exact hk e
        · exact hnot e

theorem mem_put (key : K) (value : A) (entry : K × A) :
    ∀ entries : List (K × A),
      entry ∈ put key value entries → entry = (key, value) ∨ entry ∈ entries := by
  intro entries
  induction entries with
  | nil => intro h; simpa [put] using h
  | cons head rest ih =>
      intro h
      obtain ⟨k, a⟩ := head
      by_cases hk : k = key
      · simp only [put, if_pos hk, List.mem_cons] at h
        rcases h with h | h
        · exact Or.inl h
        · exact Or.inr (List.mem_cons_of_mem _ h)
      · simp only [put, if_neg hk, List.mem_cons] at h
        rcases h with h | h
        · exact Or.inr (h ▸ List.mem_cons_self ..)
        · rcases ih h with h | h
          · exact Or.inl h
          · exact Or.inr (List.mem_cons_of_mem _ h)

theorem mem_of_lookup (key : K) (value : A) :
    ∀ entries : List (K × A), entries.lookup key = some value → (key, value) ∈ entries := by
  intro entries
  induction entries with
  | nil => intro h; simp at h
  | cons head rest ih =>
      intro h
      obtain ⟨k, a⟩ := head
      by_cases hk : key = k
      · subst hk
        simp only [List.lookup_cons_self, Option.some.injEq] at h
        exact h ▸ List.mem_cons_self ..
      · have hno : (key == k) = false := by simpa using hk
        rw [List.lookup_cons, hno] at h
        exact List.mem_cons_of_mem _ (ih h)

theorem lookup_of_mem (key : K) (value : A) :
    ∀ entries : List (K × A), Unique entries → (key, value) ∈ entries →
      entries.lookup key = some value := by
  intro entries
  induction entries with
  | nil => intro _ h; simp at h
  | cons head rest ih =>
      intro unique h
      obtain ⟨k, a⟩ := head
      rcases List.mem_cons.mp h with h | h
      · cases h
        exact List.lookup_cons_self
      · have hnot : k ∉ rest.map Prod.fst := (List.nodup_cons.mp unique).1
        have hk : key ≠ k := by
          intro e
          exact hnot (e ▸ List.mem_map_of_mem h)
        have hno : (key == k) = false := by simpa using hk
        rw [List.lookup_cons, hno]
        exact ih (List.nodup_cons.mp unique).2 h

theorem put_of_lookup (key : K) (value : A) :
    ∀ entries : List (K × A), entries.lookup key = some value → put key value entries = entries := by
  intro entries
  induction entries with
  | nil => intro found; simp at found
  | cons head rest ih =>
      obtain ⟨k, a⟩ := head
      intro found
      by_cases same : k = key
      · subst same
        simp only [List.lookup_cons_self, Option.some.injEq] at found
        simp [put, found]
      · rw [List.lookup_cons] at found
        simp only [beq_eq_false_iff_ne.mpr (Ne.symm same)] at found
        simp [put, same, ih found]

theorem put_put (key : K) (first second : A) :
    ∀ entries : List (K × A), put key second (put key first entries) = put key second entries := by
  intro entries
  induction entries with
  | nil => simp [put]
  | cons head rest ih =>
      obtain ⟨k, a⟩ := head
      by_cases same : k = key
      · simp [put, same]
      · simp [put, same, ih]

theorem put_of_not_mem (key : K) (value : A) :
    ∀ entries : List (K × A), key ∉ entries.map Prod.fst →
      put key value entries = entries ++ [(key, value)] := by
  intro entries
  induction entries with
  | nil => intro _; rfl
  | cons head rest ih =>
      obtain ⟨k, a⟩ := head
      intro absent
      rw [List.map_cons, List.mem_cons, not_or] at absent
      rw [put, if_neg (Ne.symm absent.1), ih absent.2, List.cons_append]

theorem lookup_of_not_mem (key : K) :
    ∀ entries : List (K × A), key ∉ entries.map Prod.fst → entries.lookup key = none := by
  intro entries
  induction entries with
  | nil => intro _; rfl
  | cons head rest ih =>
      obtain ⟨k, a⟩ := head
      intro absent
      rw [List.map_cons, List.mem_cons, not_or] at absent
      rw [List.lookup_cons, beq_eq_false_iff_ne.mpr absent.1]
      exact ih absent.2

end Entries
