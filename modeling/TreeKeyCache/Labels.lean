import TreeKeyCache.PathSections
import Mathlib.Data.List.Infix

/-! # What a section does to the nodes of its key

A label is what a tree stores at a node: a value and a deadline.  A walk relabels
the nodes on its path and no other, and the section around it stores a tree with
exactly these labels. -/
set_option autoImplicit false
namespace TreeKeyCache

variable {T R : Type}

namespace Label

def none : Label R := ⟨Option.none, Option.none⟩

/-- The value, unless its deadline has passed. -/
def live (label : Label R) (now : ℚ) : Option R :=
  match label.deadline with
  | Option.none => label.value
  | some d => if d = 0 ∨ now < d then label.value else Option.none

@[simp] theorem live_none (now : ℚ) : (none : Label R).live now = Option.none := rfl

theorem live_of_no_deadline (label : Label R) (now : ℚ) (undated : label.deadline = Option.none) :
    label.live now = label.value := by
  rw [live, undated]

end Label

namespace Tree

/-- The label at the end of a path; a missing node has nothing. -/
def labelAt (tree : Tree R) (keys : List String) : Label R :=
  ((tree.sub keys).map label).getD Label.none

@[simp] theorem label_withChildren (tree : Tree R) (c : Option (TreeChildren R)) :
    (tree.withChildren c).label = tree.label := by cases tree; rfl

theorem SameNodes.labelAt {tree other : Tree R} (same : tree.SameNodes other) (q : List String) :
    tree.labelAt q = other.labelAt q := congrArg (fun slot => slot.getD Label.none) (same q)

theorem labelAt_nil (tree : Tree R) : tree.labelAt [] = tree.label := rfl

theorem labelAt_cons (tree : Tree R) (key : String) (rest : List String) :
    tree.labelAt (key :: rest) = ((tree.child key).getD empty).labelAt rest := by
  unfold labelAt
  rw [sub_cons]
  cases tree.child key with
  | some child => rfl
  | none =>
      cases rest with
      | nil => rfl
      | cons next rest => simp

theorem labelAt_empty (keys : List String) : (empty : Tree R).labelAt keys = Label.none := by
  cases keys with
  | nil => rfl
  | cons key rest => simp [labelAt]

theorem getTreeCurrentSerializedValue_eq (tree : Tree R) (now : ℚ) :
    getTreeCurrentSerializedValue tree now = tree.label.live now := rfl

theorem valueAt_eq_live (tree : Tree R) (now : ℚ) (keys : List String) :
    tree.valueAt now keys = (tree.labelAt keys).live now := by
  unfold valueAt labelAt
  cases tree.sub keys <;> rfl

theorem child_withChildren_put (tree : Tree R) (key other : String) (below : Tree R)
    (entries : TreeChildren R) :
    (tree.withChildren (some (Entries.put key (some below) entries))).child other =
      if other = key then some below else (entries.lookup other).join := by
  simp only [child, withChildren_children, Option.bind_some]
  by_cases same : other = key
  · rw [if_pos same, same, Entries.lookup_put_self]
    rfl
  · rw [if_neg same, Entries.lookup_put_ne key other (some below) same]

theorem child_eq_lookup (tree : Tree R) (key : String) :
    tree.child key = ((tree.children.getD []).lookup key).join := by
  unfold child
  cases tree.children <;> rfl

theorem wellFormed_sub : ∀ (path : List String) (tree node : Tree R), tree.wellFormed = true →
    tree.sub path = some node → node.wellFormed = true := by
  intro path
  induction path with
  | nil =>
      intro tree node wellFormed found
      obtain rfl := Option.some.inj found
      exact wellFormed
  | cons key rest ih =>
      intro tree node wellFormed found
      rw [sub_cons, Option.bind_eq_some_iff] at found
      obtain ⟨child, listed, below⟩ := found
      exact ih child node (tree.wellFormed_child child key wellFormed listed) below

/-- A child replaced or added leaves a tree well formed. -/
theorem wellFormed_withChildren_put (tree top below : Tree R) (key : String)
    (wellFormed : tree.wellFormed = true) (belowWellFormed : below.wellFormed = true) :
    (top.withChildren (some (Entries.put key (some below) (tree.children.getD [])))).wellFormed =
      true := by
  have own : Entries.Unique (tree.children.getD []) ∧
      ∀ k child, (k, some child) ∈ tree.children.getD [] → child.wellFormed = true := by
    cases listed : tree.children with
    | none => simp [Entries.Unique]
    | some entries => exact (wellFormed_iff tree).mp wellFormed entries listed
  rw [wellFormed_iff]
  intro entries stored
  rw [withChildren_children, Option.some.injEq] at stored
  subst stored
  refine ⟨Entries.unique_put key (some below) _ own.1, fun k child member => ?_⟩
  rcases Entries.mem_put key (some below) (k, some child) _ member with added | kept
  · simp only [Prod.mk.injEq, Option.some.injEq] at added
    rw [added.2]
    exact belowWellFormed
  · exact own.2 k child kept

/-- Putting back the child that is there changes nothing. -/
theorem withChildren_put_child (tree child : Tree R) (key : String)
    (found : tree.child key = some child) :
    tree.withChildren (some (Entries.put key (some child) (tree.children.getD []))) = tree := by
  obtain ⟨v, d, c⟩ := tree
  cases c with
  | none => simp [Tree.child] at found
  | some entries =>
      have listed : entries.lookup key = some (some child) := by
        simpa [Tree.child, Option.join_eq_some_iff] using found
      simp only [withChildren, children_mk, Option.getD_some,
        Entries.put_of_lookup key (some child) entries listed]

end Tree

section
variable [SerializedForm R] (o : LawfulOptions T R) (create : Option (ChainedObject → Option T))
  (edit : Step T → Option T) (ttl : Option (StepTtl T))

def Label.enriched (step : Step T) (seconds : Option ℚ) (now : ℚ) (label : Label R) : Label R :=
  match step.value with
  | Option.none => label
  | some value =>
      if differs (label.live now) (o.encode value) then
        ⟨some (o.encode value),
          if truthyNumber seconds then seconds.map fun s => now + s * 1000
          else if truthyNumber label.deadline then Option.none else label.deadline⟩
      else label

theorem enriched_label (step : Step T) (tree : Tree R) (seconds : Option ℚ) (now : ℚ) :
    (enriched o step (tree.label.live now) tree seconds now).1.label =
      tree.label.enriched o step seconds now := by
  obtain ⟨v, d, c⟩ := tree
  unfold enriched Label.enriched
  cases step.value with
  | none => rfl
  | some value =>
      simp only
      split
      · split
        · rfl
        · split <;> simp_all [Tree.label, Tree.withValue, Tree.withDeadline]
      · rfl

theorem enriched_wellFormed (step : Step T) (current : Option R) (tree : Tree R)
    (seconds : Option ℚ) (now : ℚ) (wellFormed : tree.wellFormed = true) :
    (enriched o step current tree seconds now).1.wellFormed = true := by
  rw [Tree.wellFormed_iff] at wellFormed ⊢
  rw [enriched_children]
  exact wellFormed

theorem enriched_unchanged (step : Step T) (current : Option R) (tree : Tree R)
    (seconds : Option ℚ) (now : ℚ) (unchanged : (enriched o step current tree seconds now).2 = false) :
    (enriched o step current tree seconds now).1 = tree := by
  unfold enriched at unchanged ⊢
  cases hvalue : step.value with
  | none => rfl
  | some value =>
      simp only [hvalue] at unchanged ⊢
      split at unchanged
      · split at unchanged
        · cases unchanged
        · split at unchanged <;> cases unchanged
      · rename_i same
        rw [if_neg same]

/-! ## Walks -/

/-- The label a node at `path` has after it was visited. -/
def Label.visited (path : List String) (last : Bool) (now : ℚ) (label : Label R) : Label R :=
  let step := editStep edit (present o.toOptions create (nodeRefOf path) (label.live now))
  label.enriched o step (if last then stepTtl ttl step else Option.none) now

theorem nodeRefOf_below (base : List String) (key : String) (nonempty : base ≠ []) :
    ChainedObject.ofParent key ((nodeRefOf base).level + 1) (some (nodeRefOf base)) =
      nodeRefOf (base ++ [key]) := by
  rw [nodeRefOf_append_singleton, nodeRefOf_level base nonempty, chainOf_eq_some base nonempty]

theorem walk_wellFormed (now : ℚ) : ∀ (rest : List String) (nodeRef : ChainedObject)
    (tree : Tree R), tree.wellFormed = true →
      (walk o create edit ttl now nodeRef tree rest).tree.wellFormed = true := by
  intro rest
  induction rest with
  | nil =>
      intro nodeRef tree wellFormed
      exact enriched_wellFormed o _ _ tree _ now wellFormed
  | cons key rest ih =>
      intro nodeRef tree wellFormed
      have childWellFormed : ((tree.child key).getD Tree.empty).wellFormed = true := by
        cases found : tree.child key with
        | none => rfl
        | some child => exact tree.wellFormed_child child key wellFormed found
      exact tree.wellFormed_withChildren_put _ _ key wellFormed (ih _ _ childWellFormed)

theorem walk_unchanged (now : ℚ) : ∀ (rest : List String) (nodeRef : ChainedObject)
    (tree : Tree R), (walk o create edit ttl now nodeRef tree rest).changed = false →
      (walk o create edit ttl now nodeRef tree rest).tree = tree := by
  intro rest
  induction rest with
  | nil => intro nodeRef tree unchanged; exact enriched_unchanged o _ _ tree _ now unchanged
  | cons key rest ih =>
      intro nodeRef tree unchanged
      simp only [walk, Bool.or_eq_false_iff] at unchanged ⊢
      obtain ⟨⟨hereSame, present⟩, belowSame⟩ := unchanged
      cases found : tree.child key with
      | none => simp [found] at present
      | some child =>
          rw [found, Option.getD_some] at belowSame
          rw [enriched_unchanged o _ _ tree _ now hereSame, Option.getD_some, ih _ _ belowSame]
          exact tree.withChildren_put_child child key found

theorem walk_child (now : ℚ) (nodeRef : ChainedObject) (tree : Tree R) (key other : String)
    (rest : List String) :
    ((walk o create edit ttl now nodeRef tree (key :: rest)).tree.child other).getD Tree.empty =
      if other = key then
        (walk o create edit ttl now (.ofParent key (nodeRef.level + 1) (some nodeRef))
          ((tree.child key).getD Tree.empty) rest).tree
      else (tree.child other).getD Tree.empty := by
  rw [walk, Tree.child_withChildren_put]
  by_cases same : other = key
  · rw [if_pos same, if_pos same, Option.getD_some]
  · rw [if_neg same, if_neg same, ← Tree.child_eq_lookup]

/-- A walk visits the nodes on its path. -/
theorem walk_labelAt_prefix (now : ℚ) : ∀ (q rest base : List String) (tree : Tree R),
    base ≠ [] → q <+: rest →
      (walk o create edit ttl now (nodeRefOf base) tree rest).tree.labelAt q =
        (tree.labelAt q).visited o create edit ttl (base ++ q) (decide (q = rest)) now := by
  intro q
  induction q with
  | nil =>
      intro rest base tree _ _
      rw [List.append_nil, Tree.labelAt_nil, Tree.labelAt_nil]
      cases rest with
      | nil => exact enriched_label o _ tree _ now
      | cons key rest =>
          rw [walk, Tree.label_withChildren]
          exact enriched_label o _ tree _ now
  | cons key q ih =>
      intro rest base tree nonempty onPath
      obtain ⟨tail, rfl⟩ := onPath
      have below := ih (q ++ tail) (base ++ [key]) ((tree.child key).getD Tree.empty) (by simp)
        (List.prefix_append q tail)
      rw [Tree.labelAt_cons, List.cons_append, walk_child, if_pos rfl,
        nodeRefOf_below base key nonempty, below, ← Tree.labelAt_cons, List.append_assoc]
      simp

/-- A walk leaves every other node alone. -/
theorem walk_labelAt_of_not_prefix (now : ℚ) : ∀ (q rest : List String)
    (nodeRef : ChainedObject) (tree : Tree R), ¬ q <+: rest →
      (walk o create edit ttl now nodeRef tree rest).tree.labelAt q = tree.labelAt q := by
  intro q
  induction q with
  | nil => intro rest nodeRef tree apart; exact absurd (List.nil_prefix) apart
  | cons key q ih =>
      intro rest nodeRef tree apart
      rw [Tree.labelAt_cons, Tree.labelAt_cons]
      cases rest with
      | nil =>
          have children : (walk o create edit ttl now nodeRef tree []).tree.children =
              tree.children := enriched_children o _ _ tree _ now
          rw [Tree.child_eq_lookup, children, ← Tree.child_eq_lookup]
      | cons first rest =>
          rw [walk_child]
          by_cases same : key = first
          · subst same
            have apartBelow : ¬ q <+: rest := by
              intro onPath
              exact apart (List.cons_prefix_cons.mpr ⟨rfl, onPath⟩)
            rw [if_pos rfl]
            exact ih rest _ _ apartBelow
          · rw [if_neg same]

/-- A walk presents the nodes on its path, each as it found it. -/
theorem walk_steps (now : ℚ) : ∀ (rest base : List String) (tree : Tree R), base ≠ [] →
    (walk o create edit ttl now (nodeRefOf base) tree rest).steps =
      rest.inits.map fun q =>
        present o.toOptions create (nodeRefOf (base ++ q)) ((tree.labelAt q).live now) := by
  intro rest
  induction rest with
  | nil => intro base tree _; simp [walk, Tree.labelAt_nil, Tree.getTreeCurrentSerializedValue_eq]
  | cons key rest ih =>
      intro base tree nonempty
      have below := ih (base ++ [key]) ((tree.child key).getD Tree.empty) (by simp)
      rw [walk, nodeRefOf_below base key nonempty]
      simp only [below, List.inits_cons, List.map_cons, List.map_map, List.append_nil,
        Tree.labelAt_nil, Tree.getTreeCurrentSerializedValue_eq]
      congr 1
      apply List.map_congr_left
      intro q _
      simp only [Function.comp_apply, Tree.labelAt_cons, List.append_assoc, List.singleton_append]

/-- A walk whose last node gets another serialized value changes the tree. -/
theorem walk_changed_of_last (now : ℚ) (v : T) :
    ∀ (rest base : List String) (tree : Tree R), base ≠ [] →
      edit (present o.toOptions create (nodeRefOf (base ++ rest)) ((tree.labelAt rest).live now)) =
        some v →
      differs ((tree.labelAt rest).live now) (o.encode v) = true →
        (walk o create edit ttl now (nodeRefOf base) tree rest).changed = true := by
  intro rest
  induction rest with
  | nil =>
      intro base tree _ assigned changed
      rw [List.append_nil] at assigned
      simp only [walk, enriched, editStep, Tree.getTreeCurrentSerializedValue_eq,
        ← Tree.labelAt_nil, assigned, changed, if_true]
      split
      · rfl
      · split <;> rfl
  | cons key rest ih =>
      intro base tree nonempty assigned changed
      rw [Tree.labelAt_cons] at assigned changed
      have below := ih (base ++ [key]) ((tree.child key).getD Tree.empty) (by simp)
        (by rw [List.append_assoc]; exact assigned) changed
      rw [walk, nodeRefOf_below base key nonempty]
      simp only [below, Bool.or_true]

end

end TreeKeyCache
