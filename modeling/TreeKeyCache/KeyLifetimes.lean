import TreeKeyCache.PruneInvisible
import TreeKeyCache.DistinctKeys
import TreeKeyCache.FullTreeSet
import TreeKeyCache.Monitors
import Mathlib.Tactic.Linarith

/-! # A tree key outlives its nodes

When the key of a tree expires, the nodes of the tree go with it.  So a key must not
expire before the deadline of a live node of its tree, and not at all when a live node
has no deadline.  A key that does not expire is always long-lived enough; the expiry that
`persistTree` computes takes into account the ttl of the current call and the ttl the key
has, and nothing else. -/
set_option autoImplicit false
namespace TreeKeyCache

variable {T R : Type} [SerializedForm R]

/-- The node goes no later than at `expiry`. -/
def Label.Within (now : ℚ) (expiry : Option ℚ) (label : Label R) : Prop :=
  label.live now ≠ Option.none → ∀ e, expiry = some e →
    ∃ d, label.deadline = some d ∧ d ≠ 0 ∧ d ≤ e

def KeyOutlives (o : LawfulOptions T R) (w : World R) : Prop :=
  ∀ key entry, TreeKey o key → w.store key = some entry →
    ∀ keys, ((rootTree o (some entry.content)).labelAt keys).Within w.clock entry.expiry

section
omit [SerializedForm R]

theorem Label.live_antitone {label : Label R} {now later : ℚ} (after : now ≤ later)
    (alive : label.live later ≠ Option.none) : label.live now ≠ Option.none :=
  fun gone => alive (label.dead_of_live_eq_none now gone later after)

theorem Label.Within.later {label : Label R} {now later : ℚ} {expiry : Option ℚ}
    (within : label.Within now expiry) (after : now ≤ later) : label.Within later expiry :=
  fun alive => within (Label.live_antitone after alive)

theorem Label.within_permanent (now : ℚ) (label : Label R) : label.Within now Option.none :=
  fun _ _ expires => (nomatch expires)

theorem Label.within_none (now : ℚ) (expiry : Option ℚ) : (Label.none : Label R).Within now expiry :=
  fun alive => absurd rfl alive

theorem Label.Within.fades {label label' : Label R} {now : ℚ} {expiry : Option ℚ}
    (within : label.Within now expiry) (fades : label.Fades now label') :
    label'.Within now expiry := by
  rcases fades with rfl | ⟨rfl, _⟩
  · exact within
  · exact Label.within_none now expiry

theorem Label.Within.extend {label : Label R} {now e e' : ℚ} (within : label.Within now (some e))
    (longer : e ≤ e') : label.Within now (some e') := by
  intro alive limit expires
  obtain rfl := Option.some.inj expires
  obtain ⟨d, dated, nonzero, bounded⟩ := within alive e rfl
  exact ⟨d, dated, nonzero, bounded.trans longer⟩

end

structure Lasting (o : LawfulOptions T R) (w : World R) : Prop where
  clock : 0 ≤ w.clock
  decodable : Decodable o w
  outlives : KeyOutlives o w

theorem lasting_start (o : LawfulOptions T R) (t : ℚ) (started : 0 ≤ t) :
    Lasting o (World.emptyAt t) :=
  ⟨started, fun _ _ stored => (nomatch stored), fun _ _ _ stored => (nomatch stored)⟩

theorem Lasting.wait {o : LawfulOptions T R} {w : World R} (lasting : Lasting o w) (t : ℚ)
    (later : w.clock ≤ t) : Lasting o { w with clock := t } :=
  ⟨lasting.clock.trans later, lasting.decodable, fun key entry treeKey stored keys =>
    (lasting.outlives key entry treeKey stored keys).later later⟩

theorem Lasting.change {o : LawfulOptions T R} {w w' : World R} (lasting : Lasting o w)
    (clock : w'.clock = w.clock)
    (entries : ∀ key entry, TreeKey o key → w'.store key = some entry → w.store key = some entry ∨
      ((∀ r, truthy? (some entry.content) = some r →
          ∃ tree, o.treeSerializer.deserialize r = .ok tree) ∧
        ∀ keys, ((rootTree o (some entry.content)).labelAt keys).Within w.clock entry.expiry)) :
    Lasting o w' := by
  refine ⟨clock ▸ lasting.clock, fun key entry stored treeKey => ?_, fun key entry treeKey stored => ?_⟩
  · rcases entries key entry treeKey stored with same | changed
    · exact lasting.decodable key entry same treeKey
    · exact changed.1
  · rw [clock]
    rcases entries key entry treeKey stored with same | changed
    · exact lasting.outlives key entry treeKey same
    · exact changed.2

/-! ## Writing along a path -/

section
variable (o : LawfulOptions T R) (create : Option (ChainedObject → Option T))
  (edit : Step T → Option T) (ttl : Option (StepTtl T))

/-- The step the consumer hands back for the node at `path`. -/
def handedBack (path : List String) (now : ℚ) (label : Label R) : Step T :=
  editStep edit (present o.toOptions create (nodeRefOf path) (label.live now))

/-- The call gives the node at `path` another value. -/
def Rewrites (path : List String) (now : ℚ) (label : Label R) : Prop :=
  ∃ v, (handedBack o create edit path now label).value = some v ∧
    differs (label.live now) (o.encode v) = true

theorem Label.visited_of_not_rewrites {path : List String} {now : ℚ} {label : Label R}
    (last : Bool) (kept : ¬ Rewrites o create edit path now label) :
    label.visited o create edit ttl path last now = label := by
  unfold Label.visited Label.enriched
  simp only
  split
  · rfl
  · rename_i v handed
    have same : ¬ differs (label.live now) (o.encode v) = true := fun other => kept ⟨v, handed, other⟩
    rw [if_neg same]

theorem walk_ttl (now : ℚ) : ∀ (rest base : List String) (tree : Tree R), base ≠ [] →
    (walk o create edit ttl now (nodeRefOf base) tree rest).ttl =
      (stepTtl ttl (handedBack o create edit (base ++ rest) now (tree.labelAt rest))).bind nonzero := by
  intro rest
  induction rest with
  | nil =>
      intro base tree _
      simp only [walk, handedBack, List.append_nil, Tree.labelAt_nil,
        Tree.getTreeCurrentSerializedValue_eq]
  | cons key rest ih =>
      intro base tree nonempty
      have below := ih (base ++ [key]) ((tree.child key).getD Tree.empty) (by simp)
      rw [walk, nodeRefOf_below base key nonempty]
      simp only [below, Tree.labelAt_cons, List.append_assoc, List.singleton_append]

/-- What a call on `path` with a ttl for its last node asks of the tree it finds: it rewrites
no node on the way, and every other live node goes early enough or the key expires already. -/
def KeepsKey (w : World R) (path : List String) : Prop :=
  let label := nodeLabel o (w.read (nodeKey o path))
  let rewrites q := Rewrites o create edit q w.clock (label q)
  o.keyLevelNodes ≤ path.length →
    ∀ s, stepTtl ttl (handedBack o create edit path w.clock (label path)) = some s →
      (∀ q, q <+: path → o.keyLevelNodes ≤ q.length → q ≠ path → ¬ rewrites q) ∧
      (w.currentTtl (nodeKey o path) ≠ none ∨
        ∀ q, q.take o.keyLevelNodes = path.take o.keyLevelNodes →
          (label q).live w.clock ≠ none → (q = path → ¬ rewrites path) →
            ∃ d, (label q).deadline = some d ∧ d ≠ 0 ∧ d ≤ w.clock + s * 1000)

def PositiveTtl : Prop := ∀ step s, stepTtl ttl step = some s → 0 < s

section
variable {o} {create} {edit} {ttl} {w : World R} {path : List String}

omit [SerializedForm R] in
/-- The ttl `persistTree` gives the key makes it expire no earlier than the ttl of the call
says, and no earlier than before. -/
theorem atLeast_expiry (w : World R) (key : String) (s : ℚ) :
    ∃ e, ((TtlRule.atLeast s).ttl (w.currentTtl key)).map (fun ttl => w.clock + ttl * 1000) = some e ∧
      w.clock + s * 1000 ≤ e ∧ ∀ current, w.currentTtl key = some current →
        w.clock + current * 1000 ≤ e := by
  obtain ⟨m, ttl, longer, same⟩ := TtlRule.exists_atLeast s (w.currentTtl key)
  refine ⟨w.clock + m * 1000, by rw [ttl, Option.map_some], by linarith, ?_⟩
  intro current found
  have kept := le_max_left current s
  rw [← same current found] at kept
  linarith

/-- A live node of the tree goes no later than the key, as far as the key expires. -/
theorem Lasting.label_within (lasting : Lasting o w) {key : String} (treeKey : TreeKey o key)
    {current : ℚ} (expires : w.currentTtl key = some current) (keys : List String) :
    ((rootTree o (w.read key)).labelAt keys).Within w.clock (some (w.clock + current * 1000)) := by
  unfold World.currentTtl at expires
  cases stored : w.store key with
  | none => rw [stored] at expires; cases expires
  | some entry =>
      rw [stored] at expires
      simp only at expires
      split at expires
      · rename_i alive
        obtain ⟨e, limit, rfl⟩ := Option.map_eq_some_iff.mp expires
        have read : w.read key = some entry.content := by
          rw [World.read, World.readAt, stored]
          exact if_pos alive
        have within := lasting.outlives key entry treeKey stored keys
        rw [limit] at within
        rw [read]
        have same : w.clock + (e - w.clock) / 1000 * 1000 = e := by ring
        rw [same]
        exact within
      · cases expires

/-- A node that is not rewritten goes no later than the new expiry of the key. -/
theorem KeepsKey.kept (lasting : Lasting o w) (keeps : KeepsKey o create edit ttl w path)
    (deep : o.keyLevelNodes ≤ path.length) (treeKey : TreeKey o (nodeKey o path)) {s e : ℚ}
    (timed : stepTtl ttl (handedBack o create edit path w.clock
      (nodeLabel o (w.read (nodeKey o path)) path)) = some s)
    (long : w.clock + s * 1000 ≤ e)
    (longer : ∀ current, w.currentTtl (nodeKey o path) = some current →
      w.clock + current * 1000 ≤ e)
    (q : List String) (same : q.take o.keyLevelNodes = path.take o.keyLevelNodes)
    (untouched : q = path → ¬ Rewrites o create edit path w.clock
      (nodeLabel o (w.read (nodeKey o path)) path)) :
    (nodeLabel o (w.read (nodeKey o path)) q).Within w.clock (some e) := by
  have deepNode : ¬ q.length < o.keyLevelNodes := by
    have lengths := congrArg List.length same
    simp only [List.length_take] at lengths
    omega
  rcases (keeps deep s timed).2 with expires | dated
  · obtain ⟨current, found⟩ := Option.ne_none_iff_exists'.mp expires
    have within := lasting.label_within treeKey found (q.drop o.keyLevelNodes)
    rw [nodeLabel, if_neg deepNode]
    exact within.extend (longer current found)
  · intro alive limit expires
    obtain rfl := Option.some.inj expires
    obtain ⟨d, deadline, nonzero, early⟩ := dated q same alive untouched
    exact ⟨d, deadline, nonzero, early.trans long⟩

theorem visited_within (clock : 0 ≤ w.clock) (positive : PositiveTtl ttl) (label : Label R) {s e : ℚ}
    (rewrites : Rewrites o create edit path w.clock label)
    (timed : stepTtl ttl (handedBack o create edit path w.clock label) = some s)
    (long : w.clock + s * 1000 ≤ e) :
    (label.visited o create edit ttl path true w.clock).Within w.clock (some e) := by
  obtain ⟨v, handed, other⟩ := rewrites
  have seconds := positive _ s timed
  unfold handedBack at handed timed
  have relabelled : label.visited o create edit ttl path true w.clock =
      ⟨some (o.encode v), some (w.clock + s * 1000)⟩ := by
    unfold Label.visited Label.enriched
    simp only [if_true, timed, handed, if_pos other, truthyNumber_some_of_pos s seconds,
      Option.map_some]
  intro _ limit expires
  obtain rfl := Option.some.inj expires
  rw [relabelled]
  have later : 0 < w.clock + s * 1000 := by linarith
  exact ⟨_, rfl, ne_of_gt later, long⟩

theorem treeSection_within (lasting : Lasting o w) (keeps : KeepsKey o create edit ttl w path)
    (ttlPositive : PositiveTtl ttl) (positive : 1 ≤ o.keyLevelNodes)
    (deep : o.keyLevelNodes ≤ path.length) (treeKey : TreeKey o (nodeKey o path))
    (minLevelSemaphore : Nat) {value : R} {rule : TtlRule}
    (written : (treeSection o create edit ttl path minLevelSemaphore w.clock).writes
      (w.read (nodeKey o path)) = some (value, rule)) (keys : List String) :
    ((rootTree o (some value)).labelAt keys).Within w.clock
      ((rule.ttl (w.currentTtl (nodeKey o path))).map fun ttl => w.clock + ttl * 1000) := by
  set content := w.read (nodeKey o path) with contentDef
  let q := path.take o.keyLevelNodes ++ keys
  have length : (path.take o.keyLevelNodes).length = o.keyLevelNodes := by
    rw [List.length_take]
    omega
  have same : q.take o.keyLevelNodes = path.take o.keyLevelNodes := by
    rw [List.take_append_of_le_length (by omega), List.take_of_length_le (by omega)]
  have below : q.drop o.keyLevelNodes = keys := List.drop_left' length
  have deepNode : ¬ q.length < o.keyLevelNodes := by
    have longer : q.length = o.keyLevelNodes + keys.length := by
      rw [List.length_append, length]
    omega
  -- the label in the written tree is the visited label of the tree that was read
  have relabel := treeSection_label o create edit ttl path minLevelSemaphore w.clock content
    positive deep q same
  have after : (treeSection o create edit ttl path minLevelSemaphore w.clock).after content =
      some value := by rw [Section.after, written]
  rw [after, nodeLabel, if_neg deepNode, below] at relabel
  rw [relabel]
  have base : path.take o.keyLevelNodes ≠ [] := List.length_pos_iff.mp (by omega)
  have whole : path.take o.keyLevelNodes ++ path.drop o.keyLevelNodes = path :=
    List.take_append_drop _ _
  have shallow : ¬ path.length < o.keyLevelNodes := by omega
  have ttlOf := walk_ttl o create edit ttl w.clock (path.drop o.keyLevelNodes)
    (path.take o.keyLevelNodes) (rootTree o content) base
  have pathLabel : (rootTree o content).labelAt (path.drop o.keyLevelNodes) =
      nodeLabel o content path := by rw [nodeLabel, if_neg shallow]
  rw [whole, pathLabel] at ttlOf
  simp only [treeSection, treeWalk, ttlOf] at written
  split at written
  · obtain ⟨_, rfl⟩ := Prod.mk.inj (Option.some.inj written)
    cases timed : stepTtl ttl (handedBack o create edit path w.clock (nodeLabel o content path)) with
    | none => exact Label.within_permanent _ _
    | some s =>
        have seconds : s ≠ 0 := ne_of_gt (ttlPositive _ s timed)
        have rule : ttlRule ((some s).bind nonzero) = .atLeast s := by
          rw [Option.bind_some, nonzero, if_neg seconds]
          rfl
        obtain ⟨e, expires, long, longer⟩ := atLeast_expiry w (nodeKey o path) s
        rw [rule, expires]
        by_cases last : q = path
        · rw [if_pos (by rw [last])]
          by_cases rewrites : Rewrites o create edit path w.clock (nodeLabel o content path)
          · rw [last, decide_eq_true rfl]
            exact visited_within lasting.clock ttlPositive _ rewrites timed long
          · rw [last, Label.visited_of_not_rewrites o create edit ttl _ rewrites]
            exact keeps.kept lasting deep treeKey timed long longer path rfl fun _ => rewrites
        · have kept := keeps.kept lasting deep treeKey timed long longer q same
            fun atEnd => absurd atEnd last
          split
          · rename_i onPath
            have untouched := (keeps deep s timed).1 q onPath (by omega) last
            rw [Label.visited_of_not_rewrites o create edit ttl _ untouched]
            exact kept
          · exact kept
  · cases written

variable (o) (create) (edit) (ttl)

theorem deepSections_lasting (lasting : Lasting o w) (keeps : KeepsKey o create edit ttl w path)
    (ttlPositive : PositiveTtl ttl) (positive : 1 ≤ o.keyLevelNodes) (plain : PlainPath path)
    (minLevelSemaphore : Nat) :
    Lasting o (performAll w (deepSections o create edit ttl path minLevelSemaphore w.clock)) := by
  have keysOf := deepSections_keys o create edit ttl path minLevelSemaphore w.clock positive
  refine lasting.change (performAll_clock _ w) fun key entry treeKey stored => ?_
  by_cases atNode : o.keyLevelNodes ≤ path.length ∧ key = nodeKey o path
  · obtain ⟨deep, rfl⟩ := atNode
    let s := treeSection o create edit ttl path minLevelSemaphore w.clock
    have listed : s ∈ deepSections o create edit ttl path minLevelSemaphore w.clock :=
      treeSection_mem o create edit ttl deep minLevelSemaphore w.clock
    have distinct := deepSections_nodup o create edit ttl path plain minLevelSemaphore w.clock positive
    have ofNode : s.key = nodeKey o path := rfl
    rw [← ofNode, performAll_entry s _ w distinct listed, ofNode] at stored
    cases written : s.writes (w.read (nodeKey o path)) with
    | none =>
        rw [written] at stored
        exact Or.inl stored
    | some pair =>
        obtain ⟨value, rule⟩ := pair
        rw [written] at stored
        obtain rfl := Option.some.inj stored
        refine Or.inr ⟨fun r buffer => ?_, fun keys => ?_⟩
        · simp only [s, treeSection] at written
          split at written
          · obtain ⟨rfl, _⟩ := Prod.mk.inj (Option.some.inj written)
            exact (decodes_encodeTree o _ (walk_wellFormed o create edit ttl w.clock _ _ _
              (rootTree_wellFormed o _)) r buffer).imp fun _ => And.left
          · cases written
        · exact treeSection_within lasting keeps ttlPositive positive deep treeKey
            minLevelSemaphore written keys
  · left
    have absent : key ∉ (deepSections o create edit ttl path minLevelSemaphore w.clock).map
        Section.key := by
      rw [keysOf]
      intro member
      obtain ⟨p, listed, rfl⟩ := List.mem_map.mp member
      obtain ⟨onPath, nonempty, short⟩ := (mem_deepPrefixes o path p).mp listed
      rw [TreeKey, splitKey_joinKeys p nonempty fun k inside =>
        ((plain.above onPath) k inside).colonFree] at treeKey
      have long := onPath.length_le
      refine atNode ⟨by omega, ?_⟩
      rw [nodeKey, ← treeKey, ← List.prefix_iff_eq_take.mp onPath]
    rw [performAll_store_of_not_mem key _ w absent] at stored
    exact stored

end

end

end TreeKeyCache
