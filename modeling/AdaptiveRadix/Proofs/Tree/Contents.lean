import AdaptiveRadix.Proofs.Key
import AdaptiveRadix.Proofs.Node.FiniteMap
import AdaptiveRadix.Tree.Growth
import AdaptiveRadix.Tree.Pruning

namespace AdaptiveRadix

/-!
# The keys of a subtree

Two keys that agree up to the level of a subtree are the same to it, so what an
operation does to a subtree as a map is said in terms of `Key.below`.  Each spec here
covers one operation at every level.  Its induction follows the descent: the leaf is
a node of values, and above it the spec of the child is carried through the entry
that holds the child.

What becomes of the pools plays no part: a subtree gets its keys from its nodes alone.
-/

namespace Node

variable {α : Type}

theorem isEmpty_insert (node : Node α) (chunk : Chunk) (value : α) :
    (node.insert chunk value).isEmpty = false :=
  beq_false_of_ne (Nat.succ_ne_zero node.count)

theorem count_pos {node : Node α} (occupied : node.isEmpty = false) : 0 < node.count :=
  Nat.pos_of_ne_zero (beq_eq_false_iff_ne.mp occupied)

variable [Inhabited α]

theorem withRoom_of_room {node : Node α} (room : node.isFull = false) (level : Nat)
    (child? : α -> Option Handle) (ledger : Ledger) :
    node.withRoom level child? ledger = (node, ledger) := by
  simp only [withRoom, room]

theorem withRoom_of_full {node : Node α} (full : node.isFull = true) {larger : SizeClass}
    (next : node.sizeClass.next? = some larger) (level : Nat) (child? : α -> Option Handle)
    (ledger : Ledger) :
    (node.withRoom level child? ledger).1 =
      node.moved larger ((ledger.pools.release ⟨⟨.ofLevel level, node.sizeClass⟩, node.slot⟩).take
        ⟨.ofLevel level, larger⟩).1.slot := by
  simp only [withRoom, full, next]

/-- A node with the same entries, and room for one more. -/
structure Roomy (before after : Node α) : Prop where
  valid : after.Valid
  room : after.isFull = false
  same : forall chunk, after.get? chunk = before.get? chunk

theorem roomy_withRoom {node : Node α} (valid : node.Valid) {chunk : Chunk}
    (missed : node.get? chunk = none) (level : Nat) (child? : α -> Option Handle)
    (ledger : Ledger) : Roomy node (node.withRoom level child? ledger).1 := by
  cases full : node.isFull with
  | false =>
      rw [withRoom_of_room full]
      exact ⟨valid, full, fun _ => rfl⟩
  | true =>
      rcases exists_next? valid missed full with ⟨larger, next⟩
      have count : node.count = node.sizeClass.capacity := beq_iff_eq.mp full
      have more := SizeClass.capacity_lt_of_next? next
      rw [← count] at more
      rw [withRoom_of_full full next]
      generalize ((ledger.pools.release ⟨⟨.ofLevel level, node.sizeClass⟩, node.slot⟩).take
        ⟨.ofLevel level, larger⟩).1.slot = slot
      rcases moved_keeps valid more.le slot with ⟨movedValid, same⟩
      refine ⟨movedValid, ?_, same⟩
      rw [isFull, beq_eq_false_iff_ne, count_moved valid, sizeClass_moved]
      exact more.ne

end Node

namespace Subtree

/-- A node of values as the subtree that it is. -/
def ofLeaf (leaf : Node UInt64) : Subtree 0 :=
  leaf

/-- A node of subtrees as the subtree that it is the top of. -/
def ofNode {level : Nat} (node : Node (Subtree level)) : Subtree (level + 1) :=
  node

/-- Every subtree is a leaf, or a node of subtrees for which a property holds already. -/
@[elab_as_elim]
theorem byLevel {motive : forall {level : Nat}, Subtree level -> Prop}
    (leaf : forall leaf : Node UInt64, motive (ofLeaf leaf))
    (node : forall {level : Nat} (node : Node (Subtree level)),
      (forall child : Subtree level, motive child) -> motive (ofNode node))
    {level : Nat} (subtree : Subtree level) : motive subtree := by
  induction level with
  | zero => exact leaf subtree
  | succ level inductionHypothesis => exact node subtree inductionHypothesis

/-- Every node is valid, and none is without entries. -/
def Sound : {level : Nat} -> Subtree level -> Prop
  | 0, (leaf : Node UInt64) => leaf.Valid ∧ leaf.isEmpty = false
  | _ + 1, (node : Node (Subtree _)) =>
      node.Valid ∧ node.isEmpty = false ∧
        forall chunk child, node.get? chunk = some child -> child.Sound

variable {level : Nat} {leaf : Node UInt64} {node after : Node (Subtree level)} {chunk : Chunk}
  {child : Subtree level} {key : Key}

theorem sound_leaf : (ofLeaf leaf).Sound ↔ leaf.Valid ∧ leaf.isEmpty = false :=
  Iff.rfl

theorem sound_node :
    (ofNode node).Sound ↔ node.Valid ∧ node.isEmpty = false ∧
      forall chunk child, node.get? chunk = some child -> child.Sound :=
  Iff.rfl

theorem get?_leaf (leaf : Node UInt64) (key : Key) : (ofLeaf leaf).get? key = leaf.get? (key.chunk 0) :=
  rfl

theorem get?_node (node : Node (Subtree level)) (key : Key) :
    (ofNode node).get? key = (node.get? (key.chunk (level + 1))).bind fun child => child.get? key := by
  simp only [get?, ofNode]
  split <;> simp [*]

theorem get?_of_held (held : node.get? (key.chunk (level + 1)) = some child) {other : Key}
    (here : other.chunk (level + 1) = key.chunk (level + 1)) :
    (ofNode node).get? other = child.get? other := by
  rw [get?_node, here, held, Option.bind_some]

/-- What a node holds under other chunks is untouched, and one child takes its place. -/
theorem get?_of_child
    (found : forall other, after.get? other = if other = chunk then some child else node.get? other)
    (key : Key) :
    (ofNode after).get? key =
      if key.chunk (level + 1) = chunk then child.get? key else (ofNode node).get? key := by
  rw [get?_node, found]
  by_cases here : key.chunk (level + 1) = chunk
  · rw [if_pos here, if_pos here, Option.bind_some]
  · rw [if_neg here, if_neg here, ← get?_node]

theorem sound_of_child (valid : after.Valid) (occupied : after.isEmpty = false)
    (children : forall chunk child, node.get? chunk = some child -> child.Sound)
    (sound : child.Sound)
    (found : forall other, after.get? other = if other = chunk then some child else node.get? other) :
    (ofNode after).Sound := by
  refine sound_node.mpr ⟨valid, occupied, ?_⟩
  intro other held looked
  rw [found] at looked
  by_cases same : other = chunk
  · rw [if_pos same] at looked
    exact Option.some.inj looked ▸ sound
  · rw [if_neg same] at looked
    exact children other held looked

/-- A node with room takes a subtree under a chunk it has no entry for. -/
theorem hold_keeps (valid : node.Valid) (room : node.isFull = false)
    (missed : node.get? chunk = none)
    (children : forall chunk child, node.get? chunk = some child -> child.Sound)
    (sound : child.Sound) (pools : Pools) :
    (hold node chunk child pools).1.Sound ∧ forall key,
      (hold node chunk child pools).1.get? key =
        if key.chunk (level + 1) = chunk then child.get? key else (ofNode node).get? key := by
  have found := Node.get?_insert valid room missed child
  exact ⟨sound_of_child (Node.valid_insert valid room missed child)
    (Node.isEmpty_insert node chunk child) children sound found, get?_of_child found⟩

/-- A vacant node of the smallest class becomes a path of one step. -/
theorem hold_vacant_keeps (sound : child.Sound) (slot : Nat) (chunk : Chunk) (pools : Pools) :
    (hold (Node.vacant .c1 slot) chunk child pools).1.Sound ∧ forall key,
      (hold (Node.vacant .c1 slot) chunk child pools).1.get? key =
        if key.chunk (level + 1) = chunk then child.get? key else none := by
  let empty : Node (Subtree level) := Node.vacant .c1 slot
  have missed : forall chunk, empty.get? chunk = none := Node.get?_vacant .c1 slot
  have children : forall chunk child, empty.get? chunk = some child -> child.Sound := by
    intro chunk child found
    rw [missed] at found
    cases found
  rcases hold_keeps (Node.valid_vacant .c1 slot) rfl (missed chunk) children sound pools with
    ⟨held, found⟩
  refine ⟨held, ?_⟩
  intro key
  rw [found key, get?_node, missed, Option.bind_none]

/-! ## Growing -/

theorem chain_keeps (key : Key) (value : UInt64) (pools : Pools) (level : Nat) :
    (chain key value pools level).1.Sound ∧ forall other,
      (chain key value pools level).1.get? other =
        if other.below level = key.below level then some value else none := by
  induction level with
  | zero =>
      let empty : Node UInt64 := Node.vacant .c1 (pools.take ⟨.leaf, .c1⟩).1.slot
      have valid : empty.Valid := Node.valid_vacant _ _
      have missed : forall chunk, empty.get? chunk = none := Node.get?_vacant _ _
      refine ⟨⟨Node.valid_insert valid rfl (missed _) value, Node.isEmpty_insert empty _ value⟩, ?_⟩
      intro other
      have found := Node.get?_insert valid rfl (missed (key.chunk 0)) value (other.chunk 0)
      rw [missed] at found
      simp only [Key.below_zero_inj]
      exact found
  | succ level inductionHypothesis =>
      rcases inductionHypothesis with ⟨sound, below⟩
      rcases hold_vacant_keeps sound _ (key.chunk (level + 1)) _ with ⟨held, found⟩
      refine ⟨held, ?_⟩
      intro other
      refine (found other).trans ?_
      rw [below]
      simp only [Key.below_succ_inj, ite_and]

/-- A wrapped subtree has the keys it had: those whose new chunks are all zero. -/
theorem wrapped_keeps {subtree : Subtree level} (sound : subtree.Sound) (pools : Pools)
    (rise : Nat) :
    (subtree.wrapped pools rise).1.Sound ∧ forall key,
      (subtree.wrapped pools rise).1.get? key =
        if key.below (level + rise) = key.below level then subtree.get? key else none := by
  induction rise with
  | zero =>
      refine ⟨sound, ?_⟩
      intro key
      exact (if_pos rfl).symm
  | succ rise inductionHypothesis =>
      rcases inductionHypothesis with ⟨lower, below⟩
      rcases hold_vacant_keeps lower _ 0 _ with ⟨held, found⟩
      refine ⟨held, ?_⟩
      intro key
      refine (found key).trans ?_
      rw [below]
      simp only [Key.below_add_succ_eq_iff, ite_and]

/-- The key has the value afterwards, and every other key has what it had. -/
structure Binds (before after : Subtree level) (key : Key) (value : UInt64) : Prop where
  sound : after.Sound
  found : forall other, after.get? other =
    if other.below level = key.below level then some value else before.get? other

theorem insert_leaf (leaf : Node UInt64) (key : Key) (value : UInt64) (ledger : Ledger) :
    (ofLeaf leaf).insert key value ledger =
      (ofLeaf ((leaf.withRoom 0 (fun _ => none) ledger).1.insert (key.chunk 0) value),
        (leaf.withRoom 0 (fun _ => none) ledger).2) :=
  rfl

theorem insert_of_child (held : node.get? (key.chunk (level + 1)) = some child) (value : UInt64)
    (ledger : Ledger) :
    (ofNode node).insert key value ledger =
      (ofNode (node.replace (key.chunk (level + 1)) (child.insert key value ledger).1),
        (child.insert key value ledger).2) := by
  simp only [ofNode, insert, held]

/-- The node that takes a new path, once it has room, and the ledger then. -/
def roomFor (node : Node (Subtree level)) (key : Key) (value : UInt64) (ledger : Ledger) :
    Node (Subtree level) × Ledger :=
  node.withRoom (level + 1) (fun child => some child.handle)
    { ledger with pools := (chain key value ledger.pools level).2 }

theorem insert_of_gap (missed : node.get? (key.chunk (level + 1)) = none) (value : UInt64)
    (ledger : Ledger) :
    (ofNode node).insert key value ledger =
      let roomy := roomFor node key value ledger
      let held := hold roomy.1 (key.chunk (level + 1)) (chain key value ledger.pools level).1
        roomy.2.pools
      (held.1, { roomy.2 with pools := held.2 }) := by
  simp only [ofNode, insert, missed, roomFor]

/-- A binding below an entry is a binding of the node. -/
theorem Binds.lift {after : Subtree level} {value : UInt64} (below : Binds child after key value)
    (sound : (ofNode node).Sound) (held : node.get? (key.chunk (level + 1)) = some child) :
    Binds (ofNode node) (ofNode (node.replace (key.chunk (level + 1)) after)) key value := by
  rcases sound_node.mp sound with ⟨valid, occupied, children⟩
  have found := Node.get?_replace valid held after
  refine ⟨sound_of_child (Node.valid_replace valid held after) occupied children below.sound found, ?_⟩
  intro other
  rw [get?_of_child found, below.found]
  simp only [Key.below_succ_inj]
  by_cases here : other.chunk (level + 1) = key.chunk (level + 1)
  · simp only [here, true_and, if_true, get?_of_held held here]
  · simp only [here, false_and, if_false]

private theorem insert_leaf_binds (valid : leaf.Valid) (missed : leaf.get? (key.chunk 0) = none)
    (value : UInt64) (ledger : Ledger) :
    Binds (ofLeaf leaf) ((ofLeaf leaf).insert key value ledger).1 key value := by
  have roomy := Node.roomy_withRoom valid missed 0 (fun _ => none) ledger
  have absent := (roomy.same (key.chunk 0)).trans missed
  refine ⟨⟨Node.valid_insert roomy.valid roomy.room absent value,
    Node.isEmpty_insert _ _ value⟩, ?_⟩
  intro other
  have found := Node.get?_insert roomy.valid roomy.room absent value (other.chunk 0)
  rw [roomy.same] at found
  simp only [Key.below_zero_inj]
  exact found

private theorem insert_gap_binds (sound : (ofNode node).Sound)
    (missed : node.get? (key.chunk (level + 1)) = none) (value : UInt64) (ledger : Ledger) :
    Binds (ofNode node) ((ofNode node).insert key value ledger).1 key value := by
  rcases sound_node.mp sound with ⟨valid, _, children⟩
  have roomy : Node.Roomy node (roomFor node key value ledger).1 :=
    Node.roomy_withRoom valid missed _ _ _
  have roomyChildren : forall chunk child,
      (roomFor node key value ledger).1.get? chunk = some child -> child.Sound := by
    intro chunk child found
    rw [roomy.same] at found
    exact children chunk child found
  rcases chain_keeps key value ledger.pools level with ⟨pathSound, below⟩
  rcases hold_keeps roomy.valid roomy.room ((roomy.same _).trans missed) roomyChildren pathSound
    (roomFor node key value ledger).2.pools with ⟨held, found⟩
  rw [insert_of_gap missed]
  refine ⟨held, ?_⟩
  intro other
  refine (found other).trans ?_
  rw [below, get?_node, roomy.same, ← get?_node]
  simp only [Key.below_succ_inj]
  by_cases here : other.chunk (level + 1) = key.chunk (level + 1)
  · have absent : (ofNode node).get? other = none := by
      rw [get?_node, here, missed, Option.bind_none]
    simp only [here, true_and, if_true, absent]
  · simp only [here, false_and, if_false]

/-- An insertion binds a key that is absent. -/
theorem insert_binds {subtree : Subtree level} (sound : subtree.Sound)
    (missed : subtree.get? key = none) (value : UInt64) (ledger : Ledger) :
    Binds subtree (subtree.insert key value ledger).1 key value := by
  induction subtree using byLevel generalizing ledger with
  | leaf leaf => exact insert_leaf_binds (sound_leaf.mp sound).1 missed value ledger
  | @node level node inductionHypothesis =>
      cases held : node.get? (key.chunk (level + 1)) with
      | some child =>
          have absent := (get?_of_held held rfl).symm.trans missed
          have below := inductionHypothesis child ((sound_node.mp sound).2.2 _ child held) absent ledger
          rw [insert_of_child held]
          exact below.lift sound held
      | none => exact insert_gap_binds sound held value ledger

theorem replace_of_child (held : node.get? (key.chunk (level + 1)) = some child) (value : UInt64) :
    (ofNode node).replace key value =
      ofNode (node.replace (key.chunk (level + 1)) (child.replace key value)) := by
  simp only [ofNode, replace, held]
  rfl

/-- A replacement binds a key that is present. -/
theorem replace_binds {subtree : Subtree level} (sound : subtree.Sound) {old : UInt64}
    (found : subtree.get? key = some old) (value : UInt64) :
    Binds subtree (subtree.replace key value) key value := by
  induction subtree using byLevel with
  | leaf leaf =>
      rcases sound_leaf.mp sound with ⟨valid, occupied⟩
      refine ⟨⟨Node.valid_replace valid found value, occupied⟩, ?_⟩
      intro other
      simp only [Key.below_zero_inj]
      exact Node.get?_replace valid found value (other.chunk 0)
  | @node level node inductionHypothesis =>
      rw [get?_node] at found
      rcases Option.bind_eq_some_iff.mp found with ⟨child, held, below⟩
      rw [replace_of_child held]
      have changed := inductionHypothesis child ((sound_node.mp sound).2.2 _ child held) below
      exact changed.lift sound held

/-! ## Pruning -/

/-- The key has no value in what is left, and every other key has what it had. -/
structure Unbinds (before : Subtree level) (after? : Option (Subtree level)) (key : Key) :
    Prop where
  sound : ∀ after ∈ after?, after.Sound
  found : forall other, (after?.bind fun after => after.get? other) =
    if other.below level = key.below level then none else before.get? other

/-- A subtree without entries has no keys, so nothing is lost with its top node. -/
private theorem kept_unbinds {before after : Subtree level}
    (sound : after.isEmpty = false -> after.Sound)
    (blank : after.isEmpty = true -> forall other, after.get? other = none)
    (found : forall other, after.get? other =
      if other.below level = key.below level then none else before.get? other) (pools : Pools) :
    Unbinds before (after.kept pools).1 key := by
  cases empty : after.isEmpty with
  | true =>
      simp only [kept, empty, if_true]
      refine ⟨fun _ impossible => (Option.not_mem_none _ impossible).elim, ?_⟩
      intro other
      rw [← found, blank empty, Option.bind_none]
  | false =>
      simp only [kept, empty, Bool.false_eq_true, if_false]
      exact ⟨fun _ same => Option.some.inj same ▸ sound empty, found⟩

theorem erase_leaf (leaf : Node UInt64) (key : Key) (pools : Pools) :
    (ofLeaf leaf).erase key pools = (ofLeaf (leaf.erase (key.chunk 0))).kept pools :=
  rfl

theorem erase_of_child (held : node.get? (key.chunk (level + 1)) = some child) (pools : Pools) :
    (ofNode node).erase key pools =
      match (child.erase key pools).1 with
      | some smaller =>
          (some (ofNode (node.replace (key.chunk (level + 1)) smaller)), (child.erase key pools).2)
      | none => (ofNode (node.erase (key.chunk (level + 1)))).kept (child.erase key pools).2 := by
  simp only [ofNode, erase, held]
  rcases child.erase key pools with ⟨_ | smaller, _⟩ <;> rfl

private theorem Unbinds.lift_some {smaller : Subtree level}
    (below : Unbinds child (some smaller) key) (sound : (ofNode node).Sound)
    (held : node.get? (key.chunk (level + 1)) = some child) :
    Unbinds (ofNode node) (some (ofNode (node.replace (key.chunk (level + 1)) smaller))) key := by
  rcases sound_node.mp sound with ⟨valid, occupied, children⟩
  have found := Node.get?_replace valid held smaller
  have smallerSound := below.sound smaller rfl
  refine ⟨fun _ same => Option.some.inj same ▸ sound_of_child (Node.valid_replace valid held smaller)
    occupied children smallerSound found, ?_⟩
  intro other
  have looked := below.found other
  rw [Option.bind_some] at looked
  rw [Option.bind_some, get?_of_child found, looked]
  simp only [Key.below_succ_inj]
  by_cases here : other.chunk (level + 1) = key.chunk (level + 1)
  · simp only [here, true_and, if_true, get?_of_held held here]
  · simp only [here, false_and, if_false]

private theorem Unbinds.lift_none (below : Unbinds child none key) (sound : (ofNode node).Sound)
    (held : node.get? (key.chunk (level + 1)) = some child) (pools : Pools) :
    Unbinds (ofNode node) ((ofNode (node.erase (key.chunk (level + 1)))).kept pools).1 key := by
  rcases sound_node.mp sound with ⟨valid, _, children⟩
  have found := Node.get?_erase valid held
  have erased := Node.valid_erase valid held
  apply kept_unbinds
  · intro occupied
    refine sound_node.mpr ⟨erased, occupied, ?_⟩
    intro chunk other looked
    rw [found] at looked
    split at looked
    · cases looked
    · exact children chunk other looked
  · intro empty other
    rw [get?_node, Node.get?_eq_none_of_count_zero erased (beq_iff_eq.mp empty), Option.bind_none]
  · intro other
    rw [get?_node, found]
    simp only [Key.below_succ_inj]
    by_cases here : other.chunk (level + 1) = key.chunk (level + 1)
    · have looked := below.found other
      rw [Option.bind_none] at looked
      simp only [here, true_and, if_true, Option.bind_none, get?_of_held held here]
      exact looked
    · simp only [here, false_and, if_false, get?_node]

/-- A removal unbinds a key that is present. -/
theorem erase_unbinds {subtree : Subtree level} (sound : subtree.Sound) {old : UInt64}
    (found : subtree.get? key = some old) (pools : Pools) :
    Unbinds subtree (subtree.erase key pools).1 key := by
  induction subtree using byLevel with
  | leaf leaf =>
      have valid := (sound_leaf.mp sound).1
      have erased := Node.valid_erase valid found
      apply kept_unbinds
      · exact fun occupied => ⟨erased, occupied⟩
      · intro empty other
        exact Node.get?_eq_none_of_count_zero erased (beq_iff_eq.mp empty) (other.chunk 0)
      · intro other
        simp only [Key.below_zero_inj]
        exact Node.get?_erase valid found (other.chunk 0)
  | @node level node inductionHypothesis =>
      rw [get?_node] at found
      rcases Option.bind_eq_some_iff.mp found with ⟨child, held, looked⟩
      have below := inductionHypothesis child ((sound_node.mp sound).2.2 _ child held) looked
      rw [erase_of_child held]
      cases rest : (child.erase key pools).1 with
      | some smaller => exact Unbinds.lift_some (rest ▸ below) sound held
      | none => exact Unbinds.lift_none (rest ▸ below) sound held _

end Subtree
end AdaptiveRadix
