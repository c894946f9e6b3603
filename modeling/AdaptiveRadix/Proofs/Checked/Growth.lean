import AdaptiveRadix.Proofs.Checked.Descent
import AdaptiveRadix.Proofs.Tree.Moves

namespace AdaptiveRadix

/-!
# Checked growth

An insertion takes nodes from the pools, and where it moves a node to a larger class it
has three kinds of handles to put right: the children's record of their parent, the
parent's entry for the node, and the root.  The edge by which a subtree is held is passed
down beside it; a node that moves must have that very edge on record, since it is there
that its new handle is put.

The lemmas list the subtree's own nodes among all that are in use, as the exchanges of
`AdaptiveRadix.Subtree.edges` do, and so follow the pools from step to step.  That there
is a name and room for each node is left to `Affords`.
-/

open Pools

namespace Node

variable {α : Type} [Inhabited α]

/-- Move a node to a larger class.  Its children follow it, and its parent is told. -/
def checkedGrown (node : Node α) (level : Nat) (larger : SizeClass) (child? : α -> Option Handle)
    (anchor : Anchor) (ledger : Ledger) : Checked (Node α × Ledger) := do
  let recorded ← ledger.pools.checkedRead (node.named level)
  let freed ← ledger.pools.checkedRelease (node.named level)
  let taken ← freed.checkedTake ⟨.ofLevel level, larger⟩
  let target ← node.checkedMoved larger taken.1.slot
  let placed ← taken.2.checkedAnchored taken.1 recorded
  let entries ← target.checkedEntries
  let adopted ← placed.checkedAdoptedAll taken.1 (entries.filterMap fun entry => child? entry.value)
  ensure (recorded = anchor) .strayEdge
  adopted.checkedParent recorded
  return (target, {
    pools := adopted
    events := ledger.events ++ [.grew (.ofLevel level) node.sizeClass larger level] })

/-- Only a full node moves, and there has to be a class for it to move to. -/
def checkedWithRoom (node : Node α) (level : Nat) (child? : α -> Option Handle) (anchor : Anchor)
    (ledger : Ledger) : Checked (Node α × Ledger) := do
  let _ ← ledger.pools.checkedRead (node.named level)
  if node.isFull then
    match node.sizeClass.next? with
    | some larger => node.checkedGrown level larger child? anchor ledger
    | none => .error .noLargerClass
  else return (node, ledger)

variable {node : Node α} {level : Nat} {child? : α -> Option Handle} {anchor : Anchor}
  {ledger : Ledger} {others : List (Handle × Anchor)}

omit [Inhabited α] in
/-- The buffer for the children has a place for each entry that a node can have. -/
theorem length_children_le (valid : node.Valid) (child? : α -> Option Handle) :
    (node.entries.filterMap fun entry => child? entry.value).length ≤ 256 := by
  have most : node.sizeClass.capacity ≤ 256 := by cases node.sizeClass <;> decide
  calc (node.entries.filterMap fun entry => child? entry.value).length
      ≤ node.entries.length := List.length_filterMap_le _ _
    _ = node.count := valid.counted
    _ ≤ node.sizeClass.capacity := count_le_capacity valid
    _ ≤ 256 := most

theorem checkedGrown_of_full (valid : node.Valid) (full : node.isFull = true) {larger : SizeClass}
    (next : node.sizeClass.next? = some larger)
    (inventory : Inventory ledger.pools
      ((node.named level, anchor) :: (heads (node.named level) child? node.bindings ++ others)))
    (parent : ∀ parent ∈ anchor.parent?, parent ∈ others.map Prod.fst)
    (affords : ledger.pools.Affords (node.roomMoves level child? ledger.pools)) :
    node.checkedGrown level larger child? anchor ledger = .ok (node.withRoom level child? ledger) := by
  have more := SizeClass.capacity_lt_of_next? next
  have fits : node.count ≤ larger.capacity := (count_le_capacity valid).trans more.le
  have recorded := inventory.head
  let taken := (ledger.pools.release (node.named level)).take ⟨.ofLevel level, larger⟩
  let children := (heads (node.named level) child? node.bindings).map Prod.fst
  -- The larger node is in the place of the small one; its children do not know yet.
  have placed : Inventory (taken.2.anchored taken.1 anchor)
      ((taken.1, anchor) :: (heads (node.named level) child? node.bindings ++ others)) :=
    (inventory.release.take ⟨.ofLevel level, larger⟩).anchored anchor
  have known : ∀ child ∈ children, ∃ own,
      (taken.2.anchored taken.1 anchor).anchor? child = some own := by
    intro child listed
    rcases List.mem_map.mp listed with ⟨edge, member, rfl⟩
    exact ⟨edge.2, placed.records edge (List.mem_cons_of_mem _ (List.mem_append_left others member))⟩
  have told : ∀ parent ∈ anchor.parent?, ∃ own,
      ((taken.2.anchored taken.1 anchor).adoptedAll taken.1 children).anchor? parent = some own := by
    intro holder named
    rcases List.mem_map.mp (parent holder named) with ⟨edge, member, rfl⟩
    have adopted := (Exchange.adoptedAll taken.1 (heads (node.named level) child? node.bindings)
      (taken.2.anchored taken.1 anchor)).inventory (placed.perm List.perm_middle.symm)
    exact ⟨edge.2, adopted.records edge
      (List.mem_append_right _ (List.mem_cons_of_mem _ member))⟩
  have room : (ledger.pools.release (node.named level)).checkedTake ⟨.ofLevel level, larger⟩ =
      .ok taken := by
    rw [roomMoves, full, next] at affords
    exact checkedTake_of_affords inventory.release.sound affords.2
  have few := length_children_le (moved_keeps valid fits taken.1.slot).1 child?
  have same := children_moved valid fits taken.1.slot (node.named level) child?
  rw [same] at few
  rw [checkedGrown, checkedRead_of_used recorded, ok_bind,
    checkedRelease_of_used inventory.sound recorded, ok_bind, room, ok_bind,
    checkedMoved_of_valid valid more, ok_bind,
    checkedAnchored_of_used (anchor?_take_self _ _), ok_bind,
    checkedEntries_of_valid (moved_keeps valid fits _).1, ok_bind, same,
    checkedAdoptedAll_of_used taken.1 few known, ok_bind, ensure_bind rfl,
    checkedParent_of_used told, ok_bind, withRoom_of_recorded valid full next recorded]
  rfl

theorem checkedWithRoom_of_missed (valid : node.Valid) {chunk : Chunk}
    (missed : node.get? chunk = none)
    (inventory : Inventory ledger.pools
      ((node.named level, anchor) :: (heads (node.named level) child? node.bindings ++ others)))
    (parent : ∀ parent ∈ anchor.parent?, parent ∈ others.map Prod.fst)
    (affords : ledger.pools.Affords (node.roomMoves level child? ledger.pools)) :
    node.checkedWithRoom level child? anchor ledger =
      .ok (node.withRoom level child? ledger) := by
  rw [checkedWithRoom, checkedRead_of_used inventory.head, ok_bind]
  cases full : node.isFull with
  | false =>
      rw [withRoom_of_room full]
      rfl
  | true =>
      rcases exists_next? valid missed full with ⟨larger, next⟩
      simp only [if_true, next]
      exact checkedGrown_of_full valid full next inventory parent affords

end Node

namespace Subtree

/-- Both ends of the new edge are in use. -/
def checkedHold {level : Nat} (node : Node (Subtree level)) (chunk : Chunk) (child : Subtree level)
    (pools : Pools) : Checked (Subtree (level + 1) × Pools) := do
  let _ ← pools.checkedRead (node.named (level + 1))
  let holder ← node.checkedInsert chunk child
  let linked ← pools.checkedAnchored child.handle ⟨some (holder.named (level + 1)), chunk⟩
  return (ofNode holder, linked)

/-- A new node of the smallest class comes to hold a subtree. -/
def checkedTopped {level : Nat} (chunk : Chunk) (child : Subtree level) (pools : Pools) :
    Checked (Subtree (level + 1) × Pools) := do
  Key.checkedShift (level + 1)
  let taken ← pools.checkedTake ⟨.inner, .c1⟩
  checkedHold (Node.vacant .c1 taken.1.slot) chunk child taken.2

def checkedChain (key : Key) (value : UInt64) (pools : Pools) :
    (level : Nat) -> Checked (Subtree level × Pools)
  | 0 => do
      let taken ← pools.checkedTake ⟨.leaf, .c1⟩
      let chunk ← taken.2.checkedArrival taken.1 key 0
      let leaf ← (Node.vacant .c1 taken.1.slot : Node UInt64).checkedInsert chunk value
      return (ofLeaf leaf, taken.2)
  | level + 1 => do
      let below ← checkedChain key value pools level
      let chunk ← key.checkedChunk (level + 1)
      checkedTopped chunk below.1 below.2

def checkedWrapped {level : Nat} (subtree : Subtree level) (pools : Pools) :
    (rise : Nat) -> Checked (Subtree (level + rise) × Pools)
  | 0 => .ok (subtree, pools)
  | rise + 1 => do
      let below ← subtree.checkedWrapped pools rise
      checkedTopped 0 below.1 below.2

/-- The missing part of a key's path is built, and joined to the node at which it ends. -/
def checkedJoined {level : Nat} (node : Node (Subtree level)) (anchor : Anchor) (key : Key)
    (value : UInt64) (ledger : Ledger) : Checked (Subtree (level + 1) × Ledger) := do
  let path ← checkedChain key value ledger.pools level
  let roomy ← node.checkedWithRoom (level + 1) (fun child => some child.handle) anchor
    { ledger with pools := path.2 }
  let held ← checkedHold roomy.1 (key.chunk (level + 1)) path.1 roomy.2.pools
  return (held.1, { roomy.2 with pools := held.2 })

/-- The subtree is held by the given edge. -/
def checkedInsert : {level : Nat} -> Subtree level -> Anchor -> Key -> UInt64 -> Ledger ->
    Checked (Subtree level × Ledger)
  | 0, (leaf : Node UInt64), anchor, key, value, ledger => do
      let chunk ← ledger.pools.checkedArrival (leaf.named 0) key 0
      let roomy ← leaf.checkedWithRoom 0 (fun _ => none) anchor ledger
      let _ ← roomy.2.pools.checkedRead (roomy.1.named 0)
      let holder ← roomy.1.checkedInsert chunk value
      return (ofLeaf holder, roomy.2)
  | level + 1, (node : Node (Subtree level)), anchor, key, value, ledger => do
      let chunk ← ledger.pools.checkedArrival (node.named (level + 1)) key (level + 1)
      let child? ← node.checkedGet? chunk
      Key.checkedLowered (level + 1)
      match child? with
      | some child => do
          let grown ← child.checkedInsert ⟨some (node.named (level + 1)), chunk⟩ key value ledger
          let holder ← node.checkedReplace chunk grown.1
          return (ofNode holder, grown.2)
      | none => checkedJoined node anchor key value ledger

variable {level : Nat} {subtree child : Subtree level} {leaf : Node UInt64}
  {node : Node (Subtree level)} {chunk : Chunk} {anchor loose : Anchor} {pools : Pools} {key : Key}
  {others : List (Handle × Anchor)}

theorem checkedHold_of_room (valid : node.Valid) (room : node.isFull = false)
    (missed : node.get? chunk = none)
    (holds : pools.anchor? (node.named (level + 1)) = some anchor)
    (held : pools.anchor? child.handle = some loose) :
    checkedHold node chunk child pools = .ok (hold node chunk child pools) := by
  rw [checkedHold, checkedRead_of_used holds, ok_bind,
    Node.checkedInsert_of_room valid room missed, ok_bind, checkedAnchored_of_used held, ok_bind]
  rfl

theorem checkedTopped_of_affords (inventory : Inventory pools (child.edges loose ++ others))
    (low : level + 1 ≤ Key.maxLevel) {rest : List Move}
    (affords : pools.Affords (.take ⟨.inner, .c1⟩ :: rest)) (chunk : Chunk) :
    checkedTopped chunk child pools =
      .ok (hold (Node.vacant .c1 (pools.take ⟨.inner, .c1⟩).1.slot) chunk child
        (pools.take ⟨.inner, .c1⟩).2) := by
  have taken := (inventory.take ⟨.inner, .c1⟩).records
  rw [edges_eq_cons] at taken
  rw [checkedTopped, Key.checkedShift_of_low low, ok_bind,
    checkedTake_of_affords inventory.sound affords, ok_bind]
  exact checkedHold_of_room (Node.valid_vacant .c1 _) rfl (Node.get?_vacant .c1 _ chunk)
    (taken _ List.mem_cons_self) (taken _ (List.mem_cons_of_mem _ List.mem_cons_self))

theorem checkedChain_of_affords (inventory : Inventory pools others) (low : level ≤ Key.maxLevel)
    (value : UInt64) (affords : pools.Affords (chainMoves key value pools level)) :
    checkedChain key value pools level = .ok (chain key value pools level) := by
  induction level with
  | zero =>
      rw [checkedChain, checkedTake_of_affords inventory.sound affords, ok_bind,
        checkedArrival_of_used (anchor?_take_self pools ⟨.leaf, .c1⟩) key low, ok_bind,
        Node.checkedInsert_of_room (Node.valid_vacant .c1 _) rfl (Node.get?_vacant .c1 _ _), ok_bind]
      rfl
  | succ level inductionHypothesis =>
      rw [chainMoves, affords_append, performAll_chainMoves] at affords
      have chained := (chain_exchange key value pools level).inventory inventory
      rw [checkedChain, inductionHypothesis (Nat.le_of_succ_le low) affords.1, ok_bind,
        Key.checkedChunk_of_low low, ok_bind, checkedTopped_of_affords chained low affords.2]
      rfl

theorem checkedWrapped_of_affords (inventory : Inventory pools (subtree.edges Anchor.root ++ others))
    {rise : Nat} (low : level + rise ≤ Key.maxLevel)
    (affords : pools.Affords (subtree.wrappedMoves pools rise)) :
    subtree.checkedWrapped pools rise = .ok (subtree.wrapped pools rise) := by
  induction rise with
  | zero => rfl
  | succ rise inductionHypothesis =>
      rw [wrappedMoves, affords_append, performAll_wrappedMoves] at affords
      have wrapped := (wrapped_exchange subtree pools rise).inventory inventory
      rw [checkedWrapped, inductionHypothesis (Nat.le_of_succ_le low) affords.1, ok_bind,
        checkedTopped_of_affords wrapped low affords.2]
      rfl

private theorem checkedInsert_leaf (valid : leaf.Valid) (missed : leaf.get? (key.chunk 0) = none)
    (value : UInt64) (ledger : Ledger)
    (inventory : Inventory ledger.pools ((ofLeaf leaf).edges anchor ++ others))
    (parent : ∀ parent ∈ anchor.parent?, parent ∈ others.map Prod.fst)
    (affords : ledger.pools.Affords ((ofLeaf leaf).insertMoves key value ledger)) :
    (ofLeaf leaf).checkedInsert anchor key value ledger =
      .ok ((ofLeaf leaf).insert key value ledger) := by
  have arrived := arrival_leaf (inventory.records.mono (List.subset_append_left _ others)) key
  rw [edges_leaf, List.singleton_append] at inventory
  have nodes : (leaf.named 0, anchor) :: others = (leaf.named 0, anchor) ::
      (Node.heads (leaf.named 0) (fun _ => none) leaf.bindings ++ others) := by
    rw [Node.heads_none, List.nil_append]
  rw [nodes] at inventory
  have moved := (Node.withRoom_exchange valid missed 0 (fun _ => none) ledger anchor).inventory inventory
  have facts := Node.roomy_withRoom valid missed 0 (fun _ => none) ledger
  rw [insert_leaf, ofLeaf, checkedInsert, arrived, ok_bind,
    Node.checkedWithRoom_of_missed valid missed inventory parent affords, ok_bind,
    checkedRead_of_used moved.head, ok_bind,
    Node.checkedInsert_of_room facts.valid facts.room ((facts.same _).trans missed), ok_bind]
  rfl

private theorem checkedJoined_of_gap (valid : node.Valid) (low : level + 1 ≤ Key.maxLevel)
    (missed : node.get? (key.chunk (level + 1)) = none) (value : UInt64) (ledger : Ledger)
    (inventory : Inventory ledger.pools ((ofNode node).edges anchor ++ others))
    (parent : ∀ parent ∈ anchor.parent?, parent ∈ others.map Prod.fst)
    (affords : ledger.pools.Affords ((ofNode node).insertMoves key value ledger)) :
    checkedJoined node anchor key value ledger = .ok ((ofNode node).insert key value ledger) := by
  let path := chain key value ledger.pools level
  let roomy := roomFor node key value ledger
  rw [insertMoves_of_gap missed, affords_append, affords_append, performAll_chainMoves] at affords
  have chained : Inventory path.2
      (path.1.edges Anchor.root ++ ((ofNode node).edges anchor ++ others)) :=
    (chain_exchange key value ledger.pools level).inventory inventory
  have swapped : Inventory path.2
      ((ofNode node).edges anchor ++ (path.1.edges Anchor.root ++ others)) :=
    chained.perm (List.perm_append_comm_assoc _ _ _)
  have listed : Inventory path.2 ((node.named (level + 1), anchor) ::
      (Node.heads (node.named (level + 1)) (fun child => some child.handle) node.bindings ++
        ((node.bindings.flatMap fun binding => binding.2.innerEdges) ++
          (path.1.edges Anchor.root ++ others)))) := by
    rw [edges_node] at swapped
    refine swapped.perm (List.Perm.cons _ ?_)
    rw [← List.append_assoc]
    exact (heads_perm _ _).symm.append_right _
  have named : ∀ parent ∈ anchor.parent?,
      parent ∈ ((node.bindings.flatMap fun binding => binding.2.innerEdges) ++
        (path.1.edges Anchor.root ++ others)).map Prod.fst := by
    intro holder names
    rw [List.map_append, List.map_append]
    exact List.mem_append_right _ (List.mem_append_right _ (parent holder names))
  have facts : Node.Roomy node roomy.1 := Node.roomy_withRoom valid missed _ _ _
  have grown : Inventory roomy.2.pools
      ((ofNode roomy.1).edges anchor ++ (path.1.edges Anchor.root ++ others)) :=
    (roomFor_exchange valid missed value ledger anchor).inventory swapped
  have recorded := grown.records
  rw [edges_node, edges_eq_cons path.1] at recorded
  have held := checkedHold_of_room facts.valid facts.room ((facts.same _).trans missed)
    (recorded _ List.mem_cons_self)
    (recorded _ (List.mem_append_right _ List.mem_cons_self))
  rw [checkedJoined, checkedChain_of_affords inventory (Nat.le_of_succ_le low) value affords.1.1,
    ok_bind, Node.checkedWithRoom_of_missed valid missed listed named affords.1.2, ok_bind]
  show (checkedHold roomy.1 (key.chunk (level + 1)) path.1 roomy.2.pools >>= _) = _
  rw [held, ok_bind, insert_of_gap missed]
  rfl

/-- An insertion that there are names and room for goes through. -/
theorem checkedInsert_of_affords (sound : subtree.Sound) (low : level ≤ Key.maxLevel)
    (missed : subtree.get? key = none) (value : UInt64) (ledger : Ledger)
    (inventory : Inventory ledger.pools (subtree.edges anchor ++ others))
    (parent : ∀ parent ∈ anchor.parent?, parent ∈ others.map Prod.fst)
    (affords : ledger.pools.Affords (subtree.insertMoves key value ledger)) :
    subtree.checkedInsert anchor key value ledger = .ok (subtree.insert key value ledger) := by
  induction subtree using byLevel generalizing anchor others with
  | leaf leaf =>
      exact checkedInsert_leaf (sound_leaf.mp sound).1 missed value ledger inventory parent affords
  | @node level node inductionHypothesis =>
      rcases sound_node.mp sound with ⟨valid, _, children⟩
      have arrived := arrival_node (inventory.records.mono (List.subset_append_left _ others)) low key
      rw [ofNode, checkedInsert, arrived, ok_bind, Node.checkedGet?_of_valid valid, ok_bind,
        Key.checkedLowered_succ, ok_bind]
      cases held : node.get? (key.chunk (level + 1)) with
      | none => exact checkedJoined_of_gap valid low held value ledger inventory parent affords
      | some child =>
          have absent := (get?_of_held held rfl).symm.trans missed
          rw [insertMoves_of_child held] at affords
          have holder : ∀ parent ∈ some (node.named (level + 1)), parent ∈
              ((ofNode (node.erase (key.chunk (level + 1)))).edges anchor ++ others).map Prod.fst := by
            intro parent names
            cases names
            rw [edges_node, Node.named_erase]
            exact List.mem_cons_self
          have grown := inductionHypothesis child (children _ child held) (Nat.le_of_succ_le low)
            absent (inventory_child valid held inventory) holder affords
          simp only [grown, ok_bind, Node.checkedReplace_of_valid valid]
          exact congrArg Except.ok (insert_of_child held value ledger).symm

end Subtree
end AdaptiveRadix
