import AdaptiveRadix.Proofs.Checked.Pools
import AdaptiveRadix.Proofs.Tree.Edges

namespace AdaptiveRadix

/-!
# Checked descents

Whoever follows a key arrives at one node after another.  Each has to be in use under
the handle that led to it, and the key gives up the chunk that the node looks at to a
shift of a word; a step down takes the bits of one chunk off the shift.  Where every edge
of a subtree is on record in the pools and the subtree is no taller than a key, nothing
goes wrong on the way.
-/

namespace Key

/-- The shift of a node is at most 56. -/
def checkedShift (level : Nat) : Checked Unit :=
  ensure (shift level ≤ shift maxLevel) .shiftOutOfRange

/-- One level down, the shift is less by the bits of one chunk. -/
def checkedLowered (level : Nat) : Checked Unit :=
  ensure (chunkBits ≤ shift level) .shiftOutOfRange

/-- A key is a word of 64 bits. -/
def checkedChunk (key : Key) (level : Nat) : Checked Chunk := do
  checkedShift level
  ensure (shift level < 64) .shiftTooFar
  return key.chunk level

variable {level : Nat}

theorem shift_le_of_low (low : level ≤ maxLevel) : shift level ≤ shift maxLevel :=
  Nat.mul_le_mul_left chunkBits low

theorem shift_lt_of_low (low : level ≤ maxLevel) : shift level < 64 :=
  Nat.lt_of_le_of_lt (shift_le_of_low low) (by decide)

theorem checkedShift_of_low (low : level ≤ maxLevel) : checkedShift level = .ok () :=
  ensure_of (shift_le_of_low low) .shiftOutOfRange

theorem checkedLowered_succ (level : Nat) : checkedLowered (level + 1) = .ok () :=
  ensure_of (Nat.le_mul_of_pos_right chunkBits (Nat.succ_pos level)) .shiftOutOfRange

theorem checkedChunk_of_low (low : level ≤ maxLevel) (key : Key) :
    key.checkedChunk level = .ok (key.chunk level) := by
  rw [checkedChunk, checkedShift_of_low low, ok_bind, ensure_bind (shift_lt_of_low low)]
  rfl

end Key

namespace Pools

/-- Arrive at a node: read it, and cut out of the key the chunk that it looks at. -/
def checkedArrival (pools : Pools) (handle : Handle) (key : Key) (level : Nat) : Checked Chunk := do
  let _ ← pools.checkedRead handle
  key.checkedChunk level

/-- Every edge of a list is on record. -/
def Records (pools : Pools) (edges : List (Handle × Anchor)) : Prop :=
  ∀ edge ∈ edges, pools.anchor? edge.1 = some edge.2

theorem checkedArrival_of_used {pools : Pools} {handle : Handle} {anchor : Anchor}
    (used : pools.anchor? handle = some anchor) (key : Key) {level : Nat}
    (low : level ≤ Key.maxLevel) : pools.checkedArrival handle key level = .ok (key.chunk level) := by
  rw [checkedArrival, checkedRead_of_used used, ok_bind, Key.checkedChunk_of_low low]

theorem Records.mono {pools : Pools} {edges others : List (Handle × Anchor)}
    (records : pools.Records edges) (fewer : others ⊆ edges) : pools.Records others :=
  fun edge listed => records edge (fewer listed)

end Pools

theorem Inventory.records {pools : Pools} {nodes : List (Handle × Anchor)}
    (inventory : Inventory pools nodes) : pools.Records nodes :=
  fun _ listed => inventory.mem_iff.mp listed

open Pools

namespace Subtree

def checkedGet? : {level : Nat} -> Subtree level -> Key -> Pools -> Checked (Option UInt64)
  | 0, (leaf : Node UInt64), key, pools => do
      let chunk ← pools.checkedArrival (leaf.named 0) key 0
      leaf.checkedGet? chunk
  | level + 1, (node : Node (Subtree level)), key, pools => do
      let chunk ← pools.checkedArrival (node.named (level + 1)) key (level + 1)
      match ← node.checkedGet? chunk with
      | some child => do
          Key.checkedLowered (level + 1)
          child.checkedGet? key pools
      | none => return none

/-- Where an inner node lacks an entry, a path one level lower will be built. -/
def checkedPlacement : {level : Nat} -> Subtree level -> Key -> Pools -> Checked Placement
  | 0, (leaf : Node UInt64), key, pools => do
      let chunk ← pools.checkedArrival (leaf.named 0) key 0
      match ← leaf.checkedGet? chunk with
      | some _ => return .present
      | none => return .gap 0 leaf.sizeClass leaf.isFull
  | level + 1, (node : Node (Subtree level)), key, pools => do
      let chunk ← pools.checkedArrival (node.named (level + 1)) key (level + 1)
      let child? ← node.checkedGet? chunk
      Key.checkedLowered (level + 1)
      match child? with
      | some child => child.checkedPlacement key pools
      | none => return .gap (level + 1) node.sizeClass node.isFull

def checkedReplace : {level : Nat} -> Subtree level -> Key -> UInt64 -> Pools ->
    Checked (Subtree level)
  | 0, (leaf : Node UInt64), key, value, pools => do
      let chunk ← pools.checkedArrival (leaf.named 0) key 0
      let holder ← leaf.checkedReplace chunk value
      return ofLeaf holder
  | level + 1, (node : Node (Subtree level)), key, value, pools => do
      let chunk ← pools.checkedArrival (node.named (level + 1)) key (level + 1)
      match ← node.checkedGet? chunk with
      | some child => do
          Key.checkedLowered (level + 1)
          let changed ← child.checkedReplace key value pools
          let holder ← node.checkedReplace chunk changed
          return ofNode holder
      | none => return ofNode node

variable {level : Nat} {subtree child : Subtree level} {leaf : Node UInt64}
  {node : Node (Subtree level)} {chunk : Chunk} {anchor : Anchor} {pools : Pools}

theorem arrival_leaf (records : pools.Records ((ofLeaf leaf).edges anchor)) (key : Key) :
    pools.checkedArrival (leaf.named 0) key 0 = .ok (key.chunk 0) :=
  checkedArrival_of_used (records _ List.mem_cons_self) key (Nat.zero_le _)

theorem arrival_node (records : pools.Records ((ofNode node).edges anchor))
    (low : level + 1 ≤ Key.maxLevel) (key : Key) :
    pools.checkedArrival (node.named (level + 1)) key (level + 1) = .ok (key.chunk (level + 1)) :=
  checkedArrival_of_used (records _ List.mem_cons_self) key low

/-- With a node, each child that it holds is on record. -/
theorem records_child (valid : node.Valid) (held : node.get? chunk = some child)
    (records : pools.Records ((ofNode node).edges anchor)) :
    pools.Records (child.edges ⟨some (node.named (level + 1)), chunk⟩) := by
  apply records.mono
  intro edge listed
  exact (edges_perm_of_held valid held anchor).mem_iff.mpr (List.mem_append_left _ listed)

/-- With a node in use, each child that it holds is in use beside the rest of it. -/
theorem inventory_child {others : List (Handle × Anchor)} (valid : node.Valid)
    (held : node.get? chunk = some child)
    (inventory : Inventory pools ((ofNode node).edges anchor ++ others)) :
    Inventory pools (child.edges ⟨some (node.named (level + 1)), chunk⟩ ++
      ((ofNode (node.erase chunk)).edges anchor ++ others)) := by
  rw [← List.append_assoc]
  exact inventory.perm ((edges_perm_of_held valid held anchor).append_right others)

theorem checkedGet?_of_sound (sound : subtree.Sound) (low : level ≤ Key.maxLevel) (key : Key)
    (records : pools.Records (subtree.edges anchor)) :
    subtree.checkedGet? key pools = .ok (subtree.get? key) := by
  induction subtree using byLevel generalizing anchor with
  | leaf leaf =>
      rw [ofLeaf, checkedGet?, arrival_leaf records, ok_bind,
        Node.checkedGet?_of_valid (sound_leaf.mp sound).1]
      rfl
  | @node level node inductionHypothesis =>
      rcases sound_node.mp sound with ⟨valid, _, children⟩
      rw [get?_node, ofNode, checkedGet?, arrival_node records low, ok_bind,
        Node.checkedGet?_of_valid valid, ok_bind]
      cases held : node.get? (key.chunk (level + 1)) with
      | none => rfl
      | some child =>
          simp only [Key.checkedLowered_succ, ok_bind, Option.bind_some]
          exact inductionHypothesis child (children _ child held) (Nat.le_of_succ_le low)
            (records_child valid held records)

theorem checkedPlacement_of_sound (sound : subtree.Sound) (low : level ≤ Key.maxLevel) (key : Key)
    (records : pools.Records (subtree.edges anchor)) :
    subtree.checkedPlacement key pools = .ok (subtree.placement key) := by
  induction subtree using byLevel generalizing anchor with
  | leaf leaf =>
      rw [ofLeaf, checkedPlacement, arrival_leaf records, ok_bind,
        Node.checkedGet?_of_valid (sound_leaf.mp sound).1, ok_bind, placement]
      cases leaf.get? (key.chunk 0) <;> rfl
  | @node level node inductionHypothesis =>
      rcases sound_node.mp sound with ⟨valid, _, children⟩
      rw [ofNode, checkedPlacement, arrival_node records low, ok_bind,
        Node.checkedGet?_of_valid valid, ok_bind, Key.checkedLowered_succ, ok_bind, placement]
      cases held : node.get? (key.chunk (level + 1)) with
      | none => rfl
      | some child =>
          exact inductionHypothesis child (children _ child held) (Nat.le_of_succ_le low)
            (records_child valid held records)

theorem checkedReplace_of_sound (sound : subtree.Sound) (low : level ≤ Key.maxLevel) (key : Key)
    (value : UInt64) (records : pools.Records (subtree.edges anchor)) :
    subtree.checkedReplace key value pools = .ok (subtree.replace key value) := by
  induction subtree using byLevel generalizing anchor with
  | leaf leaf =>
      rw [ofLeaf, checkedReplace, arrival_leaf records, ok_bind,
        Node.checkedReplace_of_valid (sound_leaf.mp sound).1, ok_bind]
      rfl
  | @node level node inductionHypothesis =>
      rcases sound_node.mp sound with ⟨valid, _, children⟩
      rw [ofNode, checkedReplace, arrival_node records low, ok_bind,
        Node.checkedGet?_of_valid valid, ok_bind, replace]
      cases held : node.get? (key.chunk (level + 1)) with
      | none => rfl
      | some child =>
          have below := inductionHypothesis child (children _ child held) (Nat.le_of_succ_le low)
            (records_child valid held records)
          simp only [Key.checkedLowered_succ, ok_bind, below, Node.checkedReplace_of_valid valid]
          rfl

end Subtree
end AdaptiveRadix
