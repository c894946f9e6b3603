import AdaptiveRadix.Proofs.Checked.Descent

namespace AdaptiveRadix

/-!
# Checked pruning

A removal gives nodes back from the leaf upwards.  Each is in use until then, and has on
record the edge that its parent is about to lose; with it goes the parent's own entry.
-/

open Pools

namespace Subtree

/-- The subtree is held by the given edge. -/
def checkedKept {level : Nat} (subtree : Subtree level) (anchor : Anchor) (pools : Pools) :
    Checked (Option (Subtree level) × Pools) := do
  let recorded ← pools.checkedRead subtree.handle
  if subtree.isEmpty then do
    let smaller ← pools.checkedRelease subtree.handle
    ensure (recorded = anchor) .strayEdge
    return (none, smaller)
  else return (some subtree, pools)

def checkedErase : {level : Nat} -> Subtree level -> Anchor -> Key -> Pools ->
    Checked (Option (Subtree level) × Pools)
  | 0, (leaf : Node UInt64), anchor, key, pools => do
      let chunk ← pools.checkedArrival (leaf.named 0) key 0
      let smaller ← leaf.checkedErase chunk
      (ofLeaf smaller).checkedKept anchor pools
  | level + 1, (node : Node (Subtree level)), anchor, key, pools => do
      let chunk ← pools.checkedArrival (node.named (level + 1)) key (level + 1)
      match ← node.checkedGet? chunk with
      | none => return (some (ofNode node), pools)
      | some child => do
          Key.checkedLowered (level + 1)
          let rest ← child.checkedErase ⟨some (node.named (level + 1)), chunk⟩ key pools
          match rest.1 with
          | some smaller => do
              let holder ← node.checkedReplace chunk smaller
              return (some (ofNode holder), rest.2)
          | none => do
              let smaller ← node.checkedErase chunk
              (ofNode smaller).checkedKept anchor rest.2

variable {level : Nat} {subtree : Subtree level} {anchor : Anchor} {pools : Pools} {key : Key}
  {others : List (Handle × Anchor)}

theorem checkedKept_of_inventory
    (inventory : Inventory pools (subtree.edges anchor ++ others)) :
    subtree.checkedKept anchor pools = .ok (subtree.kept pools) := by
  rw [edges_eq_cons] at inventory
  have recorded := inventory.head
  rw [checkedKept, checkedRead_of_used recorded, ok_bind, kept]
  split
  · rw [checkedRelease_of_used inventory.sound recorded, ok_bind]
    exact ensure_bind rfl .strayEdge _
  · rfl

/-- A removal of a key that is present goes through. -/
theorem checkedErase_of_found (sound : subtree.Sound) (low : level ≤ Key.maxLevel) {old : UInt64}
    (found : subtree.get? key = some old)
    (inventory : Inventory pools (subtree.edges anchor ++ others)) :
    subtree.checkedErase anchor key pools = .ok (subtree.erase key pools) := by
  induction subtree using byLevel generalizing anchor others with
  | leaf leaf =>
      have arrived := arrival_leaf (inventory.records.mono (List.subset_append_left _ others)) key
      rw [edges_leaf, ← Node.named_erase leaf (key.chunk 0), ← edges_leaf] at inventory
      rw [erase_leaf, ofLeaf, checkedErase, arrived, ok_bind,
        Node.checkedErase_of_found (sound_leaf.mp sound).1 found, ok_bind]
      exact checkedKept_of_inventory inventory
  | @node level node inductionHypothesis =>
      rcases sound_node.mp sound with ⟨valid, _, children⟩
      have arrived := arrival_node (inventory.records.mono (List.subset_append_left _ others)) low key
      rw [get?_node] at found
      rcases Option.bind_eq_some_iff.mp found with ⟨child, held, looked⟩
      have below := inventory_child valid held inventory
      have pruned := inductionHypothesis child (children _ child held) (Nat.le_of_succ_le low)
        looked below
      have left := (erase_exchange (children _ child held) looked pools _).inventory below
      rw [erase_of_child held, ofNode, checkedErase, arrived, ok_bind,
        Node.checkedGet?_of_valid valid, ok_bind, held]
      simp only [Key.checkedLowered_succ, ok_bind, pruned]
      cases rest : (child.erase key pools).1 with
      | some smaller =>
          simp only [Node.checkedReplace_of_valid valid, ok_bind]
          rfl
      | none =>
          rw [rest] at left
          simp only [Node.checkedErase_of_found valid held, ok_bind]
          exact checkedKept_of_inventory left

end Subtree
end AdaptiveRadix
