import AdaptiveRadix.Proofs.Checked.Descent
import AdaptiveRadix.Proofs.Stats.Levels
import AdaptiveRadix.Tree.Dump

namespace AdaptiveRadix

/-!
# Checked walks

A walk reads every node under the handle by which its parent holds it, and shifts each
chunk to its place in the key.  Statistics count a visited node among the levels met so
far, which have to include its own; they do, because a walk never skips a depth.
-/

open Pools

namespace Key

def checkedExtend (partialKey : Key) (chunk : Chunk) (level : Nat) : Checked Key := do
  checkedShift level
  ensure (shift level < 64) .shiftTooFar
  return partialKey.extend chunk level

theorem checkedExtend_of_low {level : Nat} (low : level ≤ maxLevel) (partialKey : Key)
    (chunk : Chunk) : partialKey.checkedExtend chunk level = .ok (partialKey.extend chunk level) := by
  rw [checkedExtend, checkedShift_of_low low, ok_bind, ensure_bind (shift_lt_of_low low)]
  rfl

end Key

namespace Subtree

def checkedVisits : {level : Nat} -> Subtree level -> Pools -> Nat -> Key -> Checked (List Visit)
  | 0, (leaf : Node UInt64), pools, depth, partialKey => do
      let _ ← pools.checkedRead (leaf.named 0)
      let entries ← leaf.checkedEntries
      return .node depth (leaf.named 0) 0 leaf.count partialKey ::
        entries.map fun entry =>
          .value depth entry.position entry.chunk (Key.extend partialKey entry.chunk 0) entry.value
  | level + 1, (node : Node (Subtree level)), pools, depth, partialKey => do
      let _ ← pools.checkedRead (node.named (level + 1))
      let entries ← node.checkedEntries
      let walks ← entries.mapM fun entry => do
        let key ← partialKey.checkedExtend entry.chunk (level + 1)
        let below ← entry.value.checkedVisits pools (depth + 1) key
        return .child depth entry.position entry.chunk entry.value.handle :: below
      return .node depth (node.named (level + 1)) (level + 1) node.count partialKey :: walks.flatten

theorem checkedVisits_of_sound {level : Nat} {subtree : Subtree level} (sound : subtree.Sound)
    (low : level ≤ Key.maxLevel) {pools : Pools} {anchor : Anchor}
    (records : pools.Records (subtree.edges anchor)) (depth : Nat) (partialKey : Key) :
    subtree.checkedVisits pools depth partialKey = .ok (subtree.visits depth partialKey) := by
  induction subtree using byLevel generalizing anchor depth partialKey with
  | leaf leaf =>
      have top : pools.anchor? (leaf.named 0) = some anchor := records _ List.mem_cons_self
      rw [ofLeaf, checkedVisits, checkedRead_of_used top, ok_bind,
        Node.checkedEntries_of_valid (sound_leaf.mp sound).1, ok_bind]
      rfl
  | @node level node inductionHypothesis =>
      rcases sound_node.mp sound with ⟨valid, _, children⟩
      have top : pools.anchor? (node.named (level + 1)) = some anchor :=
        records _ List.mem_cons_self
      have walked : (node.entries.mapM fun entry => do
          let key ← partialKey.checkedExtend entry.chunk (level + 1)
          let below ← entry.value.checkedVisits pools (depth + 1) key
          return Visit.child depth entry.position entry.chunk entry.value.handle :: below) =
          .ok (node.entries.map fun entry =>
            Visit.child depth entry.position entry.chunk entry.value.handle ::
              entry.value.visits (depth + 1) (Key.extend partialKey entry.chunk (level + 1))) := by
        apply mapM_of_ok
        intro entry listed
        have held : node.get? entry.chunk = some entry.value :=
          (Node.mem_bindings_iff valid).mp (List.mem_map_of_mem listed)
        rw [Key.checkedExtend_of_low low, ok_bind, inductionHypothesis entry.value
          (children _ _ held) (Nat.le_of_succ_le low) (records_child valid held records), ok_bind]
        rfl
      rw [ofNode, checkedVisits, checkedRead_of_used top, ok_bind,
        Node.checkedEntries_of_valid valid, ok_bind, walked, ok_bind, ← List.flatMap_def]
      rfl

end Subtree

namespace LevelTally

/-- A node is counted at its depth, which has to be among the levels by then. -/
def checkedNoted (levels : List LevelTally) (visit : Visit) : Checked (List LevelTally) := do
  ensure (∀ depth ∈ visit.depth?, depth < (noted levels visit).length) .outOfRange
  return noted levels visit

/-- Counting the nodes of a walk that never skips a depth goes through. -/
theorem foldlM_checkedNoted {levels : List LevelTally} {walk : List Visit} {final : Nat}
    (deepening : Deepening levels.length walk final) :
    walk.foldlM checkedNoted levels = .ok (walk.foldl noted levels) := by
  generalize seen : levels.length = start at deepening
  induction deepening generalizing levels with
  | done => rfl
  | @node _ _ depth level count handle partialKey _ near _ inductionHypothesis =>
      subst seen
      have length : (noted levels (.node depth handle level count partialKey)).length =
          max levels.length (depth + 1) := length_noted near
      have known : ∀ own ∈ some depth,
          own < (noted levels (.node depth handle level count partialKey)).length := by
        intro own same
        cases same
        omega
      rw [List.foldlM_cons, checkedNoted, Visit.depth?, ensure_bind known, List.foldl_cons]
      exact inductionHypothesis length
  | edge other _ inductionHypothesis =>
      rw [List.foldlM_cons, checkedNoted, other, List.foldl_cons]
      exact inductionHypothesis ((congrArg List.length (noted_of_edge other)).trans seen)

end LevelTally
end AdaptiveRadix
