import AdaptiveRadix.Proofs.Tree.Contents
import AdaptiveRadix.Tree.Visit

namespace AdaptiveRadix
namespace Subtree

/-!
# The walk and the search agree

A search takes a key apart from the top; the walk puts keys together on its way down.
`listing` says that the walk through a subtree meets exactly the keys that a search
finds among those with the partial key's higher chunks, each once and in ascending
order.  The induction needs the partial key to be zero where the subtree decides.
-/

variable {level : Nat} {leaf : Node UInt64} {node : Node (Subtree level)}

/-- The keys and values that the walk through a subtree meets. -/
def bindings (subtree : Subtree level) (depth : Nat) (partialKey : Key) : List (Key × UInt64) :=
  (subtree.visits depth partialKey).filterMap Visit.binding?

theorem bindings_leaf (leaf : Node UInt64) (depth : Nat) (partialKey : Key) :
    (ofLeaf leaf).bindings depth partialKey =
      leaf.bindings.map fun binding => (partialKey.extend binding.1 0, binding.2) := by
  rw [bindings, ofLeaf, visits, List.filterMap_cons_none rfl, List.filterMap_map, Node.bindings,
    List.map_map, ← List.filterMap_eq_map]
  rfl

theorem bindings_node (node : Node (Subtree level)) (depth : Nat) (partialKey : Key) :
    (ofNode node).bindings depth partialKey =
      node.bindings.flatMap fun binding =>
        binding.2.bindings (depth + 1) (partialKey.extend binding.1 (level + 1)) := by
  rw [bindings, ofNode, visits, List.filterMap_cons_none rfl, List.filterMap_flatMap, Node.bindings,
    List.flatMap_map]
  rfl

private theorem pairwise_keys {bindings : List (Key × UInt64)} :
    (bindings.map Prod.fst).Pairwise (· < ·) ↔
      bindings.Pairwise fun first second => first.1 < second.1 :=
  List.pairwise_map

private theorem listing_leaf (valid : leaf.Valid) (depth : Nat) {partialKey : Key}
    (aligned : partialKey.Aligned 1) :
    Listing ((ofLeaf leaf).bindings depth partialKey) fun key =>
      if key.above 1 = partialKey.above 1 then (ofLeaf leaf).get? key else none := by
  have low : 0 ≤ Key.maxLevel := Nat.zero_le _
  rw [bindings_leaf]
  refine ⟨?_, ?_⟩
  · rw [pairwise_keys, List.pairwise_map]
    have chunks := List.pairwise_map.mp (Node.listing valid).ascending
    exact chunks.imp fun less => Key.lt_of_above_lt (Key.above_extend_lt low aligned less)
  · intro key value
    have place : forall chunk, partialKey.extend chunk 0 = key ↔
        key.above 1 = partialKey.above 1 ∧ key.chunk 0 = chunk := by
      intro chunk
      rw [← Key.above_eq_extend_iff low aligned, Key.above_zero, Key.above_zero, UInt64.toNat_inj,
        eq_comm]
    rw [List.mem_map]
    constructor
    · intro listed
      rcases listed with ⟨⟨chunk, held⟩, member, same⟩
      rcases Prod.mk.inj same with ⟨keys, rfl⟩
      rcases (place chunk).mp keys with ⟨higher, rfl⟩
      rw [if_pos higher]
      exact (Node.mem_bindings_iff valid).mp member
    · intro found
      rcases Option.ite_none_right_eq_some.mp found with ⟨higher, looked⟩
      refine ⟨(key.chunk 0, value), (Node.mem_bindings_iff valid).mpr looked, ?_⟩
      exact Prod.ext ((place _).mpr ⟨higher, rfl⟩) rfl

private theorem listing_node (valid : node.Valid) (depth : Nat) {partialKey : Key}
    (low : level + 1 ≤ Key.maxLevel) (aligned : partialKey.Aligned (level + 2))
    (children : forall chunk child, node.get? chunk = some child ->
      Listing (child.bindings (depth + 1) (partialKey.extend chunk (level + 1))) fun key =>
        if key.above (level + 1) = (partialKey.extend chunk (level + 1)).above (level + 1) then
          child.get? key else none) :
    Listing ((ofNode node).bindings depth partialKey) fun key =>
      if key.above (level + 2) = partialKey.above (level + 2) then (ofNode node).get? key
      else none := by
  have inside : forall chunk child, (chunk, child) ∈ node.bindings -> forall key value,
      (key, value) ∈ child.bindings (depth + 1) (partialKey.extend chunk (level + 1)) ↔
        key.above (level + 1) = (partialKey.extend chunk (level + 1)).above (level + 1) ∧
          child.get? key = some value := by
    intro chunk child member key value
    rw [(children chunk child ((Node.mem_bindings_iff valid).mp member)).mem_iff,
      Option.ite_none_right_eq_some]
  rw [bindings_node]
  refine ⟨?_, ?_⟩
  · rw [pairwise_keys, List.pairwise_flatMap]
    refine ⟨?_, ?_⟩
    · intro binding member
      exact pairwise_keys.mp
        (children binding.1 binding.2 ((Node.mem_bindings_iff valid).mp member)).ascending
    · have chunks := List.pairwise_map.mp (Node.listing valid).ascending
      refine chunks.imp_of_mem ?_
      intro first second firstMember secondMember less one oneListed other otherListed
      apply Key.lt_of_above_lt
      rw [((inside _ _ firstMember _ _).mp oneListed).1,
        ((inside _ _ secondMember _ _).mp otherListed).1]
      exact Key.above_extend_lt low aligned less
  · intro key value
    rw [List.mem_flatMap, Option.ite_none_right_eq_some]
    constructor
    · intro listed
      rcases listed with ⟨⟨chunk, child⟩, member, met⟩
      rcases (inside chunk child member key value).mp met with ⟨higher, found⟩
      rcases (Key.above_eq_extend_iff low aligned).mp higher with ⟨top, rfl⟩
      rw [get?_of_held ((Node.mem_bindings_iff valid).mp member) rfl]
      exact ⟨top, found⟩
    · intro found
      rcases found with ⟨top, looked⟩
      rw [get?_node] at looked
      rcases Option.bind_eq_some_iff.mp looked with ⟨child, held, below⟩
      have member := (Node.mem_bindings_iff valid).mpr held
      refine ⟨(key.chunk (level + 1), child), member, ?_⟩
      exact (inside _ _ member key value).mpr
        ⟨(Key.above_eq_extend_iff low aligned).mpr ⟨top, rfl⟩, below⟩

/-- The walk lists the keys under a partial key as a search finds them. -/
theorem listing {subtree : Subtree level} (sound : subtree.Sound) (low : level ≤ Key.maxLevel)
    (depth : Nat) {partialKey : Key} (aligned : partialKey.Aligned (level + 1)) :
    Listing (subtree.bindings depth partialKey) fun key =>
      if key.above (level + 1) = partialKey.above (level + 1) then subtree.get? key else none := by
  induction subtree using byLevel generalizing depth partialKey with
  | leaf leaf => exact listing_leaf (sound_leaf.mp sound).1 depth aligned
  | @node level node inductionHypothesis =>
      rcases sound_node.mp sound with ⟨valid, _, children⟩
      apply listing_node valid depth low aligned
      intro chunk child held
      exact inductionHypothesis child (children chunk child held) (Nat.le_of_succ_le low) (depth + 1)
        (Key.aligned_extend low aligned chunk)

/-- A subtree without empty nodes has a key. -/
theorem bindings_ne_nil {subtree : Subtree level} (sound : subtree.Sound) (depth : Nat)
    (partialKey : Key) : subtree.bindings depth partialKey ≠ [] := by
  induction subtree using byLevel generalizing depth partialKey with
  | leaf leaf =>
      rcases sound_leaf.mp sound with ⟨valid, occupied⟩
      rcases Node.exists_of_count_pos valid (Node.count_pos occupied) with ⟨chunk, value, held⟩
      rw [bindings_leaf]
      exact List.ne_nil_of_mem (List.mem_map_of_mem ((Node.mem_bindings_iff valid).mpr held))
  | @node level node inductionHypothesis =>
      rcases sound_node.mp sound with ⟨valid, occupied, children⟩
      rcases Node.exists_of_count_pos valid (Node.count_pos occupied) with ⟨chunk, child, held⟩
      rcases List.exists_mem_of_ne_nil _ (inductionHypothesis child (children chunk child held)
        (depth + 1) (partialKey.extend chunk (level + 1))) with ⟨binding, met⟩
      rw [bindings_node]
      exact List.ne_nil_of_mem
        (List.mem_flatMap.mpr ⟨(chunk, child), (Node.mem_bindings_iff valid).mpr held, met⟩)

end Subtree
end AdaptiveRadix
