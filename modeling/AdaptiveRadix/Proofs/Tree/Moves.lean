import AdaptiveRadix.Proofs.Pool.Moves
import AdaptiveRadix.Proofs.Tree.Run

namespace AdaptiveRadix

/-!
# The moves of an operation

What each operation on a subtree does to the pools, move by move and in its order.
Performing the moves gives the pools that the operation hands on, so whatever is said
of every moment of the moves is said of every moment of the operation.

The moves of a growing subtree take what the placement of the key demands.  The two
are worked out apart: the demand from levels alone, the moves as nodes are made.  The
one node that is given back is the full node at the end of the path, and it is in use.
-/

namespace Demand

theorem count_none (pool : PoolId) : none.count pool = 0 :=
  PerPool.get_tabulate _ pool

theorem count_add (demand : Demand) (own : PoolId) (nodes : Nat) (pool : PoolId) :
    (demand.add own nodes).count pool = demand.count pool + if own = pool then nodes else 0 := by
  by_cases same : own = pool
  · subst pool
    rw [if_pos rfl]
    exact PerPool.get_modify_self demand.wanted own _
  · rw [if_neg same]
    exact PerPool.get_modify_of_ne demand.wanted _ same

theorem count_chain (level : Nat) (pool : PoolId) :
    (chain level).count pool =
      (if ⟨.inner, .c1⟩ = pool then level else 0) + if ⟨.leaf, .c1⟩ = pool then 1 else 0 := by
  rw [chain, count_add, count_add, count_none, Nat.zero_add]

/-- Growth adds the same to every demand. -/
theorem count_growth (demand : Demand) (family : Family) (sizeClass : SizeClass) (full : Bool)
    (pool : PoolId) :
    (demand.growth family sizeClass full).count pool =
      demand.count pool + (none.growth family sizeClass full).count pool := by
  cases full with
  | false => simp only [growth, count_none, Nat.add_zero]
  | true =>
      cases next : sizeClass.next? with
      | none => simp only [growth, next, count_none, Nat.add_zero]
      | some larger => simp only [growth, next, count_add, count_none, Nat.zero_add]

end Demand

namespace Placement

/-- The pool of the node that has to grow, if one has to. -/
def outgrown? : Placement -> Option PoolId
  | gap level sizeClass full =>
      match full, sizeClass.next? with
      | true, some _ => some ⟨Family.ofLevel level, sizeClass⟩
      | _, _ => none
  | above _ _ => some ⟨.inner, .c1⟩
  | present | first _ => none

end Placement

namespace Node

variable {α : Type} [Inhabited α]

/-- Giving the full node back, taking a larger one, and telling its children. -/
def roomMoves (node : Node α) (level : Nat) (child? : α -> Option Handle) (pools : Pools) :
    List Move :=
  match node.isFull, node.sizeClass.next? with
  | true, some larger =>
      let family := Family.ofLevel level
      let small : Handle := ⟨⟨family, node.sizeClass⟩, node.slot⟩
      let anchor := (pools.anchor? small).getD Anchor.root
      let taken := (pools.release small).take ⟨family, larger⟩
      let children := (node.moved larger taken.1.slot).entries.filterMap fun entry =>
        child? entry.value
      [.release small, .take ⟨family, larger⟩, .record taken.1 anchor] ++
        children.map (Move.adopt taken.1)
  | _, _ => []

theorem performAll_roomMoves (node : Node α) (level : Nat) (child? : α -> Option Handle)
    (ledger : Ledger) :
    ledger.pools.performAll (node.roomMoves level child? ledger.pools) =
      (node.withRoom level child? ledger).2.pools := by
  cases full : node.isFull with
  | false => simp only [roomMoves, withRoom, full, Pools.performAll, List.foldl_nil]
  | true =>
      cases next : node.sizeClass.next? with
      | none => simp only [roomMoves, withRoom, full, next, Pools.performAll, List.foldl_nil]
      | some larger =>
          simp only [roomMoves, withRoom, full, next, Pools.performAll, List.foldl_append,
            List.foldl_map]
          rfl

end Node

namespace Subtree

variable {level : Nat} {leaf : Node UInt64} {node : Node (Subtree level)} {child : Subtree level}
  {key : Key}

/-- For each step of the path a node, and the edge to it from the step above. -/
def chainMoves (key : Key) (value : UInt64) (pools : Pools) : Nat -> List Move
  | 0 => [.take ⟨.leaf, .c1⟩]
  | level + 1 =>
      chainMoves key value pools level ++ [.take ⟨.inner, .c1⟩,
        .record (chain key value pools level).1.handle
          ⟨some (chain key value pools (level + 1)).1.handle, key.chunk (level + 1)⟩]

theorem performAll_chainMoves (key : Key) (value : UInt64) (pools : Pools) (level : Nat) :
    pools.performAll (chainMoves key value pools level) = (chain key value pools level).2 := by
  induction level with
  | zero => rfl
  | succ level inductionHypothesis =>
      rw [chainMoves, Pools.performAll_append, inductionHypothesis]
      rfl

/-- For each new level a node, and the edge from it to the level below. -/
def wrappedMoves (subtree : Subtree level) (pools : Pools) : Nat -> List Move
  | 0 => []
  | rise + 1 =>
      subtree.wrappedMoves pools rise ++ [.take ⟨.inner, .c1⟩,
        .record (subtree.wrapped pools rise).1.handle
          ⟨some (subtree.wrapped pools (rise + 1)).1.handle, 0⟩]

theorem performAll_wrappedMoves (subtree : Subtree level) (pools : Pools) (rise : Nat) :
    pools.performAll (subtree.wrappedMoves pools rise) = (subtree.wrapped pools rise).2 := by
  induction rise with
  | zero => rfl
  | succ rise inductionHypothesis =>
      rw [wrappedMoves, Pools.performAll_append, inductionHypothesis]
      rfl

/-- The moves of the node at which the path of the key ends. -/
def insertMoves : {level : Nat} -> Subtree level -> Key -> UInt64 -> Ledger -> List Move
  | 0, (leaf : Node UInt64), _, _, ledger => leaf.roomMoves 0 (fun _ => none) ledger.pools
  | level + 1, (node : Node (Subtree level)), key, value, ledger =>
      match node.get? (key.chunk (level + 1)) with
      | some child => child.insertMoves key value ledger
      | none =>
          let path := chain key value ledger.pools level
          chainMoves key value ledger.pools level ++
            node.roomMoves (level + 1) (fun child => some child.handle) path.2 ++
              [.record path.1.handle
                ⟨some (insert (show Subtree (level + 1) from node) key value ledger).1.handle,
                  key.chunk (level + 1)⟩]

theorem insertMoves_of_child (held : node.get? (key.chunk (level + 1)) = some child)
    (value : UInt64) (ledger : Ledger) :
    (ofNode node).insertMoves key value ledger = child.insertMoves key value ledger := by
  simp only [ofNode, insertMoves, held]

theorem insertMoves_of_gap (missed : node.get? (key.chunk (level + 1)) = none) (value : UInt64)
    (ledger : Ledger) :
    (ofNode node).insertMoves key value ledger =
      chainMoves key value ledger.pools level ++
        node.roomMoves (level + 1) (fun child => some child.handle)
            (chain key value ledger.pools level).2 ++
          [.record (chain key value ledger.pools level).1.handle
            ⟨some ((ofNode node).insert key value ledger).1.handle, key.chunk (level + 1)⟩] := by
  simp only [ofNode, insertMoves, missed]

theorem performAll_insertMoves (subtree : Subtree level) (key : Key) (value : UInt64)
    (ledger : Ledger) :
    ledger.pools.performAll (subtree.insertMoves key value ledger) =
      (subtree.insert key value ledger).2.pools := by
  induction subtree using byLevel generalizing ledger with
  | leaf leaf => exact Node.performAll_roomMoves leaf 0 (fun _ => none) ledger
  | @node level node inductionHypothesis =>
      cases held : node.get? (key.chunk (level + 1)) with
      | some child =>
          rw [insertMoves_of_child held, insert_of_child held]
          exact inductionHypothesis child ledger
      | none =>
          have roomy := Node.performAll_roomMoves node (level + 1) (fun child => some child.handle)
            { ledger with pools := (chain key value ledger.pools level).2 }
          rw [insertMoves_of_gap held, Pools.performAll_append, Pools.performAll_append,
            performAll_chainMoves, roomy, insert_of_gap held]
          rfl

/-! ## What the moves take and give back -/

section Counting

open Pools (taken releases)

private theorem taken_take (own : PoolId) (rest : List Move) (pool : PoolId) :
    taken (.take own :: rest) pool = taken rest pool + if own = pool then 1 else 0 := by
  by_cases same : own = pool
  · rw [if_pos same, same, Pools.taken_take_self]
  · rw [if_neg same, Pools.taken_cons_of_ne (by simpa using same), Nat.add_zero]

private theorem taken_record (handle : Handle) (anchor : Anchor) (rest : List Move)
    (pool : PoolId) : taken (.record handle anchor :: rest) pool = taken rest pool :=
  Pools.taken_cons_of_ne (by simp) rest

private theorem taken_adopt (parent : Handle) (children : List Handle) (pool : PoolId) :
    taken (children.map (Move.adopt parent)) pool = 0 := by
  rw [taken, List.count_eq_zero]
  simp

private theorem releases_adopt (parent : Handle) (children : List Handle) :
    releases (children.map (Move.adopt parent)) = [] := by
  rw [releases, List.filterMap_map]
  simp [Function.comp_def, Move.released?]

theorem taken_roomMoves {α : Type} [Inhabited α] (node : Node α) (level : Nat)
    (child? : α -> Option Handle) (pools : Pools) (pool : PoolId) :
    taken (node.roomMoves level child? pools) pool =
      (Demand.none.growth (Family.ofLevel level) node.sizeClass node.isFull).count pool := by
  cases full : node.isFull with
  | false =>
      simp only [Node.roomMoves, full, Demand.growth, Demand.count_none]
      rfl
  | true =>
      cases next : node.sizeClass.next? with
      | none =>
          simp only [Node.roomMoves, full, next, Demand.growth, Demand.count_none]
          rfl
      | some larger =>
          simp only [Node.roomMoves, full, next, Demand.growth, Demand.count_add, Demand.count_none,
            Pools.taken_append, taken_adopt]
          rw [Pools.taken_cons_of_ne (by simp), taken_take, taken_record]
          rfl

theorem releases_roomMoves {α : Type} [Inhabited α] (node : Node α) (level : Nat)
    (child? : α -> Option Handle) (pools : Pools) :
    releases (node.roomMoves level child? pools) =
      (Placement.gap level node.sizeClass node.isFull).outgrown?.toList := by
  cases full : node.isFull with
  | false =>
      simp only [Node.roomMoves, full, Placement.outgrown?]
      rfl
  | true =>
      cases next : node.sizeClass.next? with
      | none =>
          simp only [Node.roomMoves, full, next, Placement.outgrown?]
          rfl
      | some larger =>
          simp only [Node.roomMoves, full, next, Placement.outgrown?, Pools.releases_append,
            releases_adopt]
          rfl

/-- A node that has to grow may be given back when it is in use. -/
theorem honest_roomMoves {α : Type} [Inhabited α] (node : Node α) (level : Nat)
    (child? : α -> Option Handle) {pools : Pools} {anchor : Anchor}
    (used : pools.anchor? (node.named level) = some anchor) :
    pools.Honest (node.roomMoves level child? pools) := by
  cases full : node.isFull with
  | false =>
      simp only [Node.roomMoves, full]
      trivial
  | true =>
      cases next : node.sizeClass.next? with
      | none =>
          simp only [Node.roomMoves, full, next]
          trivial
      | some larger =>
          simp only [Node.roomMoves, full, next, List.cons_append, List.nil_append]
          refine ⟨?_, Pools.honest_of_keeping ?_ _⟩
          · intro handle released
            exact ⟨anchor, Option.some.inj released ▸ used⟩
          · rw [Pools.releases_cons_of_none rfl, Pools.releases_cons_of_none rfl, releases_adopt]

theorem taken_chainMoves (key : Key) (value : UInt64) (pools : Pools) (level : Nat)
    (pool : PoolId) :
    taken (chainMoves key value pools level) pool = (Demand.chain level).count pool := by
  induction level with
  | zero =>
      rw [chainMoves, taken_take, Demand.count_chain, ite_self, Nat.zero_add]
      exact Nat.zero_add _
  | succ level inductionHypothesis =>
      rw [chainMoves, Pools.taken_append, inductionHypothesis, taken_take, taken_record,
        Demand.count_chain, Demand.count_chain]
      have none : taken [] pool = 0 := rfl
      rw [none]
      split <;> omega

theorem releases_chainMoves (key : Key) (value : UInt64) (pools : Pools) (level : Nat) :
    releases (chainMoves key value pools level) = [] := by
  induction level with
  | zero => rfl
  | succ level inductionHypothesis =>
      rw [chainMoves, Pools.releases_append, inductionHypothesis]
      rfl

theorem taken_wrappedMoves (subtree : Subtree level) (pools : Pools) (rise : Nat) (pool : PoolId) :
    taken (subtree.wrappedMoves pools rise) pool = if ⟨.inner, .c1⟩ = pool then rise else 0 := by
  induction rise with
  | zero =>
      rw [ite_self]
      rfl
  | succ rise inductionHypothesis =>
      rw [wrappedMoves, Pools.taken_append, inductionHypothesis, taken_take, taken_record]
      have none : taken [] pool = 0 := rfl
      rw [none]
      split <;> omega

theorem releases_wrappedMoves (subtree : Subtree level) (pools : Pools) (rise : Nat) :
    releases (subtree.wrappedMoves pools rise) = [] := by
  induction rise with
  | zero => rfl
  | succ rise inductionHypothesis =>
      rw [wrappedMoves, Pools.releases_append, inductionHypothesis]
      rfl

/-- Where the descent finds a gap, the moves take what the gap demands. -/
theorem taken_insertMoves (subtree : Subtree level) (missed : subtree.get? key = none)
    (value : UInt64) (ledger : Ledger) (pool : PoolId) :
    taken (subtree.insertMoves key value ledger) pool =
      (subtree.placement key).demand.count pool := by
  induction subtree using byLevel generalizing ledger with
  | leaf leaf =>
      have absent : leaf.get? (key.chunk 0) = none := missed
      rw [placement_leaf_of_gap absent]
      exact taken_roomMoves leaf 0 (fun _ => none) ledger.pools pool
  | @node level node inductionHypothesis =>
      cases held : node.get? (key.chunk (level + 1)) with
      | some child =>
          rw [insertMoves_of_child held, placement_of_child held]
          exact inductionHypothesis child ((get?_of_held held rfl).symm.trans missed) ledger
      | none =>
          rw [insertMoves_of_gap held, placement_of_gap held, Pools.taken_append,
            Pools.taken_append, taken_chainMoves, taken_roomMoves, taken_record, Placement.demand,
            Demand.count_growth (Demand.chain level)]
          rfl

theorem releases_insertMoves (subtree : Subtree level) (missed : subtree.get? key = none)
    (value : UInt64) (ledger : Ledger) :
    releases (subtree.insertMoves key value ledger) =
      (subtree.placement key).outgrown?.toList := by
  induction subtree using byLevel generalizing ledger with
  | leaf leaf =>
      have absent : leaf.get? (key.chunk 0) = none := missed
      rw [placement_leaf_of_gap absent]
      exact releases_roomMoves leaf 0 (fun _ => none) ledger.pools
  | @node level node inductionHypothesis =>
      cases held : node.get? (key.chunk (level + 1)) with
      | some child =>
          rw [insertMoves_of_child held, placement_of_child held]
          exact inductionHypothesis child ((get?_of_held held rfl).symm.trans missed) ledger
      | none =>
          rw [insertMoves_of_gap held, placement_of_gap held, Pools.releases_append,
            Pools.releases_append, releases_chainMoves, releases_roomMoves]
          exact List.append_nil _

/-- The node that is given back is one that the pools have on record. -/
theorem honest_insertMoves {subtree : Subtree level} (sound : subtree.Sound)
    (missed : subtree.get? key = none) (value : UInt64) (ledger : Ledger) (anchor : Anchor)
    {others : List (Handle × Anchor)}
    (inventory : Inventory ledger.pools (subtree.edges anchor ++ others)) :
    ledger.pools.Honest (subtree.insertMoves key value ledger) := by
  induction subtree using byLevel generalizing ledger anchor others with
  | leaf leaf => exact honest_roomMoves leaf 0 (fun _ => none) inventory.head
  | @node level node inductionHypothesis =>
      rcases sound_node.mp sound with ⟨valid, _, children⟩
      cases held : node.get? (key.chunk (level + 1)) with
      | some child =>
          rw [insertMoves_of_child held]
          have below := inventory.perm ((edges_perm_of_held valid held anchor).append_right others)
          rw [List.append_assoc] at below
          exact inductionHypothesis child (children _ child held)
            ((get?_of_held held rfl).symm.trans missed) ledger _ below
      | none =>
          rw [edges_node] at inventory
          have chained := (chain_exchange key value ledger.pools level).inventory inventory
          have used : (chain key value ledger.pools level).2.anchor? (node.named (level + 1)) =
              some anchor := by
            apply chained.mem_iff.mp
            exact List.mem_append_right _ (List.mem_append_left _ List.mem_cons_self)
          rw [insertMoves_of_gap held, Pools.honest_append, Pools.honest_append]
          refine ⟨⟨Pools.honest_of_keeping (releases_chainMoves key value ledger.pools level) _, ?_⟩,
            Pools.honest_of_keeping rfl _⟩
          rw [performAll_chainMoves]
          exact honest_roomMoves node (level + 1) (fun child => some child.handle) used

end Counting

/-- The topmost wrapper is full, and no key that needs it has its path there yet. -/
theorem placement_wrapped (subtree : Subtree level) (pools : Pools) {rise : Nat} (rises : 0 < rise)
    (digit : key.chunk (level + rise) ≠ 0) :
    (subtree.wrapped pools rise).1.placement key = .gap (level + rise) .c1 true := by
  cases rise with
  | zero => cases rises
  | succ rise =>
      let slot := ((subtree.wrapped pools rise).2.take ⟨.inner, .c1⟩).1.slot
      let fresh : Node (Subtree (level + rise)) := Node.vacant .c1 slot
      have found := Node.get?_insert (Node.valid_vacant .c1 slot) rfl
        (Node.get?_vacant .c1 slot 0) (subtree.wrapped pools rise).1 (key.chunk (level + rise + 1))
      have missed : (fresh.insert 0 (subtree.wrapped pools rise).1).get?
          (key.chunk (level + rise + 1)) = none := by
        rw [← Nat.add_assoc] at digit
        rw [found, if_neg digit]
        exact Node.get?_vacant .c1 slot _
      exact placement_of_gap missed

end Subtree
end AdaptiveRadix
