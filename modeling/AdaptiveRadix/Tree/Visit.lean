import AdaptiveRadix.Tree.Basic

namespace AdaptiveRadix

/-!
# Traversal

A depth-first walk as a list of visits: each node before its entries, each child's
edge right before the child itself, entries in ascending chunk order.  Values
therefore come in ascending key order.  Every account of a tree as a whole is read
off this one list.
-/

inductive Visit where
  /-- A node, with the chunks of its keys that its path fixes. -/
  | node (depth : Nat) (handle : Handle) (level count : Nat) (partialKey : Key)
  /-- The edge to a child. -/
  | child (depth position : Nat) (chunk : Chunk) (child : Handle)
  /-- A key and its value. -/
  | value (depth position : Nat) (chunk : Chunk) (key : Key) (value : UInt64)
deriving DecidableEq, Repr

namespace Visit

def binding? : Visit -> Option (Key × UInt64)
  | value _ _ _ key bound => some (key, bound)
  | _ => none

end Visit

namespace Subtree

/-- The walk through a subtree at the given depth. -/
def visits : {level : Nat} -> Subtree level -> Nat -> Key -> List Visit
  | 0, (leaf : Node UInt64), depth, partialKey =>
      .node depth (handle (show Subtree 0 from leaf)) 0 leaf.count partialKey ::
        leaf.entries.map fun entry =>
          .value depth entry.position entry.chunk (Key.extend partialKey entry.chunk 0) entry.value
  | level + 1, (node : Node (Subtree level)), depth, partialKey =>
      .node depth (handle (show Subtree (level + 1) from node)) (level + 1) node.count partialKey ::
        node.entries.flatMap fun entry =>
          .child depth entry.position entry.chunk entry.value.handle ::
            entry.value.visits (depth + 1) (Key.extend partialKey entry.chunk (level + 1))

end Subtree

namespace Tree

/-- The walk through a whole tree. -/
def visits (tree : Tree) : List Visit :=
  match tree.root? with
  | some root => root.top.visits 0 0
  | none => []

/-- The bindings in ascending key order. -/
def toList (tree : Tree) : List (Key × UInt64) :=
  tree.visits.filterMap Visit.binding?

/-- Call a procedure with state on every key and value, in ascending key order. -/
def forEach {σ : Type} (tree : Tree) (step : σ -> Key -> UInt64 -> σ) (start : σ) : σ :=
  tree.visits.foldl (fun state visit =>
    match visit.binding? with
    | some (key, value) => step state key value
    | none => state) start

theorem forEach_eq_foldl {σ : Type} (tree : Tree) (step : σ -> Key -> UInt64 -> σ) (start : σ) :
    tree.forEach step start =
      tree.toList.foldl (fun state binding => step state binding.1 binding.2) start := by
  rw [forEach, toList, List.foldl_filterMap]
  congr 1
  funext state visit
  cases visit.binding? <;> rfl

end Tree
end AdaptiveRadix
