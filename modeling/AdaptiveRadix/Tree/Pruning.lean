import AdaptiveRadix.Pool.Basic
import AdaptiveRadix.Tree.Subtree

namespace AdaptiveRadix
namespace Subtree

/-!
# Pruning a subtree

Removal of a key takes its entry out of a leaf.  A node that has lost its last entry
is given back to its pool and its own entry is taken out of its parent, and so on
upwards; the first node that keeps an entry stays where it is, in its class.
-/

/-- Keep a subtree, or give its top node back if it has no entry. -/
def kept {level : Nat} (subtree : Subtree level) (pools : Pools) :
    Option (Subtree level) × Pools :=
  if subtree.isEmpty then (none, pools.release subtree.handle) else (some subtree, pools)

/-- Remove a key that is present.  Nothing is left of a subtree that held only it. -/
def erase : {level : Nat} -> Subtree level -> Key -> Pools -> Option (Subtree level) × Pools
  | 0, (leaf : Node UInt64), key, pools =>
      kept (show Subtree 0 from leaf.erase (key.chunk 0)) pools
  | level + 1, (node : Node (Subtree level)), key, pools =>
      let chunk := key.chunk (level + 1)
      match node.get? chunk with
      | none => (some node, pools)
      | some child =>
          match child.erase key pools with
          | (some smaller, pools) => (some (node.replace chunk smaller), pools)
          | (none, pools) => kept (show Subtree (level + 1) from node.erase chunk) pools

end Subtree
end AdaptiveRadix
