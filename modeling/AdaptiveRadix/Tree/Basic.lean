import AdaptiveRadix.Pool.Reservation
import AdaptiveRadix.Tree.Subtree

namespace AdaptiveRadix

/-!
# Trees

A map from 64-bit keys to 64-bit values.  The root sits at the level that the largest
key ever needed since the tree was last empty, so keys that differ only in their low
bytes stay in a shallow tree.  A tree may have a byte limit on its nodes.
-/

/-- A subtree at a level that is known only at run time. -/
structure Root where
  level : Nat
  top : Subtree level

/-- The root, if there is a key; the largest key that fits below it, 0 without a root;
the pools that its nodes live in; the number of keys; and the byte limit, if any. -/
structure Tree where
  root? : Option Root
  ceiling : Key
  pools : Pools
  size : Nat
  limit? : Option Nat

namespace Tree

/-- A tree without keys, whose nodes may take as many bytes as the limit says. -/
def empty (limit? : Option Nat) : Tree :=
  ⟨none, 0, Pools.empty, 0, limit?⟩

def isEmpty (tree : Tree) : Bool :=
  tree.root?.isNone

/-- The value of a key.  A key above the ceiling has none. -/
def get? (tree : Tree) (key : Key) : Option UInt64 :=
  match tree.root? with
  | some root => if tree.ceiling < key then none else root.top.get? key
  | none => none

/-- The number of levels. -/
def height (tree : Tree) : Nat :=
  match tree.root? with
  | some root => root.level + 1
  | none => 0

/-- The largest key that the tree can take without getting taller. -/
def maxKey? (tree : Tree) : Option Key :=
  tree.root?.map fun _ => tree.ceiling

/-- Bytes of the nodes in use. -/
def liveBytes (tree : Tree) : Nat :=
  tree.pools.liveBytes

/-- What an insertion of the key finds. -/
def placement (tree : Tree) (key : Key) : Placement :=
  match tree.root? with
  | some root =>
      if tree.ceiling < key then .above root.level key.topLevel else root.top.placement key
  | none => .first key.topLevel

end Tree
end AdaptiveRadix
