import AdaptiveRadix.Node.Basic
import AdaptiveRadix.Tree.Placement

namespace AdaptiveRadix

/-!
# Subtrees by level

A subtree at level 0 is a leaf: a node whose entries are values.  A subtree at level
`n + 1` is a node whose entries are subtrees at level `n`.  Every path from a root
to a value therefore looks at one chunk for each level, and a search can follow a key
without asking a node what it is.

`placement` is the read-only descent that comes before every insertion: it says what
the insertion will find at the end of the key's path, which is all that is needed to
work out how many nodes it will take.
-/

/-- A tree of nodes whose top is at the given level. -/
def Subtree : Nat -> Type
  | 0 => Node UInt64
  | level + 1 => Node (Subtree level)

namespace Subtree

/-- Places without an entry need something to hold. -/
def filler : (level : Nat) -> Subtree level
  | 0 => (Node.vacant .c1 0 : Node UInt64)
  | level + 1 =>
      let _ : Inhabited (Subtree level) := ⟨filler level⟩
      (Node.vacant .c1 0 : Node (Subtree level))

instance (level : Nat) : Inhabited (Subtree level) :=
  ⟨filler level⟩

/-- The name of the top node. -/
def handle : {level : Nat} -> Subtree level -> Handle
  | 0, (leaf : Node UInt64) => ⟨⟨.leaf, leaf.sizeClass⟩, leaf.slot⟩
  | _ + 1, (node : Node (Subtree _)) => ⟨⟨.inner, node.sizeClass⟩, node.slot⟩

/-- Whether the top node has no entry. -/
def isEmpty : {level : Nat} -> Subtree level -> Bool
  | 0, (leaf : Node UInt64) => leaf.isEmpty
  | _ + 1, (node : Node (Subtree _)) => node.isEmpty

/-- The value of a key. -/
def get? : {level : Nat} -> Subtree level -> Key -> Option UInt64
  | 0, (leaf : Node UInt64), key => leaf.get? (key.chunk 0)
  | level + 1, (node : Node (Subtree level)), key =>
      match node.get? (key.chunk (level + 1)) with
      | some child => child.get? key
      | none => none

/-- What an insertion of the key finds. -/
def placement : {level : Nat} -> Subtree level -> Key -> Placement
  | 0, (leaf : Node UInt64), key =>
      match leaf.get? (key.chunk 0) with
      | some _ => .present
      | none => .gap 0 leaf.sizeClass leaf.isFull
  | level + 1, (node : Node (Subtree level)), key =>
      match node.get? (key.chunk (level + 1)) with
      | some child => child.placement key
      | none => .gap (level + 1) node.sizeClass node.isFull

/-- Give a key that is present another value.  No node is taken or moved. -/
def replace : {level : Nat} -> Subtree level -> Key -> UInt64 -> Subtree level
  | 0, (leaf : Node UInt64), key, value => leaf.replace (key.chunk 0) value
  | level + 1, (node : Node (Subtree level)), key, value =>
      match node.get? (key.chunk (level + 1)) with
      | some child => node.replace (key.chunk (level + 1)) (child.replace key value)
      | none => node

end Subtree
end AdaptiveRadix
