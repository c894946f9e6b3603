import AdaptiveRadix.Pool.Basic
import AdaptiveRadix.Tree.Event
import AdaptiveRadix.Tree.Subtree

namespace AdaptiveRadix

/-!
# Growing a subtree

The second half of an insertion, after room has been made for all it takes.  The key
is absent; its path ends at a node without an entry for the next chunk.  There the
missing part of the path is built from the leaf upwards, the node moves to the next
class if it is full, and the two are joined.

The order in which nodes are taken and given back decides their slots, and hence
every handle: first the wrappers above an old root, lowest first; then the path,
leaf first; last the larger copy of a full node, right after the small one is given
back.  Each time a node comes to be held by another, the pools record the edge.
-/

/-- The pools and the events so far, as an insertion hands them on. -/
structure Ledger where
  pools : Pools
  events : List Event

/-- Move a node to the next class if it is full, and let its children know. -/
def Node.withRoom {α : Type} [Inhabited α] (node : Node α) (level : Nat)
    (child? : α -> Option Handle) (ledger : Ledger) : Node α × Ledger :=
  match node.isFull, node.sizeClass.next? with
  | true, some larger =>
      let family := Family.ofLevel level
      let small : Handle := ⟨⟨family, node.sizeClass⟩, node.slot⟩
      let anchor := (ledger.pools.anchor? small).getD Anchor.root
      let taken := (ledger.pools.release small).take ⟨family, larger⟩
      let target := node.moved larger taken.1.slot
      let children := target.entries.filterMap fun entry => child? entry.value
      (target, {
        pools := children.foldl (fun pools child => pools.adopted taken.1 child)
          (taken.2.anchored taken.1 anchor)
        events := ledger.events ++ [.grew family node.sizeClass larger level] })
  | _, _ => (node, ledger)

namespace Subtree

/-- Hold a subtree under a chunk of a node that has room and no entry for it. -/
def hold {level : Nat} (node : Node (Subtree level)) (chunk : Chunk) (child : Subtree level)
    (pools : Pools) : Subtree (level + 1) × Pools :=
  let holder : Subtree (level + 1) := node.insert chunk child
  (holder, pools.anchored child.handle ⟨some holder.handle, chunk⟩)

/-- Build a path of nodes of the smallest class for one key. -/
def chain (key : Key) (value : UInt64) (pools : Pools) : (level : Nat) -> Subtree level × Pools
  | 0 =>
      let taken := pools.take ⟨.leaf, .c1⟩
      let leaf : Node UInt64 := Node.vacant .c1 taken.1.slot
      (leaf.insert (key.chunk 0) value, taken.2)
  | level + 1 =>
      let below := chain key value pools level
      let taken := below.2.take ⟨.inner, .c1⟩
      hold (Node.vacant .c1 taken.1.slot) (key.chunk (level + 1)) below.1 taken.2

/-- Wrap a subtree in nodes of the smallest class that hold it under chunk 0, so that
its top rises by `rise` levels and every key keeps its place. -/
def wrapped {level : Nat} (subtree : Subtree level) (pools : Pools) :
    (rise : Nat) -> Subtree (level + rise) × Pools
  | 0 => (subtree, pools)
  | rise + 1 =>
      let below := subtree.wrapped pools rise
      let taken := below.2.take ⟨.inner, .c1⟩
      hold (Node.vacant .c1 taken.1.slot) 0 below.1 taken.2

/-- Add a key that is absent. -/
def insert : {level : Nat} -> Subtree level -> Key -> UInt64 -> Ledger -> Subtree level × Ledger
  | 0, (leaf : Node UInt64), key, value, ledger =>
      let roomy := leaf.withRoom 0 (fun _ => none) ledger
      (roomy.1.insert (key.chunk 0) value, roomy.2)
  | level + 1, (node : Node (Subtree level)), key, value, ledger =>
      let chunk := key.chunk (level + 1)
      match node.get? chunk with
      | some child =>
          let grown := child.insert key value ledger
          (node.replace chunk grown.1, grown.2)
      | none =>
          let path := chain key value ledger.pools level
          let roomy := node.withRoom (level + 1) (fun child => some child.handle)
            { ledger with pools := path.2 }
          let held := hold roomy.1 chunk path.1 roomy.2.pools
          (held.1, { roomy.2 with pools := held.2 })

end Subtree
end AdaptiveRadix
