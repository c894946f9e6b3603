import AdaptiveRadix.Pool.Handle
import AdaptiveRadix.Pool.Slab

namespace AdaptiveRadix

/-!
# The twelve pools

The pools decide which slot a node gets and keep an anchor for every node in use.
They do not hold the nodes: a tree owns its nodes, and the anchors are a second
account of its shape, by handle instead of by nesting.
-/

/-- A slab of anchors for each family and size class. -/
@[ext]
structure Pools where
  slabs : PerPool (Slab Anchor)

namespace Pools

/-- Pools that have handed out nothing. -/
def empty : Pools :=
  ⟨PerPool.tabulate fun _ => Slab.empty⟩

def slab (pools : Pools) (pool : PoolId) : Slab Anchor :=
  pools.slabs.get pool

/-- Hand out a node of a pool.  Nothing holds it yet. -/
def take (pools : Pools) (pool : PoolId) : Handle × Pools :=
  let taken := (pools.slab pool).take Anchor.root
  (⟨pool, taken.1⟩, ⟨pools.slabs.set pool taken.2⟩)

/-- Give a node back to its pool. -/
def release (pools : Pools) (handle : Handle) : Pools :=
  ⟨pools.slabs.modify handle.pool fun slab => slab.release handle.slot⟩

/-- The edge that leads to a node in use. -/
def anchor? (pools : Pools) (handle : Handle) : Option Anchor :=
  (pools.slab handle.pool).get? handle.slot

/-- Record the edge that leads to a node. -/
def anchored (pools : Pools) (handle : Handle) (anchor : Anchor) : Pools :=
  ⟨pools.slabs.modify handle.pool fun slab => slab.assign handle.slot anchor⟩

/-- Record that a node is held by another parent, under the same chunk as before. -/
def adopted (pools : Pools) (parent : Handle) (child : Handle) : Pools :=
  match pools.anchor? child with
  | some anchor => pools.anchored child { anchor with parent? := some parent }
  | none => pools

/-- Nodes in use. -/
def liveNodes (pools : Pools) (pool : PoolId) : Nat :=
  (pools.slab pool).live

/-- Bytes of the nodes in use. -/
def liveBytes (pools : Pools) : Nat :=
  PoolId.total fun pool => pools.liveNodes pool * pool.nodeBytes

/-- Bytes of all the room obtained, in use or not. -/
def allocatedBytes (pools : Pools) : Nat :=
  PoolId.total fun pool => (pools.slab pool).capacity * pool.nodeBytes

end Pools
end AdaptiveRadix
