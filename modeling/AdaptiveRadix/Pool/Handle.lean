import AdaptiveRadix.Key
import AdaptiveRadix.SizeClass

namespace AdaptiveRadix

/-!
# Pools, handles and anchors

Every family and size class has a pool of its own, twelve in all.  A handle names a
node by its pool and its slot there, and is good exactly as long as the node is
neither freed nor moved to another class.  What a pool keeps for a slot in use is
its anchor: the edge that leads to the node.
-/

/-- One of the twelve pools. -/
structure PoolId where
  family : Family
  sizeClass : SizeClass
deriving DecidableEq, Repr

namespace PoolId

/-- All pools, in the order in which room is asked for. -/
def all : Vector PoolId 12 :=
  #v[⟨.inner, .c1⟩, ⟨.inner, .c4⟩, ⟨.inner, .c16⟩, ⟨.inner, .c32⟩, ⟨.inner, .c128⟩, ⟨.inner, .c256⟩,
    ⟨.leaf, .c1⟩, ⟨.leaf, .c4⟩, ⟨.leaf, .c16⟩, ⟨.leaf, .c32⟩, ⟨.leaf, .c128⟩, ⟨.leaf, .c256⟩]

/-- Position of a pool in that order. -/
def index (pool : PoolId) : Fin 12 :=
  match pool.family with
  | .inner => pool.sizeClass.index.castAdd 6
  | .leaf => pool.sizeClass.index.natAdd 6

theorem all_index (pool : PoolId) : all[pool.index] = pool := by
  rcases pool with ⟨family, sizeClass⟩
  cases family <;> cases sizeClass <;> rfl

theorem index_injective {first second : PoolId} (same : first.index = second.index) :
    first = second :=
  (all_index first).symm.trans
    ((congrArg (fun place : Fin 12 => all[place]) same).trans (all_index second))

/-- Bytes of one node: a header of 12, eight for each child or value, and the arrays
that lead to them.  Values start at multiples of eight and children at multiples of
four, which makes the smaller leaves larger than the inner nodes of their class. -/
def nodeBytes (pool : PoolId) : Nat :=
  match pool.family, pool.sizeClass with
  | .inner, .c1 => 24
  | .inner, .c4 => 48
  | .inner, .c16 => 156
  | .inner, .c32 => 300
  | .leaf, .c1 => 32
  | .leaf, .c4 => 56
  | .leaf, .c16 => 160
  | .leaf, .c32 => 304
  | _, .c128 => 1312
  | _, .c256 => 2096

/-- The room a pool has after it first grows: a few slots at once for small nodes,
no more than asked for when nodes are larger than a kibibyte. -/
def leastCapacity (pool : PoolId) : Nat :=
  if pool.nodeBytes ≤ 1024 then 4 else 1

/-- The sum of a measure over all pools. -/
def total (measure : PoolId -> Nat) : Nat :=
  all.toList.foldr (fun pool sum => measure pool + sum) 0

end PoolId

/-- The name of a node: its pool and its slot there. -/
structure Handle where
  pool : PoolId
  slot : Nat
deriving DecidableEq, Repr

namespace Handle

/-- The text form: family, capacity and slot. -/
def label (handle : Handle) : String :=
  s!"{handle.pool.family.label}/{handle.pool.sizeClass.capacity}#{handle.slot}"

end Handle

/-- The edge that leads to a node: the parent, unless the node is the root, and the
chunk under which the parent holds it. -/
structure Anchor where
  parent? : Option Handle
  chunk : Chunk
deriving DecidableEq, Repr

namespace Anchor

/-- The anchor of a node that no other node holds. -/
def root : Anchor :=
  ⟨none, 0⟩

end Anchor

/-- One item for each pool. -/
@[ext]
structure PerPool (α : Type) where
  items : Vector α 12
deriving DecidableEq, Repr

namespace PerPool

variable {α : Type}

/-- The table whose items a function gives. -/
def tabulate (item : PoolId -> α) : PerPool α :=
  ⟨PoolId.all.map item⟩

def get (table : PerPool α) (pool : PoolId) : α :=
  table.items[pool.index]

def set (table : PerPool α) (pool : PoolId) (item : α) : PerPool α :=
  ⟨table.items.set pool.index item⟩

def modify (table : PerPool α) (pool : PoolId) (change : α -> α) : PerPool α :=
  table.set pool (change (table.get pool))

theorem get_tabulate (item : PoolId -> α) (pool : PoolId) : (tabulate item).get pool = item pool := by
  have found := PoolId.all_index pool
  simp only [tabulate, get, Fin.getElem_fin, Vector.getElem_map] at found ⊢
  rw [found]

theorem get_set_self (table : PerPool α) (pool : PoolId) (item : α) :
    (table.set pool item).get pool = item := by
  simp only [set, get, Fin.getElem_fin, Vector.getElem_set_self]

theorem get_set_of_ne (table : PerPool α) {pool other : PoolId} (item : α)
    (different : pool ≠ other) : (table.set pool item).get other = table.get other := by
  have apart : pool.index.val ≠ other.index.val := fun same =>
    different (PoolId.index_injective (Fin.ext same))
  simp only [set, get, Fin.getElem_fin, Vector.getElem_set_ne _ _ apart]

end PerPool
end AdaptiveRadix
