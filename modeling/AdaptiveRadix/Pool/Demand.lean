import AdaptiveRadix.Pool.Handle

namespace AdaptiveRadix

/-!
# Demands

How many nodes of each pool an operation is about to take.  A demand is worked out
before anything is taken, so that the room for all of it can be asked for at once.
-/

/-- A number of nodes for each pool. -/
@[ext]
structure Demand where
  wanted : PerPool Nat
deriving DecidableEq, Repr

namespace Demand

def none : Demand :=
  ⟨PerPool.tabulate fun _ => 0⟩

def count (demand : Demand) (pool : PoolId) : Nat :=
  demand.wanted.get pool

/-- Ask for `nodes` more of one pool. -/
def add (demand : Demand) (pool : PoolId) (nodes : Nat) : Demand :=
  ⟨demand.wanted.modify pool (· + nodes)⟩

/-- A fresh path whose top is at `level`: a leaf and an inner node for each level
above it, all of the smallest class. -/
def chain (level : Nat) : Demand :=
  (none.add ⟨.inner, .c1⟩ level).add ⟨.leaf, .c1⟩ 1

/-- What adding an entry to a node takes: a node of the next class if it is full. -/
def growth (demand : Demand) (family : Family) (sizeClass : SizeClass) (full : Bool) : Demand :=
  match full, sizeClass.next? with
  | true, some larger => demand.add ⟨family, larger⟩ 1
  | _, _ => demand

/-- What raising the root from `low` to `high` for a key takes.  The wrappers are of
the smallest class; the topmost then takes the key's path as its second entry, which
moves it to the next class. -/
def raise (low high : Nat) : Demand :=
  ((chain (high - 1)).add ⟨.inner, .c1⟩ (high - low)).add ⟨.inner, .c4⟩ 1

def isNone (demand : Demand) : Bool :=
  PoolId.all.all fun pool => demand.count pool == 0

def bytes (demand : Demand) : Nat :=
  PoolId.total fun pool => demand.count pool * pool.nodeBytes

end Demand
end AdaptiveRadix
