import AdaptiveRadix.Pool.Basic
import AdaptiveRadix.Pool.Demand

namespace AdaptiveRadix

/-!
# Reservations

Room for a whole demand is made before any node is taken.  Two things can stop it.
A byte limit refuses a demand that would not fit beside the nodes in use; the nodes
that an operation gives back on the way are not credited.  The system can refuse a
request for room: every pool that has to grow makes one request, in the order of
`PoolId.all`, and the pools that grew before the refused request keep their room.
In neither case is a node taken.
-/

/-- A demand that could not be met. -/
structure OutOfMemory where
  requested : Nat
  available : Nat
deriving DecidableEq, Repr

namespace OutOfMemory

def message (shortage : OutOfMemory) : String :=
  s!"Allocator is out of memory! (requested {shortage.requested} bytes, {shortage.available} available)"

end OutOfMemory

/-- How many requests for room the system grants, or `none` for as many as come. -/
abbrev Allowance := Option Nat

/-- The outcome of asking for room. -/
inductive Reservation where
  | granted (pools : Pools)
  | overLimit (shortage : OutOfMemory) (limit : Nat)
  | refused (pools : Pools) (shortage : OutOfMemory)

namespace Pools

/-- Make room in one pool. -/
def grown (pools : Pools) (pool : PoolId) (wanted : Nat) : Pools :=
  ⟨pools.slabs.modify pool fun slab => slab.grown wanted pool.leastCapacity⟩

/-- Make room in each pool in turn.  The flag says whether every request was granted. -/
def grownFor (demand : Demand) : List PoolId -> Allowance -> Pools -> Pools × Bool
  | [], _, pools => (pools, true)
  | pool :: rest, allowance, pools =>
      if (pools.slab pool).mustGrow (demand.count pool) then
        if allowance = some 0 then (pools, false)
        else grownFor demand rest (allowance.map (· - 1)) (pools.grown pool (demand.count pool))
      else grownFor demand rest allowance pools

/-- Bytes that a limit leaves beside the nodes in use. -/
def available (pools : Pools) (limit : Nat) : Nat :=
  limit - pools.liveBytes

/-- Make room for a demand.  The limit is looked at first and costs no request. -/
def reserve (pools : Pools) (limit? : Option Nat) (allowance : Allowance) (demand : Demand) :
    Reservation :=
  if demand.isNone then .granted pools
  else
    match limit?.filter fun limit => pools.available limit < demand.bytes with
    | some limit => .overLimit ⟨demand.bytes, pools.available limit⟩ limit
    | none =>
        match pools.grownFor demand PoolId.all.toList allowance with
        | (roomier, true) => .granted roomier
        | (roomier, false) =>
            .refused roomier ⟨demand.bytes, (limit?.map pools.available).getD 0⟩

end Pools
end AdaptiveRadix
