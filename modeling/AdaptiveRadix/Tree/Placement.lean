import AdaptiveRadix.Pool.Demand

namespace AdaptiveRadix

/-!
# Placements

An insertion begins with a descent that only reads.  What it finds at the end of the
key's path decides how many nodes the insertion takes, so the whole demand is known
before anything is asked for.
-/

/-- What an insertion finds.  `gap` carries the node at which the descent ended, by
what decides its growth; `above` the level of the root and the one the key wants. -/
inductive Placement where
  | present
  | gap (level : Nat) (sizeClass : SizeClass) (full : Bool)
  | above (low high : Nat)
  | first (level : Nat)
deriving DecidableEq, Repr

namespace Placement

/-- The nodes that an insertion takes. -/
def demand : Placement -> Demand
  | present => Demand.none
  | gap 0 sizeClass full => Demand.none.growth .leaf sizeClass full
  | gap (level + 1) sizeClass full => (Demand.chain level).growth .inner sizeClass full
  | above low high => Demand.raise low high
  | first level => Demand.chain level

end Placement

end AdaptiveRadix
