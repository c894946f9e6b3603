import AdaptiveRadix.Proofs.Tree.Run

namespace AdaptiveRadix

/-!
# Requests that the system does not refuse

While the system grants every request for room, only a byte limit can stand in the way
of an insertion.  What an insertion then does is one of three equations: the key is
there and gets its value in place, its demand passes the limit and nothing happens, or
it is added in pools that depend on the demand alone and not on the limit.
-/

/-- The system grants all the room that comes to be asked for. -/
def Request.Granted : Request -> Prop
  | .insert _ _ allowance => allowance = none
  | _ => True

namespace Answer

/-- An insertion that was not carried out. -/
def isRefusal : Answer -> Bool
  | inserted (.error _) => true
  | _ => false

end Answer

namespace Pools

/-- The pools once every pool has grown that has to. -/
def roomFor (pools : Pools) (demand : Demand) : Pools :=
  (pools.grownFor demand PoolId.all.toList none).1

theorem roomier_roomFor (pools : Pools) (demand : Demand) : Roomier pools (pools.roomFor demand) :=
  roomier_grownFor demand _ none pools

private theorem grownFor_granted (demand : Demand) (order : List PoolId) (pools : Pools) :
    pools.grownFor demand order none = ((pools.grownFor demand order none).1, true) := by
  induction order generalizing pools with
  | nil => rfl
  | cons pool rest inductionHypothesis =>
      rw [grownFor]
      split
      · rw [if_neg (by simp), Option.map_none]
        exact inductionHypothesis _
      · exact inductionHypothesis pools

/-- A pool has room for no more nodes than it has. -/
private theorem grownFor_of_zero {demand : Demand} (nothing : forall pool, demand.count pool = 0)
    (order : List PoolId) (allowance : Allowance) (pools : Pools) :
    pools.grownFor demand order allowance = (pools, true) := by
  induction order with
  | nil => rfl
  | cons pool rest inductionHypothesis =>
      have enough : (pools.slab pool).mustGrow (demand.count pool) = false := by
        rw [nothing]
        apply decide_eq_false
        simp [Slab.shortfall]
      rw [grownFor, enough, if_neg Bool.false_ne_true]
      exact inductionHypothesis

/-- A demand that the limit admits is met. -/
theorem reserve_of_fits {pools : Pools} {limit? : Option Nat} {demand : Demand}
    (fits : ∀ limit ∈ limit?, ¬ pools.available limit < demand.bytes) :
    pools.reserve limit? none demand = .granted (pools.roomFor demand) := by
  rw [reserve, roomFor]
  by_cases nothing : demand.isNone = true
  · rw [if_pos nothing, grownFor_of_zero ((isNone_iff demand).mp nothing)]
  · have under : (limit?.filter fun limit => pools.available limit < demand.bytes) = none := by
      rw [Option.filter_eq_none_iff]
      intro limit limited
      simpa using fits limit limited
    rw [if_neg nothing, under, grownFor_granted]

/-- A demand that passes the limit is refused before anything is asked for. -/
theorem reserve_of_excess {pools : Pools} {limit : Nat} {allowance : Allowance} {demand : Demand}
    (excess : pools.available limit < demand.bytes) :
    pools.reserve (some limit) allowance demand =
      .overLimit ⟨demand.bytes, pools.available limit⟩ limit := by
  have something : demand.isNone ≠ true := by
    intro nothing
    rw [bytes_of_isNone nothing] at excess
    exact Nat.not_lt_zero _ excess
  have passed : (some limit).filter (fun limit => pools.available limit < demand.bytes) =
      some limit := by
    rw [Option.filter_some, if_pos (decide_eq_true excess)]
  rw [reserve, if_neg something, passed]

end Pools

namespace Tree

variable {tree : Tree} {key : Key}

/-- The tree with room for all that an insertion of the key takes. -/
def roomyFor (tree : Tree) (key : Key) : Tree :=
  { tree with pools := tree.pools.roomFor (tree.placement key).demand }

theorem insert_of_found {old : UInt64} (found : tree.get? key = some old) (value : UInt64) :
    tree.insert key value = ⟨tree.replace key value, .ok true, []⟩ := by
  rw [insert, insertWithin, if_pos ((placement_eq_present_iff tree key).mpr ⟨old, found⟩)]

/-- A key that is absent is added when no limit is passed. -/
theorem insert_of_fits (missed : tree.get? key = none)
    (fits : ∀ limit ∈ tree.limit?, ¬ tree.pools.available limit < (tree.placement key).demand.bytes)
    (value : UInt64) :
    tree.insert key value =
      ⟨((tree.roomyFor key).added key value).1, .ok false, ((tree.roomyFor key).added key value).2⟩ := by
  rw [insert, insertWithin, if_neg (placement_ne_present_iff.mpr missed), Pools.reserve_of_fits fits]
  rfl

theorem insert_of_excess (missed : tree.get? key = none) {limit : Nat}
    (limited : tree.limit? = some limit)
    (excess : tree.pools.available limit < (tree.placement key).demand.bytes) (value : UInt64) :
    tree.insert key value =
      ⟨tree, .error ⟨(tree.placement key).demand.bytes, tree.pools.available limit⟩,
        [.overLimit (tree.placement key).demand.bytes (tree.pools.available limit) limit]⟩ := by
  rw [insert, insertWithin, if_neg (placement_ne_present_iff.mpr missed), limited,
    Pools.reserve_of_excess excess]

/-- The three ways in which an insertion goes while the system grants all room. -/
inductive Settled (tree : Tree) (key : Key) (value : UInt64) : Prop
  | present {old : UInt64} (found : tree.get? key = some old)
      (does : tree.insert key value = ⟨tree.replace key value, .ok true, []⟩)
  | excess {limit : Nat} (missed : tree.get? key = none) (limited : tree.limit? = some limit)
      (excess : tree.pools.available limit < (tree.placement key).demand.bytes)
      (does : tree.insert key value =
        ⟨tree, .error ⟨(tree.placement key).demand.bytes, tree.pools.available limit⟩,
          [.overLimit (tree.placement key).demand.bytes (tree.pools.available limit) limit]⟩)
  | fits (missed : tree.get? key = none)
      (fits : ∀ limit ∈ tree.limit?,
        ¬ tree.pools.available limit < (tree.placement key).demand.bytes)
      (does : tree.insert key value = ⟨((tree.roomyFor key).added key value).1, .ok false,
        ((tree.roomyFor key).added key value).2⟩)

theorem settled (tree : Tree) (key : Key) (value : UInt64) : Settled tree key value := by
  cases found : tree.get? key with
  | some old => exact .present found (insert_of_found found value)
  | none =>
      by_cases excess : ∃ limit ∈ tree.limit?,
          tree.pools.available limit < (tree.placement key).demand.bytes
      · rcases excess with ⟨limit, limited, more⟩
        exact .excess found limited more (insert_of_excess found limited more value)
      · have fits : ∀ limit ∈ tree.limit?,
            ¬ tree.pools.available limit < (tree.placement key).demand.bytes :=
          fun limit limited more => excess ⟨limit, limited, more⟩
        exact .fits found fits (insert_of_fits found fits value)

end Tree
end AdaptiveRadix
