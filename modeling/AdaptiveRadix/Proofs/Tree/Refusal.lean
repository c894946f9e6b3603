import AdaptiveRadix.Proofs.Pool.Moves
import AdaptiveRadix.Proofs.Tree.Run
import AdaptiveRadix.Tree.Dump

namespace AdaptiveRadix
namespace Tree

/-!
# Refused insertions

An insertion looks and asks before it changes anything.  When the limit or the system
stands in its way, the tree is left with the nodes, the keys and the slots that it had;
all that may differ is the room of pools that were granted some before the refusal.
-/

/-- A tree that is left as it was in everything but room. -/
structure Untouched (before after : Tree) : Prop where
  root? : after.root? = before.root?
  ceiling : after.ceiling = before.ceiling
  size : after.size = before.size
  limit? : after.limit? = before.limit?
  /-- The slots in use with their anchors, and the links of those that wait. -/
  slots : forall pool, (after.pools.slab pool).slots = (before.pools.slab pool).slots
  firstFree? : forall pool, (after.pools.slab pool).firstFree? = (before.pools.slab pool).firstFree?
  live : forall pool, after.pools.liveNodes pool = before.pools.liveNodes pool
  capacity : forall pool, (before.pools.slab pool).capacity ≤ (after.pools.slab pool).capacity
  height : after.height = before.height
  toList : after.toList = before.toList
  dump : after.dump = before.dump
  liveBytes : after.liveBytes = before.liveBytes
  /-- Whatever is done with the pools later, the same slots are handed out. -/
  handedOut : forall moves, after.pools.handedOut moves = before.pools.handedOut moves

variable {tree : Tree} {pools : Pools}

private theorem line_roomier {before after : Pools} (gained : before.Roomier after) (visit : Visit) :
    visit.line after = visit.line before := by
  cases visit with
  | node depth handle level count partialKey => simp only [Visit.line, gained.anchor?]
  | child | value => simp only [Visit.line]

private theorem dumpLines_roomier (gained : tree.pools.Roomier pools) :
    ({ tree with pools := pools } : Tree).dumpLines = tree.dumpLines := by
  have lines : tree.visits.map (Visit.line pools) = tree.visits.map (Visit.line tree.pools) :=
    List.map_congr_left fun visit _ => line_roomier gained visit
  exact congrArg (tree.headline :: ·) lines

private theorem dump_roomier (gained : tree.pools.Roomier pools) :
    ({ tree with pools := pools } : Tree).dump = tree.dump := by
  rw [dump, dumpLines_roomier gained, dump]

/-- Room alone touches nothing of a tree. -/
theorem untouched_of_roomier (gained : tree.pools.Roomier pools) :
    Untouched tree { tree with pools := pools } where
  root? := rfl
  ceiling := rfl
  size := rfl
  limit? := rfl
  slots pool := (gained pool).slots
  firstFree? pool := (gained pool).firstFree?
  live := gained.liveNodes
  capacity pool := (gained pool).capacity
  height := rfl
  toList := rfl
  dump := dump_roomier gained
  liveBytes := gained.liveBytes
  handedOut := gained.handedOut

/-- A failed insertion leaves the tree as it was, all the more so when the limit stood in
its way; and its error says what was asked for and what the limit had left. -/
theorem untouched_of_error {allowance : Allowance} {key : Key} {value : UInt64}
    {shortage : OutOfMemory}
    (failed : (tree.insertWithin allowance key value).result = .error shortage) :
    Untouched tree (tree.insertWithin allowance key value).state ∧
      ((∃ limit ∈ tree.limit?, limit - tree.liveBytes < (tree.placement key).demand.bytes) ->
        (tree.insertWithin allowance key value).state = tree) ∧
      shortage.requested = (tree.placement key).demand.bytes ∧
      shortage.available = (tree.limit?.map fun limit => limit - tree.liveBytes).getD 0 := by
  have inserted := Tree.inserted tree allowance key value
  generalize tree.insertWithin allowance key value = outcome at failed inserted ⊢
  cases inserted with
  | rebound => cases failed
  | bound => cases failed
  | overLimit missed limited excess =>
      rw [← Except.error.inj failed]
      refine ⟨untouched_of_roomier (Pools.Roomier.refl tree.pools), fun _ => rfl, rfl, ?_⟩
      rw [limited]
      rfl
  | refused missed gained under =>
      rw [← Except.error.inj failed]
      refine ⟨untouched_of_roomier gained, ?_, rfl, rfl⟩
      intro excess
      rcases excess with ⟨limit, limited, much⟩
      exact absurd much (under limit limited)

/-- A full inner node above four leaves, in the only slots of their pool, with the node that it
grew out of freed. -/
def fullBranch (limit? : Option Nat) : Tree :=
  (empty limit?).after
    [.insert 0 10 none, .insert 256 20 none, .insert 512 30 none, .insert 768 40 none]

/-- A fifth leaf asks for a larger node and for more room among the leaves.  A limit refuses
both at once; the system may grant the first and refuse the second, and one pool has grown. -/
theorem untouched_fifth_leaf :
    (((fullBranch (some 300)).insertWithin none 1024 7).result = .error ⟨188, 124⟩ ∧
      (∃ limit ∈ (fullBranch (some 300)).limit?, limit - (fullBranch (some 300)).liveBytes <
        ((fullBranch (some 300)).placement 1024).demand.bytes) ∧
      ((fullBranch (some 300)).insertWithin none 1024 7).state = fullBranch (some 300)) ∧
    ((fullBranch none).insertWithin (some 1) 1024 7).result = .error ⟨188, 0⟩ ∧
      ((fullBranch none).insertWithin (some 1) 1024 7).state.pools.allocatedBytes =
        (fullBranch none).pools.allocatedBytes + 4 * PoolId.nodeBytes ⟨.inner, .c16⟩ ∧
      Untouched (fullBranch none) ((fullBranch none).insertWithin (some 1) 1024 7).state := by
  have limited : ((fullBranch (some 300)).insertWithin none 1024 7).result = .error ⟨188, 124⟩ := by
    decide +kernel
  have excess : ∃ limit ∈ (fullBranch (some 300)).limit?,
      limit - (fullBranch (some 300)).liveBytes <
        ((fullBranch (some 300)).placement 1024).demand.bytes :=
    ⟨300, by decide +kernel, by decide +kernel⟩
  have failed : ((fullBranch none).insertWithin (some 1) 1024 7).result = .error ⟨188, 0⟩ := by
    decide +kernel
  have gained : ((fullBranch none).insertWithin (some 1) 1024 7).state.pools.allocatedBytes =
      (fullBranch none).pools.allocatedBytes + 4 * PoolId.nodeBytes ⟨.inner, .c16⟩ := by
    decide +kernel
  exact ⟨⟨limited, excess, (untouched_of_error limited).2.1 excess⟩, failed, gained,
    (untouched_of_error failed).1⟩

end Tree
end AdaptiveRadix
