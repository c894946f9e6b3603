import AdaptiveRadix.Proofs.Dump.Printed
import AdaptiveRadix.Proofs.Pool.Filling
import AdaptiveRadix.Proofs.Tree.Retry

namespace AdaptiveRadix

/-!
# How far the pools of a tree fill up

An addition builds its path first, then moves the node that has to grow; that node goes back
to a pool from which nothing more is taken.  So a pool has handed out as many slots as were
ever in use and demanded at a time, whatever was removed and added again in between.
-/

namespace Subtree

variable {level : Nat} {key : Key}

/-- The node that is given back and the node that is taken are of different classes. -/
theorem takesFirst_roomMoves {α : Type} [Inhabited α] (node : Node α) (level : Nat)
    (child? : α -> Option Handle) (pools : Pools) (pool : PoolId) :
    Pools.TakesFirst pool (node.roomMoves level child? pools) := by
  by_cases released : pool ∈ Pools.releases (node.roomMoves level child? pools)
  · apply Pools.takesFirst_of_taken_zero
    rw [releases_roomMoves, Option.mem_toList] at released
    rw [taken_roomMoves]
    cases full : node.isFull with
    | false => exact Demand.count_none pool
    | true =>
        cases next : node.sizeClass.next? with
        | none => simp only [Demand.growth, next, Demand.count_none]
        | some larger =>
            have more := SizeClass.capacity_lt_of_next? next
            simp only [Placement.outgrown?, full, next] at released
            cases Option.some.inj released
            have apart : (⟨Family.ofLevel level, larger⟩ : PoolId) ≠
                ⟨Family.ofLevel level, node.sizeClass⟩ := fun same =>
              more.ne (congrArg (SizeClass.capacity ∘ PoolId.sizeClass) same).symm
            simp only [Demand.growth, next, Demand.count_add, Demand.count_none, if_neg apart]
  · exact Pools.takesFirst_of_not_mem released

theorem takesFirst_insertMoves (subtree : Subtree level) (key : Key) (value : UInt64)
    (ledger : Ledger) (pool : PoolId) :
    Pools.TakesFirst pool (subtree.insertMoves key value ledger) := by
  induction subtree using byLevel generalizing ledger with
  | leaf leaf => exact takesFirst_roomMoves leaf 0 (fun _ => none) ledger.pools pool
  | @node level node inductionHypothesis =>
      cases held : node.get? (key.chunk (level + 1)) with
      | some child =>
          rw [insertMoves_of_child held]
          exact inductionHypothesis child ledger
      | none =>
          have kept : pool ∉ Pools.releases (chainMoves key value ledger.pools level) := by
            rw [releases_chainMoves]
            exact List.not_mem_nil
          rw [insertMoves_of_gap held]
          exact Pools.TakesFirst.append_of_taken_zero
            (Pools.TakesFirst.append_of_not_mem kept (takesFirst_roomMoves node _ _ _ pool)) rfl

end Subtree

/-- A key was added. -/
def Answer.isAddition : Answer -> Bool
  | inserted (.ok false) => true
  | _ => false

namespace Tree

variable {tree : Tree} {request : Request} {pool : PoolId} {key : Key}

theorem takesFirst_addedMoves (tree : Tree) (key : Key) (value : UInt64) (pool : PoolId) :
    Pools.TakesFirst pool (tree.addedMoves key value) := by
  cases held : tree.root? with
  | none =>
      apply Pools.takesFirst_of_not_mem
      rw [addedMoves_of_none held, Subtree.releases_chainMoves]
      exact List.not_mem_nil
  | some root =>
      rw [addedMoves_of_root held]
      apply Pools.TakesFirst.append_of_not_mem
      · rw [releases_raisingMoves]
        exact List.not_mem_nil
      · exact Subtree.takesFirst_insertMoves _ key value _ pool

/-- No request gives a node back to a pool from which it takes another later. -/
theorem takesFirst_moves (tree : Tree) (request : Request) (pool : PoolId) :
    Pools.TakesFirst pool (tree.moves request) := by
  cases spending tree request with
  | none nothing => exact Pools.takesFirst_of_taken_zero (nothing pool)
  | @granted key value allowance pools missed reserved moves =>
      rw [moves]
      apply Pools.TakesFirst.append_of_not_mem
      · rw [Pools.releases_reserveMoves]
        exact List.not_mem_nil
      · exact takesFirst_addedMoves _ key value pool

/-- The nodes of a pool that a request demands, if it adds a key. -/
def demanded (tree : Tree) (request : Request) (pool : PoolId) : Nat :=
  match request with
  | .insert key _ _ =>
      if (tree.perform request).2.isAddition then (tree.placement key).demand.count pool else 0
  | _ => 0

private theorem taken_moves_insert (sound : tree.Sound) (key : Key) (value : UInt64)
    (allowance : Allowance) (pool : PoolId) :
    Pools.taken (tree.moves (.insert key value allowance)) pool =
      tree.demanded (.insert key value allowance) pool := by
  rw [demanded, perform, insertWithin]
  by_cases present : tree.placement key = .present
  · rw [moves, if_pos present, if_pos present]
    rfl
  · have missed := placement_ne_present_iff.mp present
    have outcome := Pools.reserved tree.pools tree.limit? allowance (tree.placement key).demand
    rw [if_neg present]
    cases reserved : tree.pools.reserve tree.limit? allowance (tree.placement key).demand with
    | granted pools =>
        rw [reserved] at outcome
        rcases outcome with ⟨gained, _, _⟩
        apply congrFun (taken_granted sound missed gained _) pool
        rw [moves, if_neg present, reserved]
    | overLimit | refused =>
        rw [moves, if_neg present, reserved, List.append_nil]
        exact Pools.taken_reserveMoves _ _ _ _ pool

/-- What a request takes is what it demands if it adds a key, and nothing otherwise. -/
theorem taken_moves (sound : tree.Sound) (request : Request) (pool : PoolId) :
    Pools.taken (tree.moves request) pool = tree.demanded request pool := by
  cases request with
  | insert key value allowance => exact taken_moves_insert sound key value allowance pool
  | erase key =>
      rw [moves]
      split
      · exact Subtree.taken_eraseMoves _ key tree.pools pool
      · rfl
  | update | lookup | size | isEmpty | forEach | toList => rfl

/-- What a pool has handed out after a request is the most that was in use at a time. -/
theorem size_perform (sound : tree.Sound) (request : Request) (pool : PoolId) :
    ((tree.perform request).1.pools.slab pool).size =
      max (tree.pools.slab pool).size ((tree.pools.slab pool).live + tree.demanded request pool) := by
  rw [← performAll_moves, ← taken_moves sound]
  exact Pools.size_performAll sound.inventory.sound (takesFirst_moves tree request pool)

/-- Room made for an addition is made in the pools that have to grow. -/
private theorem capacity_roomyFor (solvent : tree.Solvent) (key : Key) (pool : PoolId) :
    ((tree.roomyFor key).pools.slab pool).capacity =
      Slab.roomAfter (tree.pools.slab pool).capacity
        ((tree.pools.slab pool).live + (tree.placement key).demand.count pool)
        pool.leastCapacity := by
  have slab := solvent.sound.inventory.sound pool
  have opened := solvent.opened pool
  have short := Slab.mustGrow_iff slab opened ((tree.placement key).demand.count pool)
  rw [pools_roomyFor, Slab.roomAfter]
  by_cases grows : (tree.pools.slab pool).mustGrow ((tree.placement key).demand.count pool) = true
  · have listed : pool ∈ tree.growing key := Pools.mem_growing.mpr ⟨Pools.mem_all pool, grows⟩
    have distinct : (tree.growing key).Nodup := List.Nodup.filter _ Pools.nodup_all
    rw [Pools.slab_grownAll_of_mem distinct listed, Slab.capacity_grown slab opened grows,
      if_pos (short.mp grows)]
  · have absent : pool ∉ tree.growing key := fun listed => grows (Pools.mem_growing.mp listed).2
    rw [Pools.slab_grownAll_of_not_mem absent, if_neg (mt short.mpr grows)]

/-- Where nothing is demanded, no room is made. -/
private theorem roomAfter_live (solvent : tree.Solvent) (pool : PoolId) :
    Slab.roomAfter (tree.pools.slab pool).capacity ((tree.pools.slab pool).live + 0)
      pool.leastCapacity = (tree.pools.slab pool).capacity :=
  if_neg (Nat.not_lt.mpr
    ((Slab.live_le_size (solvent.sound.inventory.sound pool)).trans (solvent.opened pool)))

/-- The room of a pool after a request that the system does not refuse. -/
theorem capacity_perform (solvent : tree.Solvent) (granted : request.Granted) (pool : PoolId) :
    ((tree.perform request).1.pools.slab pool).capacity =
      Slab.roomAfter (tree.pools.slab pool).capacity
        ((tree.pools.slab pool).live + tree.demanded request pool) pool.leastCapacity := by
  have idle := (roomAfter_live solvent pool).symm
  cases request with
  | insert key value allowance =>
      cases granted
      have answer : tree.perform (.insert key value none) =
        ((tree.insert key value).state, .inserted (tree.insert key value).result) := rfl
      rw [demanded, answer]
      cases settled tree key value with
      | present found does | excess missed limited excess does =>
          rw [does]
          exact idle
      | fits missed fits does =>
          rw [does]
          exact (capacity_added _ key value pool).trans (capacity_roomyFor solvent key pool)
  | erase key => exact ((givenBack_erase tree key).capacity pool).trans idle
  | update key value =>
      rw [perform, update]
      cases tree.get? key <;> exact idle
  | lookup | size | isEmpty | forEach | toList => exact idle

/-- The most nodes of a pool that were in use and demanded at a time, over all requests that
add a key and demand some. -/
def peakDemand (tree : Tree) (pool : PoolId) : List Request -> Nat
  | [] => 0
  | request :: rest =>
      max (if 0 < tree.demanded request pool then
          tree.pools.liveNodes pool + tree.demanded request pool
        else 0)
        ((tree.perform request).1.peakDemand pool rest)

/-- A run fills a pool up to the peak of its demand. -/
theorem peak_after (solvent : tree.Solvent) {requests : List Request}
    (granted : ∀ request ∈ requests, request.Granted) (pool : PoolId)
    (bounded : (tree.pools.slab pool).capacity ≤
      Slab.roomBy (tree.pools.slab pool).size pool.leastCapacity) :
    ((tree.after requests).pools.slab pool).size =
        max (tree.pools.slab pool).size (tree.peakDemand pool requests) ∧
      ((tree.after requests).pools.slab pool).capacity ≤
        Slab.roomBy ((tree.after requests).pools.slab pool).size pool.leastCapacity := by
  induction requests generalizing tree with
  | nil => exact ⟨(Nat.max_zero _).symm, bounded⟩
  | cons request rest inductionHypothesis =>
      rcases List.forall_mem_cons.mp granted with ⟨first, others⟩
      have used := Slab.live_le_size (solvent.sound.inventory.sound pool)
      have size := size_perform solvent.sound request pool
      have room := capacity_perform solvent first pool
      have bounded : ((tree.perform request).1.pools.slab pool).capacity ≤
          Slab.roomBy ((tree.perform request).1.pools.slab pool).size pool.leastCapacity := by
        rw [size, capacity_perform solvent first pool]
        exact Slab.roomAfter_le_roomBy bounded _
      rcases inductionHypothesis (solvent_perform solvent request) others bounded with ⟨later, room⟩
      refine ⟨?_, room⟩
      -- What is in use fits into what was handed out, so a request without a demand adds nothing.
      have next : ((tree.after (request :: rest)).pools.slab pool).size = _ := later
      rw [next, size, peakDemand, Pools.liveNodes]
      split <;> omega

/-- What holds of what a pool has handed out and of its room, after a run with a peak of demand. -/
structure Filled (tree : Tree) (pool : PoolId) (peak : Nat) : Prop where
  /-- An addition opens the slots that its demand needs beside the nodes in use, and makes room
  where there is too little. -/
  added : forall key value, (tree.insert key value).result = .ok false ->
    let occupied := tree.pools.liveNodes pool + (tree.placement key).demand.count pool
    ((tree.insert key value).state.pools.slab pool).size =
        max (tree.pools.slab pool).size occupied ∧
      ((tree.insert key value).state.pools.slab pool).capacity =
        Slab.roomAfter (tree.pools.slab pool).capacity occupied pool.leastCapacity
  /-- All else opens no slots and makes no room. -/
  idle : forall request, request.Granted -> (tree.perform request).2.isAddition = false ->
    ((tree.perform request).1.pools.slab pool).size = (tree.pools.slab pool).size ∧
      ((tree.perform request).1.pools.slab pool).capacity = (tree.pools.slab pool).capacity
  /-- Room is kept. -/
  kept : forall request, request.Granted ->
    (tree.pools.slab pool).capacity ≤ ((tree.perform request).1.pools.slab pool).capacity
  ordered : tree.pools.liveNodes pool ≤ (tree.pools.slab pool).size ∧
    (tree.pools.slab pool).size ≤ (tree.pools.slab pool).capacity
  size : (tree.pools.slab pool).size = peak
  room : (tree.pools.slab pool).capacity ≤ if peak = 0 then 0 else max pool.leastCapacity (2 * peak)
  /-- A dump prints the handles of slots that were handed out. -/
  printed : ∀ lines ∈ Line.readAll? tree.dump, ∀ handle ∈ lines.filterMap Line.child?,
    handle.pool = pool -> handle.slot < peak

theorem demanded_of_added {value : UInt64} (added : (tree.insert key value).result = .ok false)
    (pool : PoolId) :
    tree.demanded (.insert key value none) pool = (tree.placement key).demand.count pool := by
  have answer : (tree.perform (.insert key value none)).2 = .inserted (.ok false) :=
    congrArg Answer.inserted added
  rw [demanded, answer]
  rfl

theorem demanded_of_idle (idle : (tree.perform request).2.isAddition = false) (pool : PoolId) :
    tree.demanded request pool = 0 := by
  cases request with
  | insert key value allowance =>
      rw [demanded, idle]
      rfl
  | update | erase | lookup | size | isEmpty | forEach | toList => rfl

/-- A node in use is in a slot that was handed out, and the dump prints no others. -/
theorem slot_lt_size_of_printed (sound : tree.Sound) :
    ∀ lines ∈ Line.readAll? tree.dump, ∀ handle ∈ lines.filterMap Line.child?,
      handle.slot < (tree.pools.slab handle.pool).size := by
  intro lines read handle printed
  rw [Line.readAll?_dump] at read
  cases Option.some.inj read
  rcases (sound.shown.complete handle).mp printed with ⟨parent, chunk, used⟩
  exact Pools.slot_lt_size used

/-- A solvent tree has all this of every pool whose size and room are accounted for. -/
theorem Solvent.filled (solvent : tree.Solvent) {peak : Nat}
    (size : (tree.pools.slab pool).size = peak)
    (room : (tree.pools.slab pool).capacity ≤ Slab.roomBy peak pool.leastCapacity) :
    tree.Filled pool peak where
  added key value added := by
    have demanded := demanded_of_added added pool
    have opened := size_perform solvent.sound (.insert key value none) pool
    have granted : (Request.insert key value none).Granted := rfl
    have made := capacity_perform solvent granted pool
    rw [demanded] at opened made
    exact ⟨opened, made⟩
  idle request granted idle := by
    have used := Slab.live_le_size (solvent.sound.inventory.sound pool)
    rw [size_perform solvent.sound, capacity_perform solvent granted, demanded_of_idle idle]
    exact ⟨Nat.max_eq_left used, roomAfter_live solvent pool⟩
  kept request granted := by
    rw [capacity_perform solvent granted]
    exact Slab.capacity_le_roomAfter _ _ _
  ordered := ⟨Slab.live_le_size (solvent.sound.inventory.sound pool), solvent.opened pool⟩
  size := size
  room := room
  printed := by
    rintro lines read handle listed rfl
    rw [← size]
    exact slot_lt_size_of_printed solvent.sound lines read handle listed

/-- After every run of a new tree in which the system grants all room, every pool is filled up to
the peak of its demand. -/
theorem filled_after (limit? : Option Nat) {requests : List Request}
    (granted : ∀ request ∈ requests, request.Granted) (pool : PoolId) :
    ((empty limit?).after requests).Filled pool ((empty limit?).peakDemand pool requests) := by
  have solvent := solvent_empty limit?
  have nothing : ((empty limit?).pools.slab pool) = Slab.empty := Pools.slab_empty pool
  have start : ((empty limit?).pools.slab pool).capacity ≤
      Slab.roomBy ((empty limit?).pools.slab pool).size pool.leastCapacity := by
    rw [nothing]
    exact Nat.zero_le _
  rcases peak_after solvent granted pool start with ⟨size, room⟩
  have none : (Slab.empty : Slab Anchor).size = 0 := rfl
  rw [nothing, none, Nat.zero_max] at size
  rw [size] at room
  exact (solvent_after solvent requests).filled size room

/-- A key that is removed and added again finds the slot that its leaf left. -/
theorem filled_after_return :
    (∀ request ∈ [Request.insert 5 7 none, .insert 300 1 none, .erase 5, .insert 5 9 none],
      request.Granted) ∧
    ((empty none).after [.insert 5 7 none, .insert 300 1 none, .erase 5, .insert 5 9 none]).Filled
      ⟨.leaf, .c1⟩ 2 := by
  have granted : ∀ request ∈ [Request.insert 5 7 none, .insert 300 1 none, .erase 5,
      .insert 5 9 none], request.Granted := by
    simp [Request.Granted]
  have peak : (empty none).peakDemand ⟨.leaf, .c1⟩ [.insert 5 7 none, .insert 300 1 none, .erase 5,
      .insert 5 9 none] = 2 := by
    decide +kernel
  exact ⟨granted, peak ▸ filled_after none granted ⟨.leaf, .c1⟩⟩

end Tree
end AdaptiveRadix
