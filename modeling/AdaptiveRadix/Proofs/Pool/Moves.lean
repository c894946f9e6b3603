import AdaptiveRadix.Proofs.Pool.Room

namespace AdaptiveRadix

/-!
# Dealings with the pools, one at a time

An operation on a tree deals with the pools many times, and what is said of it as a
whole does not yet say what the pools go through on the way.  Here each dealing is a
move, an operation is a list of them, and a moment is what a first part of the list
leads to.

The number of nodes in use is bounded by counting: at every moment no more are in use
than there were plus those taken so far.  Where every node given back is in use when
it is given back, the count is exact.
-/

/-- One dealing with the pools. -/
inductive Move where
  | grow (pool : PoolId) (wanted : Nat)
  | take (pool : PoolId)
  | release (handle : Handle)
  | record (handle : Handle) (anchor : Anchor)
  | adopt (parent child : Handle)
deriving DecidableEq, Repr

namespace Move

/-- The node that a move gives back, if it gives one back. -/
def released? : Move -> Option Handle
  | release handle => some handle
  | _ => none

end Move

namespace Pools

def perform (pools : Pools) : Move -> Pools
  | .grow pool wanted => pools.grown pool wanted
  | .take pool => (pools.take pool).2
  | .release handle => pools.release handle
  | .record handle anchor => pools.anchored handle anchor
  | .adopt parent child => pools.adopted parent child

/-- The pools after some moves. -/
def performAll (pools : Pools) (moves : List Move) : Pools :=
  moves.foldl perform pools

/-- The handles that are handed out in the course of some moves. -/
def handedOut (pools : Pools) : List Move -> List Handle
  | [] => []
  | .take pool :: rest => (pools.take pool).1 :: (pools.take pool).2.handedOut rest
  | move :: rest => (pools.perform move).handedOut rest

/-- Every node that is given back is in use at that moment. -/
def Honest (pools : Pools) : List Move -> Prop
  | [] => True
  | move :: rest =>
      (∀ handle ∈ move.released?, ∃ anchor, pools.anchor? handle = some anchor) ∧
        (pools.perform move).Honest rest

theorem performAll_cons (pools : Pools) (move : Move) (rest : List Move) :
    pools.performAll (move :: rest) = (pools.perform move).performAll rest :=
  rfl

theorem performAll_append (pools : Pools) (first rest : List Move) :
    pools.performAll (first ++ rest) = (pools.performAll first).performAll rest :=
  List.foldl_append

theorem honest_append {pools : Pools} {first rest : List Move} :
    pools.Honest (first ++ rest) ↔ pools.Honest first ∧ (pools.performAll first).Honest rest := by
  induction first generalizing pools with
  | nil => exact (and_iff_right trivial).symm
  | cons move moves inductionHypothesis =>
      rw [List.cons_append, Honest, Honest, inductionHypothesis, and_assoc, performAll_cons]

/-- The pools of the nodes that some moves give back, in order. -/
def releases (moves : List Move) : List PoolId :=
  (moves.filterMap Move.released?).map Handle.pool

theorem releases_append (first rest : List Move) :
    releases (first ++ rest) = releases first ++ releases rest := by
  rw [releases, List.filterMap_append, List.map_append, releases, releases]

theorem releases_cons_of_none {move : Move} (released : move.released? = none) (rest : List Move) :
    releases (move :: rest) = releases rest := by
  rw [releases, List.filterMap_cons_none released, releases]

theorem releases_cons_of_some {move : Move} {handle : Handle}
    (released : move.released? = some handle) (rest : List Move) :
    releases (move :: rest) = handle.pool :: releases rest := by
  rw [releases, List.filterMap_cons_some released, List.map_cons, releases]

/-- Moves that give nothing back are honest. -/
theorem honest_of_keeping {moves : List Move} (keeping : releases moves = []) (pools : Pools) :
    pools.Honest moves := by
  induction moves generalizing pools with
  | nil => trivial
  | cons move rest inductionHypothesis =>
      cases released : move.released? with
      | none =>
          rw [releases_cons_of_none released] at keeping
          refine ⟨?_, inductionHypothesis keeping _⟩
          intro handle impossible
          rw [released] at impossible
          cases impossible
      | some handle =>
          rw [releases_cons_of_some released] at keeping
          cases keeping

/-! ## What a move does to one pool -/

/-- The slab of a pool before and after a move. -/
inductive Moved (pool : PoolId) (before : Slab Anchor) : Move -> Slab Anchor -> Prop
  | kept {move : Move} (noTake : move ≠ .take pool)
      (noRelease : ∀ handle ∈ move.released?, handle.pool ≠ pool) : Moved pool before move before
  | grown (wanted least : Nat) : Moved pool before (.grow pool wanted) (before.grown wanted least)
  | taken : Moved pool before (.take pool) (before.take Anchor.root).2
  | released (slot : Nat) : Moved pool before (.release ⟨pool, slot⟩) (before.release slot)
  | assigned {move : Move} (noTake : move ≠ .take pool) (noRelease : move.released? = none)
      (slot : Nat) (anchor : Anchor) : Moved pool before move (before.assign slot anchor)

private theorem moved_anchored (pools : Pools) (handle : Handle) (anchor : Anchor) {move : Move}
    {pool : PoolId} (noTake : move ≠ .take pool) (noRelease : move.released? = none) :
    Moved pool (pools.slab pool) move ((pools.anchored handle anchor).slab pool) := by
  by_cases same : handle.pool = pool
  · subst pool
    rw [slab_anchored_self]
    exact .assigned noTake noRelease handle.slot anchor
  · rw [slab_anchored_of_ne pools anchor same]
    exact .kept noTake fun _ released => absurd released (by simp [noRelease])

theorem moved_perform (pools : Pools) (move : Move) (pool : PoolId) :
    Moved pool (pools.slab pool) move ((pools.perform move).slab pool) := by
  cases move with
  | grow other wanted =>
      by_cases same : other = pool
      · subst other
        rw [perform, slab_grown_self]
        exact .grown wanted pool.leastCapacity
      · rw [perform, slab_grown_of_ne pools wanted same]
        exact .kept (by simp) (by simp [Move.released?])
  | take other =>
      by_cases same : other = pool
      · subst other
        rw [perform, slab_take_self]
        exact .taken
      · rw [perform, slab_take_of_ne pools same]
        exact .kept (by simpa using same) (by simp [Move.released?])
  | release handle =>
      by_cases same : handle.pool = pool
      · subst pool
        rw [perform, slab_release_self]
        exact .released handle.slot
      · rw [perform, slab_release_of_ne pools same]
        exact .kept (by simp) (by simpa [Move.released?] using same)
  | record handle anchor => exact moved_anchored pools handle anchor (by simp) rfl
  | adopt parent child =>
      rw [perform, adopted]
      split
      · exact moved_anchored pools child _ (by simp) rfl
      · exact .kept (by simp) (by simp [Move.released?])

theorem sound_perform {pools : Pools} (sound : pools.Sound) (move : Move) :
    (pools.perform move).Sound := by
  intro pool
  have moved := moved_perform pools move pool
  generalize (pools.perform move).slab pool = after at moved
  cases moved with
  | kept => exact sound pool
  | grown wanted least => exact Slab.sound_grown (sound pool) wanted least
  | taken => exact Slab.sound_take (sound pool) Anchor.root
  | released slot => exact Slab.sound_release (sound pool) slot
  | assigned _ _ slot anchor => exact Slab.sound_assign (sound pool) slot anchor

theorem sound_performAll {pools : Pools} (sound : pools.Sound) (moves : List Move) :
    (pools.performAll moves).Sound := by
  induction moves generalizing pools with
  | nil => exact sound
  | cons move rest inductionHypothesis => exact inductionHypothesis (sound_perform sound move)

theorem capacity_le_perform (pools : Pools) (move : Move) (pool : PoolId) :
    (pools.slab pool).capacity ≤ ((pools.perform move).slab pool).capacity := by
  have moved := moved_perform pools move pool
  generalize (pools.perform move).slab pool = after at moved
  cases moved with
  | kept => exact Nat.le_refl _
  | grown wanted least => exact Slab.capacity_le_grown _ wanted least
  | taken => exact (Slab.capacity_take _ _).ge
  | released slot => exact (Slab.capacity_release _ slot).ge
  | assigned _ _ slot anchor => exact (Slab.capacity_assign _ slot anchor).ge

/-! ## Counting nodes -/

/-- How many nodes of a pool some moves take. -/
def taken (moves : List Move) (pool : PoolId) : Nat :=
  moves.count (.take pool)

/-- How many nodes of a pool some moves give back. -/
def givenBack (moves : List Move) (pool : PoolId) : Nat :=
  (releases moves).count pool

theorem taken_append (first rest : List Move) (pool : PoolId) :
    taken (first ++ rest) pool = taken first pool + taken rest pool :=
  List.count_append

theorem taken_take_self (pool : PoolId) (moves : List Move) :
    taken (.take pool :: moves) pool = taken moves pool + 1 :=
  List.count_cons_self

theorem taken_cons_of_ne {move : Move} {pool : PoolId} (different : move ≠ .take pool)
    (moves : List Move) : taken (move :: moves) pool = taken moves pool :=
  List.count_cons_of_ne different

private theorem liveNodes_perform_le (pools : Pools) (move : Move) (rest : List Move)
    (pool : PoolId) :
    (pools.perform move).liveNodes pool + taken rest pool ≤
      pools.liveNodes pool + taken (move :: rest) pool := by
  have moved := moved_perform pools move pool
  rw [liveNodes, liveNodes]
  generalize (pools.perform move).slab pool = after at moved
  cases moved with
  | kept noTake => rw [taken_cons_of_ne noTake]
  | grown wanted least =>
      rw [taken_cons_of_ne (by simp)]
      exact Nat.le_refl _
  | taken =>
      rw [taken_take_self, Slab.live_take]
      omega
  | released slot =>
      rw [taken_cons_of_ne (by simp)]
      exact Nat.add_le_add_right (Slab.live_release_le _ slot) _
  | assigned noTake _ slot anchor => rw [taken_cons_of_ne noTake, Slab.live_assign]

/-- No more nodes are in use than there were and have been taken. -/
theorem liveNodes_performAll_le (pools : Pools) (moves : List Move) (pool : PoolId) :
    (pools.performAll moves).liveNodes pool ≤ pools.liveNodes pool + taken moves pool := by
  induction moves generalizing pools with
  | nil => exact Nat.le_refl _
  | cons move rest inductionHypothesis =>
      exact Nat.le_trans (inductionHypothesis (pools.perform move))
        (liveNodes_perform_le pools move rest pool)

private theorem givenBack_release_self (pool : PoolId) (slot : Nat) (rest : List Move) :
    givenBack (.release ⟨pool, slot⟩ :: rest) pool = givenBack rest pool + 1 := by
  have released : (Move.release ⟨pool, slot⟩).released? = some ⟨pool, slot⟩ := rfl
  rw [givenBack, releases_cons_of_some released, List.count_cons_self, givenBack]

private theorem givenBack_cons_of_ne {move : Move} {pool : PoolId}
    (noRelease : ∀ handle ∈ move.released?, handle.pool ≠ pool) (rest : List Move) :
    givenBack (move :: rest) pool = givenBack rest pool := by
  cases released : move.released? with
  | none => rw [givenBack, releases_cons_of_none released, givenBack]
  | some handle =>
      have elsewhere := noRelease handle released
      rw [givenBack, releases_cons_of_some released, List.count_cons_of_ne elsewhere, givenBack]

private theorem liveNodes_perform {pools : Pools} (sound : pools.Sound) {move : Move}
    (honest : ∀ handle ∈ move.released?, ∃ anchor, pools.anchor? handle = some anchor)
    (rest : List Move) (pool : PoolId) :
    (pools.perform move).liveNodes pool + taken rest pool + givenBack (move :: rest) pool =
      pools.liveNodes pool + taken (move :: rest) pool + givenBack rest pool := by
  have moved := moved_perform pools move pool
  rw [liveNodes, liveNodes]
  generalize (pools.perform move).slab pool = after at moved
  cases moved with
  | kept noTake noRelease => rw [taken_cons_of_ne noTake, givenBack_cons_of_ne noRelease]
  | grown wanted least =>
      rw [taken_cons_of_ne (by simp), givenBack_cons_of_ne (by simp [Move.released?])]
      rfl
  | taken =>
      rw [taken_take_self, givenBack_cons_of_ne (by simp [Move.released?]), Slab.live_take]
      omega
  | released slot =>
      rcases honest ⟨pool, slot⟩ rfl with ⟨anchor, used⟩
      have fewer : ((pools.slab pool).release slot).live + 1 = (pools.slab pool).live :=
        Slab.live_release (sound pool) used
      rw [taken_cons_of_ne (by simp), givenBack_release_self]
      omega
  | assigned noTake noRelease slot anchor =>
      rw [taken_cons_of_ne noTake, givenBack_cons_of_ne (by simp [noRelease]), Slab.live_assign]

/-- With honest moves the nodes in use are those that there were, plus those taken, minus
those given back. -/
theorem liveNodes_performAll {pools : Pools} (sound : pools.Sound) {moves : List Move}
    (honest : pools.Honest moves) (pool : PoolId) :
    (pools.performAll moves).liveNodes pool + givenBack moves pool =
      pools.liveNodes pool + taken moves pool := by
  induction moves generalizing pools with
  | nil => rfl
  | cons move rest inductionHypothesis =>
      have first := liveNodes_perform sound honest.1 rest pool
      have later := inductionHypothesis (sound_perform sound move) honest.2
      rw [performAll_cons]
      omega

/-! ## Room for all that is taken -/

/-- Room for every node that some moves take, beside the nodes in use. -/
def HasRoomFor (pools : Pools) (moves : List Move) : Prop :=
  forall pool, pools.liveNodes pool + taken moves pool ≤ (pools.slab pool).capacity

theorem HasRoomFor.perform {pools : Pools} {move : Move} {rest : List Move}
    (room : pools.HasRoomFor (move :: rest)) : (pools.perform move).HasRoomFor rest := by
  intro pool
  calc (pools.perform move).liveNodes pool + taken rest pool
      ≤ pools.liveNodes pool + taken (move :: rest) pool := liveNodes_perform_le pools move rest pool
    _ ≤ (pools.slab pool).capacity := room pool
    _ ≤ ((pools.perform move).slab pool).capacity := capacity_le_perform pools move pool

theorem HasRoomFor.performAll {first rest : List Move} :
    forall {pools : Pools}, pools.HasRoomFor (first ++ rest) ->
      (pools.performAll first).HasRoomFor rest := by
  induction first with
  | nil => exact fun room => room
  | cons move moves inductionHypothesis => exact fun room => inductionHypothesis room.perform

/-- A slot is opened only where there is room for it. -/
theorem HasRoomFor.size_lt_capacity {pools : Pools} {pool : PoolId} {rest : List Move}
    (room : pools.HasRoomFor (.take pool :: rest)) (sound : pools.Sound)
    (noneWaits : (pools.slab pool).firstFree? = none) :
    (pools.slab pool).size < (pools.slab pool).capacity := by
  rcases sound pool with ⟨free, threaded⟩
  have enough := room pool
  rw [taken_take_self, liveNodes] at enough
  cases free with
  | nil =>
      have counted := threaded.counted
      rw [List.length_nil] at counted
      omega
  | cons slot waiting =>
      have linked := threaded.linked.1
      rw [noneWaits] at linked
      cases linked

private theorem opened_perform {pools : Pools} {move : Move} {rest : List Move}
    (room : pools.HasRoomFor (move :: rest)) (sound : pools.Sound) (opened : pools.Opened) :
    (pools.perform move).Opened := by
  intro pool
  have moved := moved_perform pools move pool
  have enough := room pool
  rw [liveNodes] at enough
  generalize (pools.perform move).slab pool = after at moved
  cases moved with
  | kept => exact opened pool
  | grown wanted least => exact Nat.le_trans (opened pool) (Slab.capacity_le_grown _ wanted least)
  | taken =>
      rw [taken_take_self] at enough
      rw [Slab.capacity_take]
      exact Slab.size_take_le (sound pool) Anchor.root (opened pool) (by omega)
  | released slot =>
      rw [Slab.size_release, Slab.capacity_release]
      exact opened pool
  | assigned _ _ slot anchor =>
      rw [Slab.size_assign, Slab.capacity_assign]
      exact opened pool

/-- Moves that there is room for open no more slots than there is room for. -/
theorem HasRoomFor.opened {moves : List Move} :
    forall {pools : Pools}, pools.HasRoomFor moves -> pools.Sound -> pools.Opened ->
      (pools.performAll moves).Opened := by
  induction moves with
  | nil => exact fun _ _ opened => opened
  | cons move rest inductionHypothesis =>
      intro pools room sound opened
      exact inductionHypothesis room.perform (sound_perform sound move)
        (opened_perform room sound opened)

/-- Moves that take nothing need no room. -/
theorem hasRoomFor_of_taken_zero {pools : Pools} {moves : List Move}
    (nothing : forall pool, taken moves pool = 0) (sound : pools.Sound) (opened : pools.Opened) :
    pools.HasRoomFor moves := by
  intro pool
  rw [nothing]
  exact Nat.le_trans (Slab.live_le_size (sound pool)) (opened pool)

/-! ## Counting bytes -/

/-- The bytes of a number of nodes for each pool. -/
def bytesOf (nodes : PoolId -> Nat) : Nat :=
  PoolId.total fun pool => nodes pool * pool.nodeBytes

private theorem bytesOf_eq_sum (nodes : PoolId -> Nat) :
    bytesOf nodes = (PoolId.all.toList.map fun pool => nodes pool * pool.nodeBytes).sum := by
  rw [List.sum, List.foldr_map]
  rfl

private theorem bytesOf_add (first second : PoolId -> Nat) :
    bytesOf (fun pool => first pool + second pool) = bytesOf first + bytesOf second := by
  simp only [bytesOf_eq_sum, Nat.add_mul, List.sum_map_add]

theorem bytesOf_le {first second : PoolId -> Nat}
    (order : forall pool, first pool ≤ second pool) : bytesOf first ≤ bytesOf second := by
  rw [bytesOf_eq_sum, bytesOf_eq_sum]
  exact List.sum_le_sum fun pool _ => Nat.mul_le_mul_right pool.nodeBytes (order pool)

private theorem bytesOf_single (own : PoolId) :
    bytesOf (fun pool => if own = pool then 1 else 0) = own.nodeBytes := by
  rcases own with ⟨family, sizeClass⟩
  cases family <;> cases sizeClass <;> decide

theorem liveBytes_eq (pools : Pools) : pools.liveBytes = bytesOf pools.liveNodes :=
  rfl

theorem bytes_eq (demand : Demand) : demand.bytes = bytesOf demand.count :=
  rfl

theorem liveBytes_performAll {pools : Pools} (sound : pools.Sound) {moves : List Move}
    (honest : pools.Honest moves) :
    (pools.performAll moves).liveBytes + bytesOf (givenBack moves) =
      pools.liveBytes + bytesOf (taken moves) := by
  rw [liveBytes_eq, liveBytes_eq, ← bytesOf_add, ← bytesOf_add]
  exact congrArg bytesOf (funext (liveNodes_performAll sound honest))

/-- At every moment of some moves the bytes in use are at most those before and those that
the moves take altogether. -/
theorem liveBytes_moment_le (pools : Pools) {first moves : List Move} (starts : first <+: moves) :
    (pools.performAll first).liveBytes ≤ pools.liveBytes + bytesOf (taken moves) := by
  rw [liveBytes_eq, liveBytes_eq, ← bytesOf_add]
  apply bytesOf_le
  intro pool
  calc (pools.performAll first).liveNodes pool
      ≤ pools.liveNodes pool + taken first pool := liveNodes_performAll_le pools first pool
    _ ≤ pools.liveNodes pool + taken moves pool :=
        Nat.add_le_add_left (starts.sublist.count_le _) _

/-- The bytes of some nodes, counted by pool or node by node. -/
theorem bytesOf_count (owners : List PoolId) :
    bytesOf (fun pool => owners.count pool) = (owners.map PoolId.nodeBytes).sum := by
  induction owners with
  | nil => rfl
  | cons own rest inductionHypothesis =>
      simp only [List.count_cons, beq_iff_eq, bytesOf_add, bytesOf_single, List.map_cons,
        List.sum_cons, inductionHypothesis]
      exact Nat.add_comm _ _

/-- The bytes given back, node by node. -/
theorem bytesOf_givenBack (moves : List Move) :
    bytesOf (givenBack moves) = ((releases moves).map PoolId.nodeBytes).sum :=
  bytesOf_count (releases moves)

/-- Every move that takes a node hands out one of its pool. -/
private theorem count_handedOut (pools : Pools) (moves : List Move) (pool : PoolId) :
    ((pools.handedOut moves).map Handle.pool).count pool = taken moves pool := by
  induction moves generalizing pools with
  | nil => rfl
  | cons move rest inductionHypothesis =>
      cases move with
      | take own =>
          rw [handedOut, List.map_cons, pool_take, List.count_cons, inductionHypothesis, taken, taken,
            List.count_cons]
          simp only [beq_iff_eq, Move.take.injEq]
      | grow | release | record | adopt =>
          rw [taken_cons_of_ne (by simp)]
          exact inductionHypothesis _

/-- The bytes taken, node by node as they are handed out. -/
theorem bytesOf_taken (pools : Pools) (moves : List Move) :
    bytesOf (taken moves) =
      ((pools.handedOut moves).map fun handle => handle.pool.nodeBytes).sum := by
  have counted := bytesOf_count ((pools.handedOut moves).map Handle.pool)
  rw [List.map_map] at counted
  rw [← funext (count_handedOut pools moves)]
  exact counted

/-! ## Moves in roomier pools -/

namespace Roomier

variable {before after : Pools}

private theorem take (roomier : Roomier before after) (pool : PoolId) :
    (after.take pool).1 = (before.take pool).1 ∧
      Roomier (before.take pool).2 (after.take pool).2 := by
  rcases (roomier pool).take Anchor.root with ⟨slots, slabs⟩
  refine ⟨congrArg (Handle.mk pool) slots, ?_⟩
  intro other
  by_cases same : pool = other
  · subst other
    rw [slab_take_self, slab_take_self]
    exact slabs
  · rw [slab_take_of_ne before same, slab_take_of_ne after same]
    exact roomier other

private theorem anchored (roomier : Roomier before after) (handle : Handle) (anchor : Anchor) :
    Roomier (before.anchored handle anchor) (after.anchored handle anchor) := by
  intro other
  by_cases same : handle.pool = other
  · subst other
    rw [slab_anchored_self, slab_anchored_self]
    exact (roomier handle.pool).assign handle.slot anchor
  · rw [slab_anchored_of_ne before anchor same, slab_anchored_of_ne after anchor same]
    exact roomier other

private theorem release (roomier : Roomier before after) (handle : Handle) :
    Roomier (before.release handle) (after.release handle) := by
  intro other
  by_cases same : handle.pool = other
  · subst other
    rw [slab_release_self, slab_release_self]
    exact (roomier handle.pool).release handle.slot
  · rw [slab_release_of_ne before same, slab_release_of_ne after same]
    exact roomier other

private theorem grown (roomier : Roomier before after) (pool : PoolId) (wanted : Nat) :
    Roomier (before.grown pool wanted) (after.grown pool wanted) := by
  intro other
  by_cases same : pool = other
  · subst other
    rw [slab_grown_self, slab_grown_self]
    exact (roomier pool).grown wanted pool.leastCapacity
  · rw [slab_grown_of_ne before wanted same, slab_grown_of_ne after wanted same]
    exact roomier other

/-- Pools that differ in room alone go through a move in the same way. -/
theorem perform (roomier : Roomier before after) (move : Move) :
    Roomier (before.perform move) (after.perform move) := by
  cases move with
  | grow pool wanted => exact roomier.grown pool wanted
  | take pool => exact (roomier.take pool).2
  | release handle => exact roomier.release handle
  | record handle anchor => exact roomier.anchored handle anchor
  | adopt parent child =>
      rw [Pools.perform, Pools.perform, adopted, adopted, roomier.anchor?]
      split
      · exact roomier.anchored child _
      · exact roomier

/-- More room changes no handle that is handed out later. -/
theorem handedOut (roomier : Roomier before after) (moves : List Move) :
    after.handedOut moves = before.handedOut moves := by
  induction moves generalizing before after with
  | nil => rfl
  | cons move rest inductionHypothesis =>
      have later := inductionHypothesis (roomier.perform move)
      cases move with
      | take pool =>
          rw [Pools.handedOut, Pools.handedOut, (roomier.take pool).1]
          exact congrArg _ later
      | grow | release | record | adopt => exact later

end Roomier
end Pools
end AdaptiveRadix
