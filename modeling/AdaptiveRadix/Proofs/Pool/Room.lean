import AdaptiveRadix.Pool.Reservation
import AdaptiveRadix.Proofs.Pool.Anchors

namespace AdaptiveRadix

/-!
# Room and its reservation

Obtaining room changes how much of it there is and nothing else.  `Roomier` says so
for slabs and for all pools together: the slots, the free lists and the live counts
are the same.  A reservation that is refused halfway leaves such pools behind, and
every later dealing with them gives what it would have given without it.

A reservation that is granted leaves enough room for every node of the demand beside
the nodes in use, whatever the free lists are.
-/

/-- Slabs that differ at most in the room that the second has and the first lacks. -/
structure Slab.Roomier {α : Type} (before after : Slab α) : Prop where
  slots : after.slots = before.slots
  firstFree? : after.firstFree? = before.firstFree?
  live : after.live = before.live
  capacity : before.capacity ≤ after.capacity

namespace Slab

variable {α : Type} {before after : Slab α}

theorem Roomier.get? (roomier : Roomier before after) (slot : Nat) :
    after.get? slot = before.get? slot := by
  rw [Slab.get?, Slab.get?, roomier.slots]

theorem Roomier.sound (roomier : Roomier before after) (sound : before.Sound) : after.Sound := by
  rcases sound with ⟨free, threaded⟩
  rcases after with ⟨slots, firstFree?, live, capacity⟩
  cases roomier.slots
  cases roomier.firstFree?
  cases roomier.live
  exact ⟨free, threaded.linked, threaded.distinct, threaded.complete, threaded.counted⟩

/-- The same slot is handed out, and the slabs still differ in room alone. -/
theorem Roomier.take (roomier : Roomier before after) (value : α) :
    (after.take value).1 = (before.take value).1 ∧
      Roomier (before.take value).2 (after.take value).2 := by
  have waiting : after.waiting? = before.waiting? := by
    rw [waiting?, waiting?, roomier.firstFree?, roomier.slots]
  unfold Slab.take
  rw [waiting]
  cases before.waiting? with
  | some found =>
      refine ⟨rfl, ?_, rfl, congrArg (· + 1) roomier.live, roomier.capacity⟩
      simp only [roomier.slots]
  | none =>
      refine ⟨?_, ?_, roomier.firstFree?, congrArg (· + 1) roomier.live, roomier.capacity⟩
      · simp only [size, roomier.slots]
      · simp only [roomier.slots]

theorem Roomier.release (roomier : Roomier before after) (slot : Nat) :
    Roomier (before.release slot) (after.release slot) := by
  unfold Slab.release
  rw [roomier.slots]
  split
  · refine ⟨?_, rfl, congrArg (· - 1) roomier.live, roomier.capacity⟩
    simp only [roomier.firstFree?]
  · exact roomier

theorem Roomier.assign (roomier : Roomier before after) (slot : Nat) (value : α) :
    Roomier (before.assign slot value) (after.assign slot value) := by
  unfold Slab.assign
  rw [roomier.slots]
  split
  · exact ⟨rfl, roomier.firstFree?, roomier.live, roomier.capacity⟩
  · exact roomier

theorem Roomier.grown (roomier : Roomier before after) (wanted least : Nat) :
    Roomier (before.grown wanted least) (after.grown wanted least) := by
  refine ⟨roomier.slots, roomier.firstFree?, roomier.live, ?_⟩
  have more := roomier.capacity
  simp only [Slab.grown, shortfall, size, roomier.slots, roomier.live]
  omega

theorem Roomier.trans {middle : Slab α} (first : Roomier before middle)
    (second : Roomier middle after) : Roomier before after where
  slots := second.slots.trans first.slots
  firstFree? := second.firstFree?.trans first.firstFree?
  live := second.live.trans first.live
  capacity := Nat.le_trans first.capacity second.capacity

theorem Roomier.refl (slab : Slab α) : Roomier slab slab :=
  ⟨rfl, rfl, rfl, Nat.le_refl _⟩

theorem roomier_grown (slab : Slab α) (wanted least : Nat) :
    Roomier slab (slab.grown wanted least) :=
  ⟨rfl, rfl, rfl, capacity_le_grown slab wanted least⟩

theorem live_le_size {slab : Slab α} (sound : slab.Sound) : slab.live ≤ slab.size := by
  rcases sound with ⟨free, threaded⟩
  rw [← threaded.counted]
  exact Nat.le_add_right _ _

/-- Slots that wait count as room, and so does what is left to open. -/
theorem mustGrow_iff {slab : Slab α} (sound : slab.Sound) (opened : slab.size ≤ slab.capacity)
    (wanted : Nat) : slab.mustGrow wanted = true ↔ slab.capacity < slab.live + wanted := by
  have used := live_le_size sound
  rw [mustGrow, decide_eq_true_iff, shortfall]
  omega

theorem live_add_le_capacity {slab : Slab α} (sound : slab.Sound) (opened : slab.size ≤ slab.capacity)
    {wanted : Nat} (enough : slab.mustGrow wanted = false) : slab.live + wanted ≤ slab.capacity := by
  rw [← Nat.not_lt, ← mustGrow_iff sound opened, enough]
  exact Bool.false_ne_true

end Slab

namespace Pools

/-- Pools that differ at most in room. -/
def Roomier (before after : Pools) : Prop :=
  forall pool, (before.slab pool).Roomier (after.slab pool)

/-- No more slots are open than there is room for. -/
def Opened (pools : Pools) : Prop :=
  forall pool, (pools.slab pool).size ≤ (pools.slab pool).capacity

namespace Roomier

variable {before middle after : Pools} {nodes : List (Handle × Anchor)}

theorem refl (pools : Pools) : Roomier pools pools :=
  fun pool => Slab.Roomier.refl (pools.slab pool)

theorem trans (first : Roomier before middle) (second : Roomier middle after) :
    Roomier before after :=
  fun pool => (first pool).trans (second pool)

theorem anchor? (roomier : Roomier before after) (handle : Handle) :
    after.anchor? handle = before.anchor? handle :=
  (roomier handle.pool).get? handle.slot

theorem liveNodes (roomier : Roomier before after) (pool : PoolId) :
    after.liveNodes pool = before.liveNodes pool :=
  (roomier pool).live

theorem liveBytes (roomier : Roomier before after) : after.liveBytes = before.liveBytes := by
  simp only [Pools.liveBytes, roomier.liveNodes]

theorem inventory (roomier : Roomier before after) (inventory : Inventory before nodes) :
    Inventory after nodes where
  sound pool := (roomier pool).sound (inventory.sound pool)
  distinct := inventory.distinct
  mem_iff := inventory.mem_iff.trans (by rw [roomier.anchor?])

theorem opened (roomier : Roomier before after) (opened : before.Opened) : after.Opened := by
  intro pool
  rw [Slab.size, (roomier pool).slots]
  exact Nat.le_trans (opened pool) (roomier pool).capacity

end Roomier

theorem opened_empty : empty.Opened := by
  intro pool
  rw [slab_empty]
  exact Nat.le_refl 0

/-! ## Reservations -/

theorem slab_grown_self (pools : Pools) (pool : PoolId) (wanted : Nat) :
    (pools.grown pool wanted).slab pool = (pools.slab pool).grown wanted pool.leastCapacity :=
  PerPool.get_modify_self pools.slabs pool _

theorem slab_grown_of_ne (pools : Pools) {pool other : PoolId} (wanted : Nat)
    (different : pool ≠ other) : (pools.grown pool wanted).slab other = pools.slab other :=
  PerPool.get_modify_of_ne pools.slabs _ different

theorem roomier_grown (pools : Pools) (pool : PoolId) (wanted : Nat) :
    Roomier pools (pools.grown pool wanted) := by
  intro other
  by_cases same : pool = other
  · subst other
    rw [slab_grown_self]
    exact Slab.roomier_grown (pools.slab pool) wanted pool.leastCapacity
  · rw [slab_grown_of_ne pools wanted same]
    exact Slab.Roomier.refl _

/-- However far the requests are granted, only room is gained. -/
theorem roomier_grownFor (demand : Demand) (order : List PoolId) (allowance : Allowance)
    (pools : Pools) : Roomier pools (pools.grownFor demand order allowance).1 := by
  induction order generalizing allowance pools with
  | nil => exact Roomier.refl pools
  | cons pool rest inductionHypothesis =>
      rw [grownFor]
      split
      · split
        · exact Roomier.refl pools
        · exact (roomier_grown pools pool (demand.count pool)).trans (inductionHypothesis _ _)
      · exact inductionHypothesis allowance pools

private theorem mustGrow_of_roomier {before after : Pools} (roomier : Roomier before after)
    {pool : PoolId} {wanted : Nat} (enough : (before.slab pool).mustGrow wanted = false) :
    (after.slab pool).mustGrow wanted = false := by
  have room := of_decide_eq_false enough
  have more := (roomier pool).capacity
  apply decide_eq_false
  rw [Slab.shortfall, Slab.size, (roomier pool).slots, (roomier pool).live]
  rw [Slab.shortfall, Slab.size] at room
  omega

/-- When every request is granted, each of the pools has the room it needs. -/
private theorem mustGrow_grownFor {demand : Demand} {order : List PoolId} {allowance : Allowance}
    {pools : Pools} (granted : (pools.grownFor demand order allowance).2 = true) :
    ∀ pool ∈ order, ((pools.grownFor demand order allowance).1.slab pool).mustGrow
      (demand.count pool) = false := by
  induction order generalizing allowance pools with
  | nil =>
      intro pool listed
      cases listed
  | cons first rest inductionHypothesis =>
      intro pool listed
      rw [grownFor] at granted ⊢
      by_cases grows : (pools.slab first).mustGrow (demand.count first) = true
      · rw [if_pos grows] at granted ⊢
        by_cases stopped : allowance = some 0
        · rw [if_pos stopped] at granted
          cases granted
        · rw [if_neg stopped] at granted ⊢
          rcases List.mem_cons.mp listed with same | later
          · subst pool
            apply mustGrow_of_roomier (roomier_grownFor demand rest _ _)
            rw [slab_grown_self]
            exact Slab.mustGrow_grown _ _ _
          · exact inductionHypothesis granted pool later
      · rw [if_neg grows] at granted ⊢
        rcases List.mem_cons.mp listed with same | later
        · subst pool
          exact mustGrow_of_roomier (roomier_grownFor demand rest _ _) (eq_false_of_ne_true grows)
        · exact inductionHypothesis granted pool later

theorem mem_all (pool : PoolId) : pool ∈ PoolId.all.toList := by
  rcases pool with ⟨family, sizeClass⟩
  cases family <;> cases sizeClass <;> decide

/-- What a reservation does in each of its outcomes. -/
inductive Reserved (pools : Pools) (limit? : Option Nat) (demand : Demand) : Reservation -> Prop
  /-- There is room for the whole demand, and it fits under the limit. -/
  | granted {roomier : Pools} (gained : Roomier pools roomier)
      (room : forall pool, (roomier.slab pool).mustGrow (demand.count pool) = false)
      (fits : ∀ limit ∈ limit?, demand.bytes = 0 ∨ pools.liveBytes + demand.bytes ≤ limit) :
      Reserved pools limit? demand (.granted roomier)
  /-- The demand does not fit under the limit, and nothing was asked for. -/
  | overLimit {limit : Nat} (limited : limit? = some limit)
      (excess : pools.available limit < demand.bytes) :
      Reserved pools limit? demand (.overLimit ⟨demand.bytes, pools.available limit⟩ limit)
  /-- The system refused; what it had granted before stays. -/
  | refused {roomier : Pools} (gained : Roomier pools roomier)
      (under : ∀ limit ∈ limit?, ¬ pools.available limit < demand.bytes) :
      Reserved pools limit? demand
        (.refused roomier ⟨demand.bytes, (limit?.map pools.available).getD 0⟩)

theorem isNone_iff (demand : Demand) :
    demand.isNone = true ↔ forall pool, demand.count pool = 0 := by
  rw [Demand.isNone, Vector.all_eq_true_iff_forall_mem]
  simp only [beq_iff_eq]
  constructor
  · intro none pool
    exact none pool (Vector.mem_toList_iff.mp (mem_all pool))
  · intro none pool _
    exact none pool

theorem bytes_of_isNone {demand : Demand} (none : demand.isNone = true) :
    demand.bytes = 0 :=
  PoolId.total_of_zero ((isNone_iff demand).mp none)

theorem reserved (pools : Pools) (limit? : Option Nat) (allowance : Allowance) (demand : Demand) :
    Reserved pools limit? demand (pools.reserve limit? allowance demand) := by
  rw [reserve]
  by_cases none : demand.isNone = true
  · rw [if_pos none]
    refine .granted (Roomier.refl pools) ?_ fun _ _ => Or.inl (bytes_of_isNone none)
    intro pool
    rw [(isNone_iff demand).mp none pool]
    apply decide_eq_false
    simp [Slab.shortfall]
  · rw [if_neg none]
    cases filtered : limit?.filter fun limit => pools.available limit < demand.bytes with
    | some limit =>
        rcases Option.filter_eq_some_iff.mp filtered with ⟨limited, excess⟩
        exact .overLimit limited (of_decide_eq_true excess)
    | none =>
        have gained := roomier_grownFor demand PoolId.all.toList allowance pools
        have enough : (pools.grownFor demand PoolId.all.toList allowance).2 = true ->
            ∀ pool ∈ PoolId.all.toList,
              ((pools.grownFor demand PoolId.all.toList allowance).1.slab pool).mustGrow
                (demand.count pool) = false := mustGrow_grownFor
        have under : ∀ limit ∈ limit?, ¬ pools.available limit < demand.bytes := by
          intro limit limited
          exact of_decide_eq_false
            (eq_false_of_ne_true (Option.filter_eq_none_iff.mp filtered limit limited))
        generalize pools.grownFor demand PoolId.all.toList allowance = outcome at gained enough ⊢
        rcases outcome with ⟨roomier, granted⟩
        cases granted with
        | false => exact .refused gained under
        | true =>
            refine .granted gained (fun pool => enough rfl pool (mem_all pool)) ?_
            intro limit limited
            have fits := under limit limited
            rw [available] at fits
            omega

/-- A granted reservation leaves room for its demand beside the nodes in use. -/
theorem live_add_count_le {pools : Pools} {nodes : List (Handle × Anchor)}
    (inventory : Inventory pools nodes) (opened : pools.Opened) {demand : Demand}
    (room : forall pool, (pools.slab pool).mustGrow (demand.count pool) = false) (pool : PoolId) :
    pools.liveNodes pool + demand.count pool ≤ (pools.slab pool).capacity :=
  Slab.live_add_le_capacity (inventory.sound pool) (opened pool) (room pool)

/-! ## Giving nodes back -/

/-- The pools after are the pools before with some nodes given back, so no room was asked for. -/
structure GivenBack (before after : Pools) : Prop where
  released : ∃ handles : List Handle, after = handles.foldl release before
  capacity : forall pool, (after.slab pool).capacity = (before.slab pool).capacity

private theorem capacity_slab_release (pools : Pools) (handle : Handle) (pool : PoolId) :
    ((pools.release handle).slab pool).capacity = (pools.slab pool).capacity := by
  by_cases same : handle.pool = pool
  · subst pool
    rw [slab_release_self, Slab.capacity_release]
  · rw [slab_release_of_ne pools same]

theorem givenBack_of_released {before : Pools} (handles : List Handle) :
    GivenBack before (handles.foldl release before) := by
  refine ⟨⟨handles, rfl⟩, ?_⟩
  intro pool
  induction handles generalizing before with
  | nil => rfl
  | cons handle rest inductionHypothesis =>
      exact inductionHypothesis.trans (capacity_slab_release before handle pool)

end Pools
end AdaptiveRadix
