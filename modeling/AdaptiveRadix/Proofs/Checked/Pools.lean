import AdaptiveRadix.Proofs.Checked.Node
import AdaptiveRadix.Proofs.Pool.Moves

namespace AdaptiveRadix

/-!
# Checked pools

A slab tests that a slot it reads or takes back is in use, that a slot at the head of
its free list is vacant, and that a new slot has a name and room made for it.  Handles
that an inventory lists pass the first of these tests, and the free list of a sound slab
the second.  The third depends on what is taken: `Affords` says that it passes at every
move of a list that takes a node.

Slots are named by numbers of 32 bits, of which the last is no slot but the end of the
free list.  A slot is opened only while all others are in use, and none is ever closed;
so `Named`, that no slab has more slots than names, says that at no moment so far more
nodes of one pool were in use than there are names (`named_performAll_iff`).
-/

namespace Slab

variable {α : Type}

/-- The slots that a slab has names for. -/
def mostSlots : Nat :=
  2 ^ 32 - 1

/-- What a slot in use holds. -/
def checkedRead (slab : Slab α) (slot : Nat) : Checked α :=
  match slab.slots[slot]? with
  | some (.taken value) => .ok value
  | some (.vacant _) => .error .dangling
  | none => .error .outOfRange

def checkedAssign (slab : Slab α) (slot : Nat) (value : α) : Checked (Slab α) := do
  let _ ← slab.checkedRead slot
  return slab.assign slot value

def checkedTake (slab : Slab α) (value : α) : Checked (Nat × Slab α) :=
  match slab.firstFree? with
  | some head =>
      match slab.slots[head]? with
      | some (.vacant _) => .ok (slab.take value)
      | some (.taken _) => .error .liveOnFreeList
      | none => .error .outOfRange
  | none => do
      ensure (slab.size < mostSlots) .poolExhausted
      ensure (slab.size < slab.capacity) .noRoom
      return slab.take value

def checkedRelease (slab : Slab α) (slot : Nat) : Checked (Slab α) :=
  match slab.slots[slot]? with
  | some (.taken _) => do
      ensure (0 < slab.live) .countUnderflow
      return slab.release slot
  | some (.vacant _) => .error .doubleFree
  | none => .error .outOfRange

/-- The slots that wait are counted before room is asked for. -/
def checkedMustGrow (slab : Slab α) (wanted : Nat) : Checked Bool := do
  ensure (slab.live ≤ slab.size) .countUnderflow
  return slab.mustGrow wanted

variable {slab : Slab α} {slot : Nat} {old : α}

theorem checkedRead_of_used (used : slab.get? slot = some old) : slab.checkedRead slot = .ok old := by
  rw [checkedRead, slots_of_get? used]

theorem checkedAssign_of_used (used : slab.get? slot = some old) (value : α) :
    slab.checkedAssign slot value = .ok (slab.assign slot value) := by
  rw [checkedAssign, checkedRead_of_used used, ok_bind]
  rfl

theorem checkedTake_of_sound (sound : slab.Sound)
    (fits : slab.firstFree? = none -> slab.size < mostSlots ∧ slab.size < slab.capacity) (value : α) :
    slab.checkedTake value = .ok (slab.take value) := by
  rcases sound with ⟨free, threaded⟩
  cases free with
  | nil =>
      have last : slab.firstFree? = none := threaded.linked
      rcases fits last with ⟨named, room⟩
      rw [checkedTake, last]
      exact (ensure_bind named .poolExhausted _).trans (ensure_bind room .noRoom _)
  | cons slot rest =>
      rcases threaded.linked with ⟨head, next?, vacant, _⟩
      rw [checkedTake, head]
      simp only [vacant]

theorem checkedRelease_of_used (sound : slab.Sound) (used : slab.get? slot = some old) :
    slab.checkedRelease slot = .ok (slab.release slot) := by
  have positive : 0 < slab.live := live_release sound used ▸ Nat.succ_pos _
  rw [checkedRelease, slots_of_get? used]
  exact ensure_bind positive .countUnderflow _

theorem checkedMustGrow_of_sound (sound : slab.Sound) (wanted : Nat) :
    slab.checkedMustGrow wanted = .ok (slab.mustGrow wanted) := by
  rw [checkedMustGrow, ensure_bind (live_le_size sound)]
  rfl

/-- Taking a slot closes none. -/
theorem size_le_take (slab : Slab α) (value : α) : slab.size ≤ (slab.take value).2.size := by
  unfold take
  split
  · simp [size]
  · simp [size]

/-- Where no slot waits, taking one opens one. -/
theorem size_take_of_none (last : slab.firstFree? = none) (value : α) :
    (slab.take value).2.size = slab.size + 1 := by
  simp [take, waiting?, last, size]

end Slab

namespace Pools

def checkedRead (pools : Pools) (handle : Handle) : Checked Anchor :=
  (pools.slab handle.pool).checkedRead handle.slot

def checkedTake (pools : Pools) (pool : PoolId) : Checked (Handle × Pools) := do
  let taken ← (pools.slab pool).checkedTake Anchor.root
  return (⟨pool, taken.1⟩, ⟨pools.slabs.set pool taken.2⟩)

def checkedRelease (pools : Pools) (handle : Handle) : Checked Pools := do
  let slab ← (pools.slab handle.pool).checkedRelease handle.slot
  return ⟨pools.slabs.set handle.pool slab⟩

def checkedAnchored (pools : Pools) (handle : Handle) (anchor : Anchor) : Checked Pools := do
  let slab ← (pools.slab handle.pool).checkedAssign handle.slot anchor
  return ⟨pools.slabs.set handle.pool slab⟩

def checkedAdopted (pools : Pools) (parent child : Handle) : Checked Pools := do
  let anchor ← pools.checkedRead child
  pools.checkedAnchored child { anchor with parent? := some parent }

/-- The children of a node are first put into a buffer with a place for each chunk. -/
def checkedAdoptedAll (pools : Pools) (parent : Handle) (children : List Handle) :
    Checked Pools := do
  ensure (children.length ≤ 256) .tooManyChildren
  children.foldlM (fun pools child => pools.checkedAdopted parent child) pools

/-- The node that an anchor names as the parent is read. -/
def checkedParent (pools : Pools) (anchor : Anchor) : Checked Unit :=
  match anchor.parent? with
  | some parent => do
      let _ ← pools.checkedRead parent
      return ()
  | none => return ()

def checkedGrownFor (demand : Demand) : List PoolId -> Allowance -> Pools -> Checked (Pools × Bool)
  | [], _, pools => .ok (pools, true)
  | pool :: rest, allowance, pools => do
      let mustGrow ← (pools.slab pool).checkedMustGrow (demand.count pool)
      if mustGrow then
        if allowance = some 0 then .ok (pools, false)
        else
          checkedGrownFor demand rest (allowance.map (· - 1)) (pools.grown pool (demand.count pool))
      else checkedGrownFor demand rest allowance pools

/-- The bytes of a demand and those of the nodes in use are words. -/
def checkedReserve (pools : Pools) (limit? : Option Nat) (allowance : Allowance)
    (demand : Demand) : Checked Reservation :=
  if demand.isNone then .ok (.granted pools)
  else do
    ensure (demand.bytes < 2 ^ 64) .countOverflow
    ensure (pools.liveBytes < 2 ^ 64) .countOverflow
    match limit?.filter fun limit => pools.available limit < demand.bytes with
    | some limit => .ok (.overLimit ⟨demand.bytes, pools.available limit⟩ limit)
    | none =>
        match ← pools.checkedGrownFor demand PoolId.all.toList allowance with
        | (roomier, true) => .ok (.granted roomier)
        | (roomier, false) =>
            .ok (.refused roomier ⟨demand.bytes, (limit?.map pools.available).getD 0⟩)

variable {pools : Pools} {handle : Handle} {anchor : Anchor}

theorem checkedRead_of_used (used : pools.anchor? handle = some anchor) :
    pools.checkedRead handle = .ok anchor :=
  Slab.checkedRead_of_used used

theorem checkedRelease_of_used (sound : pools.Sound) (used : pools.anchor? handle = some anchor) :
    pools.checkedRelease handle = .ok (pools.release handle) := by
  rw [checkedRelease, Slab.checkedRelease_of_used (sound handle.pool) used, ok_bind]
  rfl

theorem checkedAnchored_of_used (used : pools.anchor? handle = some anchor) (changed : Anchor) :
    pools.checkedAnchored handle changed = .ok (pools.anchored handle changed) := by
  rw [checkedAnchored, Slab.checkedAssign_of_used used, ok_bind]
  rfl

theorem checkedAdopted_of_used (used : pools.anchor? handle = some anchor) (parent : Handle) :
    pools.checkedAdopted parent handle = .ok (pools.adopted parent handle) := by
  rw [checkedAdopted, checkedRead_of_used used, ok_bind, checkedAnchored_of_used used, adopted, used]

theorem checkedAdoptedAll_of_used (parent : Handle) {children : List Handle}
    (few : children.length ≤ 256)
    (used : ∀ child ∈ children, ∃ anchor, pools.anchor? child = some anchor) :
    pools.checkedAdoptedAll parent children = .ok (pools.adoptedAll parent children) := by
  rw [checkedAdoptedAll, ensure_bind few]
  clear few
  induction children generalizing pools with
  | nil => rfl
  | cons child rest inductionHypothesis =>
      rcases used child List.mem_cons_self with ⟨anchor, here⟩
      rw [List.foldlM_cons, checkedAdopted_of_used here, ok_bind]
      apply inductionHypothesis
      intro other listed
      rcases used other (List.mem_cons_of_mem child listed) with ⟨own, there⟩
      rw [adopted, here]
      by_cases same : other = child
      · subst other
        exact ⟨_, anchor?_anchored_self here _⟩
      · exact ⟨own, (anchor?_anchored_of_ne pools _ same).trans there⟩

theorem checkedParent_of_used (used : ∀ parent ∈ anchor.parent?, ∃ own,
    pools.anchor? parent = some own) : pools.checkedParent anchor = .ok () := by
  rw [checkedParent]
  cases named : anchor.parent? with
  | none => rfl
  | some parent =>
      rcases used parent named with ⟨own, recorded⟩
      simp only [checkedRead_of_used recorded, ok_bind]
      rfl

/-! ## Room and names for what is taken -/

/-- No pool has opened more slots than it has names for. -/
def Named (pools : Pools) : Prop :=
  forall pool, (pools.slab pool).size ≤ Slab.mostSlots

/-- Whenever one of some moves opens a slot, there is a name and room for it. -/
def Affords (pools : Pools) : List Move -> Prop
  | [] => True
  | move :: rest =>
      (forall pool, move = .take pool -> (pools.slab pool).firstFree? = none ->
        (pools.slab pool).size < Slab.mostSlots ∧
          (pools.slab pool).size < (pools.slab pool).capacity) ∧
        (pools.perform move).Affords rest

theorem affords_append {first rest : List Move} :
    pools.Affords (first ++ rest) ↔ pools.Affords first ∧ (pools.performAll first).Affords rest := by
  induction first generalizing pools with
  | nil => exact (and_iff_right trivial).symm
  | cons move moves inductionHypothesis =>
      rw [List.cons_append, Affords, Affords, inductionHypothesis, and_assoc, performAll_cons]

theorem checkedTake_of_affords {pool : PoolId} {rest : List Move} (sound : pools.Sound)
    (affords : pools.Affords (.take pool :: rest)) :
    pools.checkedTake pool = .ok (pools.take pool) := by
  rw [checkedTake, Slab.checkedTake_of_sound (sound pool) (affords.1 pool rfl), ok_bind]
  rfl

theorem size_le_perform (pools : Pools) (move : Move) (pool : PoolId) :
    (pools.slab pool).size ≤ ((pools.perform move).slab pool).size := by
  have moved := moved_perform pools move pool
  generalize (pools.perform move).slab pool = after at moved
  cases moved with
  | kept | grown => exact Nat.le_refl _
  | taken => exact Slab.size_le_take _ Anchor.root
  | released slot => exact (Slab.size_release _ slot).ge
  | assigned _ _ slot anchor => exact (Slab.size_assign _ slot anchor).ge

/-- No slot is ever closed. -/
theorem size_le_performAll (pools : Pools) (moves : List Move) (pool : PoolId) :
    (pools.slab pool).size ≤ ((pools.performAll moves).slab pool).size := by
  induction moves generalizing pools with
  | nil => exact Nat.le_refl _
  | cons move rest inductionHypothesis =>
      exact Nat.le_trans (size_le_perform pools move pool) (inductionHypothesis (pools.perform move))

theorem Named.of_performAll {moves : List Move} (named : (pools.performAll moves).Named) :
    pools.Named :=
  fun pool => Nat.le_trans (size_le_performAll pools moves pool) (named pool)

private theorem named_perform {move : Move} (sound : pools.Sound) (named : pools.Named)
    (few : forall pool, (pools.perform move).liveNodes pool ≤ Slab.mostSlots) :
    (pools.perform move).Named := by
  intro pool
  have moved := moved_perform pools move pool
  have most := few pool
  rw [liveNodes] at most
  generalize (pools.perform move).slab pool = after at moved most
  cases moved with
  | kept | grown => exact named pool
  | taken =>
      rw [Slab.live_take] at most
      exact Slab.size_take_le (sound pool) Anchor.root (named pool) most
  | released slot => exact (Slab.size_release _ slot).trans_le (named pool)
  | assigned _ _ slot anchor => exact (Slab.size_assign _ slot anchor).trans_le (named pool)

/-- The names suffice exactly when at no moment more nodes of one pool are in use than
there are names. -/
theorem named_performAll_iff {moves : List Move} (sound : pools.Sound) (named : pools.Named) :
    (pools.performAll moves).Named ↔ forall first, first <+: moves ->
      forall pool, (pools.performAll first).liveNodes pool ≤ Slab.mostSlots := by
  constructor
  · intro last first starts pool
    rcases starts with ⟨rest, rfl⟩
    rw [performAll_append] at last
    exact Nat.le_trans (Slab.live_le_size (sound_performAll sound first pool))
      (last.of_performAll pool)
  · intro few
    induction moves generalizing pools with
    | nil => exact named
    | cons move rest inductionHypothesis =>
        have next : (pools.perform move).Named :=
          named_perform sound named (few [move] ⟨rest, rfl⟩)
        exact inductionHypothesis (sound_perform sound move) next fun first starts =>
          few (move :: first) ((List.prefix_cons_inj move).mpr starts)

/-- Room for all that is taken, and a name for every slot in the end, is room and a name
for every slot when it is opened. -/
theorem HasRoomFor.affords {moves : List Move} (room : pools.HasRoomFor moves)
    (sound : pools.Sound) (named : (pools.performAll moves).Named) : pools.Affords moves := by
  induction moves generalizing pools with
  | nil => trivial
  | cons move rest inductionHypothesis =>
      refine ⟨?_, inductionHypothesis room.perform (sound_perform sound move) named⟩
      intro pool takes last
      subst takes
      have opened : ((pools.perform (.take pool)).slab pool).size = (pools.slab pool).size + 1 := by
        rw [Pools.perform, slab_take_self, Slab.size_take_of_none last]
      have later := size_le_performAll (pools.perform (.take pool)) rest pool
      have most := named pool
      rw [performAll_cons] at most
      exact ⟨by omega, room.size_lt_capacity sound last⟩

/-! ## Reservations -/

theorem checkedGrownFor_of_sound (demand : Demand) (order : List PoolId) (allowance : Allowance)
    (sound : pools.Sound) :
    checkedGrownFor demand order allowance pools = .ok (pools.grownFor demand order allowance) := by
  induction order generalizing allowance pools with
  | nil => rfl
  | cons pool rest inductionHypothesis =>
      rw [checkedGrownFor, Slab.checkedMustGrow_of_sound (sound pool), ok_bind, grownFor]
      split
      · split
        · rfl
        · apply inductionHypothesis
          exact fun other => (roomier_grown pools pool _ other).sound (sound other)
      · exact inductionHypothesis allowance sound

/-- The nodes of as many slots as there are names for take far fewer bytes than a word counts. -/
theorem liveBytes_lt (sound : pools.Sound) (named : pools.Named) : pools.liveBytes < 2 ^ 45 := by
  have most : forall pool, pools.liveNodes pool ≤ Slab.mostSlots := fun pool =>
    Nat.le_trans (Slab.live_le_size (sound pool)) (named pool)
  rw [liveBytes_eq]
  exact Nat.lt_of_le_of_lt (bytesOf_le most) (by decide +kernel)

theorem checkedReserve_of_sound (sound : pools.Sound) (named : pools.Named) (limit? : Option Nat)
    (allowance : Allowance) {demand : Demand} (small : demand.bytes < 2 ^ 64) :
    pools.checkedReserve limit? allowance demand = .ok (pools.reserve limit? allowance demand) := by
  rw [checkedReserve, reserve]
  split
  · rfl
  · rw [ensure_bind small, ensure_bind ((liveBytes_lt sound named).trans (by decide))]
    cases limit?.filter fun limit => pools.available limit < demand.bytes with
    | some limit => rfl
    | none =>
        rw [checkedGrownFor_of_sound demand _ allowance sound, ok_bind]
        rcases pools.grownFor demand PoolId.all.toList allowance with ⟨roomier, _ | _⟩
        · rfl
        · rfl

end Pools
end AdaptiveRadix
