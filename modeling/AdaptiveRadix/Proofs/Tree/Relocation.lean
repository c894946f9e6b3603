import AdaptiveRadix.Proofs.Checked.Growth
import AdaptiveRadix.Proofs.Node.Refinement

namespace AdaptiveRadix

/-!
# A node in the slot of a larger class

A full node moves in two halves.  In the first it changes its slot: the old one is given
back, one of the next class is taken, the edge to the node goes along, and the entries are
copied.  This half concerns the node alone, whatever a tree makes of it, and whether its
entries are children or values; `Node.relocated` is that half.  In the second half children
and parent are told.

Nothing is asked of the node but that it came about by orderly calls, and nothing of the
pools but that they have it on record.
-/

namespace Slab

variable {α : Type} {slab : Slab α}

theorem firstFree?_release {slot : Nat} {value : α} (used : slab.get? slot = some value) :
    (slab.release slot).firstFree? = some slot := by
  rw [release, slots_of_get? used]

theorem firstFree?_assign (slab : Slab α) (slot : Nat) (value : α) :
    (slab.assign slot value).firstFree? = slab.firstFree? := by
  unfold assign
  split <;> rfl

end Slab

namespace Pools

theorem firstFree?_anchored (pools : Pools) (handle : Handle) (anchor : Anchor) (pool : PoolId) :
    ((pools.anchored handle anchor).slab pool).firstFree? = (pools.slab pool).firstFree? := by
  by_cases same : handle.pool = pool
  · subst pool
    rw [slab_anchored_self]
    exact Slab.firstFree?_assign _ handle.slot anchor
  · rw [slab_anchored_of_ne pools anchor same]

/-- Telling children who their parent is does not touch the free lists. -/
theorem firstFree?_adoptedAll (parent : Handle) (children : List Handle) (pools : Pools)
    (pool : PoolId) :
    ((pools.adoptedAll parent children).slab pool).firstFree? = (pools.slab pool).firstFree? := by
  induction children generalizing pools with
  | nil => rfl
  | cons child rest inductionHypothesis =>
      refine (inductionHypothesis (pools.adopted parent child)).trans ?_
      unfold adopted
      split
      · exact firstFree?_anchored pools child _ pool
      · rfl

end Pools

namespace Node

variable {α : Type} [Inhabited α]

/-- The node in a slot of a larger class, and the pools when it has moved there.  Neither its
parent nor its children know yet. -/
def relocated (node : Node α) (level : Nat) (larger : SizeClass) (pools : Pools) : Node α × Pools :=
  let anchor := (pools.anchor? (node.named level)).getD Anchor.root
  let taken := (pools.release (node.named level)).take ⟨.ofLevel level, larger⟩
  (node.moved larger taken.1.slot, taken.2.anchored taken.1 anchor)

/-- The same with a test before each step. -/
def checkedRelocated (node : Node α) (level : Nat) (larger : SizeClass) (pools : Pools) :
    Checked (Node α × Pools) := do
  let anchor ← pools.checkedRead (node.named level)
  let freed ← pools.checkedRelease (node.named level)
  let taken ← freed.checkedTake ⟨.ofLevel level, larger⟩
  let target ← node.checkedMoved larger taken.1.slot
  let placed ← taken.2.checkedAnchored taken.1 anchor
  return (target, placed)

variable {node : Node α} {level : Nat} {larger : SizeClass} {pools : Pools} {anchor : Anchor}

/-- A moved node goes by the handle that was taken for it. -/
theorem named_moved (node : Node α) (level : Nat) (larger : SizeClass) (pools : Pools) :
    (node.moved larger (pools.take ⟨.ofLevel level, larger⟩).1.slot).named level =
      (pools.take ⟨.ofLevel level, larger⟩).1 := by
  rw [named, sizeClass_moved, slot_moved]
  rfl

/-- A full node makes room by moving, and then its children are told. -/
theorem withRoom_eq_relocated (full : node.isFull = true)
    (next : node.sizeClass.next? = some larger) (child? : α -> Option Handle) (ledger : Ledger) :
    node.withRoom level child? ledger =
      let placed := node.relocated level larger ledger.pools
      (placed.1, {
        pools := placed.2.adoptedAll (placed.1.named level)
          (placed.1.entries.filterMap fun entry => child? entry.value)
        events := ledger.events ++ [.grew (.ofLevel level) node.sizeClass larger level] }) := by
  simp only [withRoom, full, next, relocated, named_moved]
  rfl

/-- A node of the next class with the entries of another. -/
structure Copied (node target : Node α) : Prop where
  next : node.sizeClass.next? = some target.sizeClass
  bindings_eq : target.bindings = node.bindings
  count_eq : target.count = node.count
  valid : target.Valid

omit [Inhabited α] in
theorem Copied.get?_eq {target : Node α} (copied : Copied node target) (valid : node.Valid) :
    target.get? = node.get? := by
  funext chunk
  apply Option.ext
  intro value
  rw [← mem_bindings_iff copied.valid, ← mem_bindings_iff valid, copied.bindings_eq]

omit [Inhabited α] in
theorem Copied.isEmpty_eq {target : Node α} (copied : Copied node target) :
    target.isEmpty = node.isEmpty :=
  congrArg (fun count => count == 0) copied.count_eq

theorem copied_moved (valid : node.Valid) (next : node.sizeClass.next? = some larger) (slot : Nat) :
    Copied node (node.moved larger slot) where
  next := by rw [sizeClass_moved, next]
  bindings_eq := bindings_moved valid
    ((count_le_capacity valid).trans (SizeClass.capacity_lt_of_next? next).le) slot
  count_eq := count_moved valid larger slot
  valid := (moved_keeps valid
    ((count_le_capacity valid).trans (SizeClass.capacity_lt_of_next? next).le) slot).1

/-- A node that has moved to a larger class, and the pools after it. -/
structure Relocated (node : Node α) (level : Nat) (before : Pools) (target : Node α)
    (after : Pools) : Prop extends Copied node target where
  /-- The class is the one that a demand for room has asked for. -/
  reserved : forall demand : Demand, demand.growth (.ofLevel level) node.sizeClass node.isFull =
    demand.add (target.named level).pool 1
  edge : after.anchor? (target.named level) = before.anchor? (node.named level)
  fresh : before.anchor? (target.named level) = none
  vacated : after.anchor? (node.named level) = none
  waits_first : (after.slab (node.named level).pool).firstFree? = some node.slot
  others : forall handle, handle ≠ node.named level -> handle ≠ target.named level ->
    after.anchor? handle = before.anchor? handle

/-- A move, and that no test fails on the way if there is a slot to move to. -/
structure Relocates (node : Node α) (level : Nat) (larger : SizeClass) (pools : Pools) : Prop
    extends Relocated node level pools (node.relocated level larger pools).1
      (node.relocated level larger pools).2 where
  passes : ((pools.slab ⟨.ofLevel level, larger⟩).firstFree? = none ->
      (pools.slab ⟨.ofLevel level, larger⟩).size < Slab.mostSlots ∧
        (pools.slab ⟨.ofLevel level, larger⟩).size < (pools.slab ⟨.ofLevel level, larger⟩).capacity) ->
    node.checkedRelocated level larger pools = .ok (node.relocated level larger pools)

omit [Inhabited α] in
/-- The old slot and the new one are in different pools. -/
theorem pool_ne_of_next? (next : node.sizeClass.next? = some larger) (level : Nat) :
    (node.named level).pool ≠ ⟨.ofLevel level, larger⟩ := by
  intro same
  have classes : node.sizeClass = larger := congrArg PoolId.sizeClass same
  have more := SizeClass.capacity_lt_of_next? next
  rw [classes] at more
  exact Nat.lt_irrefl _ more

theorem relocated_of_recorded (valid : node.Valid) (full : node.isFull = true)
    (next : node.sizeClass.next? = some larger) (sound : pools.Sound)
    (recorded : pools.anchor? (node.named level) = some anchor) :
    Relocated node level pools (node.relocated level larger pools).1
      (node.relocated level larger pools).2 := by
  have apart := pool_ne_of_next? next level
  let freed := pools.release (node.named level)
  let taken := freed.take ⟨.ofLevel level, larger⟩
  have name : (node.moved larger taken.1.slot).named level = taken.1 :=
    named_moved node level larger freed
  have different : taken.1 ≠ node.named level := fun same => apart (congrArg Handle.pool same).symm
  have placed : node.relocated level larger pools =
      (node.moved larger taken.1.slot, taken.2.anchored taken.1 anchor) := by
    rw [relocated, recorded, Option.getD_some]
  have kept : forall handle, handle ≠ taken.1 ->
      (taken.2.anchored taken.1 anchor).anchor? handle = freed.anchor? handle := by
    intro handle other
    rw [Pools.anchor?_anchored_of_ne _ anchor other, Pools.anchor?_take_of_ne _ _ other]
  rw [placed]
  exact {
    toCopied := copied_moved valid next taken.1.slot
    reserved := by
      intro demand
      rw [name]
      simp only [Demand.growth, full, next]
      rfl
    edge := by
      rw [name, recorded]
      exact Pools.anchor?_anchored_self (Pools.anchor?_take_self freed _) anchor
    fresh := by
      rw [name, ← Pools.anchor?_release_of_ne pools different]
      exact Pools.anchor?_take_fresh (Pools.sound_release sound (node.named level)) _
    vacated := by
      rw [kept _ different.symm]
      exact Pools.anchor?_release_self pools (node.named level)
    waits_first := by
      rw [Pools.firstFree?_anchored, Pools.slab_take_of_ne freed apart.symm,
        Pools.slab_release_self]
      exact Slab.firstFree?_release recorded
    others := by
      intro handle old new
      rw [name] at new
      exact (kept handle new).trans (Pools.anchor?_release_of_ne pools old) }

theorem relocates_of_recorded (valid : node.Valid) (full : node.isFull = true)
    (next : node.sizeClass.next? = some larger) (sound : pools.Sound)
    (recorded : pools.anchor? (node.named level) = some anchor) :
    Relocates node level larger pools where
  toRelocated := relocated_of_recorded valid full next sound recorded
  passes := by
    intro fits
    have apart := pool_ne_of_next? next level
    let freed := pools.release (node.named level)
    have room : freed.checkedTake ⟨.ofLevel level, larger⟩ =
        .ok (freed.take ⟨.ofLevel level, larger⟩) := by
      rw [← Pools.slab_release_of_ne pools apart] at fits
      have slot := Slab.checkedTake_of_sound
        (Pools.sound_release sound (node.named level) ⟨.ofLevel level, larger⟩) fits Anchor.root
      rw [Pools.checkedTake, slot, ok_bind]
      rfl
    rw [checkedRelocated, Pools.checkedRead_of_used recorded, ok_bind,
      Pools.checkedRelease_of_used sound recorded, ok_bind, room, ok_bind,
      checkedMoved_of_valid valid (SizeClass.capacity_lt_of_next? next), ok_bind,
      Pools.checkedAnchored_of_used (Pools.anchor?_take_self _ _), ok_bind, relocated, recorded]
    rfl

/-- A full node of a class moves to the class that comes after it, be it a leaf or not, whatever
calls it has been through, and whatever the pools have been through that have it on record. -/
def RelocatesFrom (sizeClass : SizeClass) : Prop :=
  ∃ larger, sizeClass.next? = some larger ∧
    forall (α : Type) [Inhabited α] (level slot : Nat) (calls : List (Request α))
      (moves : List Move) (anchor : Anchor), Orderly sizeClass.capacity ∅ calls ->
        (served perform (vacant sizeClass slot : Node α) calls).1.isFull = true ->
        (Pools.empty.performAll moves).anchor?
            ((served perform (vacant sizeClass slot : Node α) calls).1.named level) = some anchor ->
          Relocates (served perform (vacant sizeClass slot : Node α) calls).1 level larger
            (Pools.empty.performAll moves)

theorem relocatesFrom_of_ne {sizeClass : SizeClass} (small : sizeClass ≠ .c256) :
    RelocatesFrom sizeClass := by
  cases next : sizeClass.next? with
  | none => exact absurd ((SizeClass.next?_eq_none_iff sizeClass).mp next) small
  | some larger =>
      refine ⟨larger, next, ?_⟩
      intro α _ level slot calls moves anchor orderly full recorded
      have agrees := (follows_vacant sizeClass slot orderly).agrees
      have kept := sizeClass_served (vacant sizeClass slot : Node α) calls
      rw [sizeClass_vacant] at kept
      exact relocates_of_recorded agrees.valid full ((congrArg SizeClass.next? kept).trans next)
        (Pools.sound_performAll Pools.sound_empty moves) recorded

end Node
end AdaptiveRadix
