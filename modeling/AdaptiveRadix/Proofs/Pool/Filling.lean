import AdaptiveRadix.Proofs.Pool.Growths

namespace AdaptiveRadix

/-!
# How far a pool fills up

A pool opens a slot only when none waits, so what it has handed out is the most that was in
use at a time.  Over the moves of one operation that is what was in use before and all that
the moves take, if they give nothing back while they still take: a slot that came back early
would be handed out again and spare one.

Room that is asked for at least doubles, and it is asked for only where the nodes in use and
those wanted do not fit.  So it stays below twice the most that was wanted.
-/

namespace Slab

variable {α : Type}

/-- The room there is after some more slots were wanted. -/
def roomAfter (capacity occupied least : Nat) : Nat :=
  if capacity < occupied then max (max (2 * capacity) occupied) least else capacity

/-- The most room that there may be by a peak of the slots wanted. -/
def roomBy (peak least : Nat) : Nat :=
  if peak = 0 then 0 else max least (2 * peak)

theorem capacity_le_roomAfter (capacity occupied least : Nat) :
    capacity ≤ roomAfter capacity occupied least := by
  simp only [roomAfter]
  split <;> omega

theorem roomAfter_le_roomBy {capacity size least : Nat} (bounded : capacity ≤ roomBy size least)
    (occupied : Nat) : roomAfter capacity occupied least ≤ roomBy (max size occupied) least := by
  simp only [roomAfter, roomBy] at *
  split_ifs at * <;> omega

/-- A slab that has to grow gets room for the slots in use and those wanted. -/
theorem capacity_grown {slab : Slab α} (sound : slab.Sound) {wanted : Nat}
    (opened : slab.size ≤ slab.capacity) (grows : slab.mustGrow wanted = true) (least : Nat) :
    (slab.grown wanted least).capacity =
      max (max (2 * slab.capacity) (slab.live + wanted)) least := by
  have used := live_le_size sound
  have short := (mustGrow_iff sound opened wanted).mp grows
  have enough : slab.size + slab.shortfall wanted = slab.live + wanted := by
    rw [shortfall]
    omega
  rw [grown, enough]

end Slab

namespace Pools

variable {pools : Pools} {pool : PoolId} {first rest moves : List Move}

/-- A node in use is in a slot that was handed out. -/
theorem slot_lt_size {handle : Handle} {anchor : Anchor} (used : pools.anchor? handle = some anchor) :
    handle.slot < (pools.slab handle.pool).size :=
  (Array.getElem?_eq_some_iff.mp (Slab.slots_of_get? used)).1

/-- Nothing is given back to a pool from which more is taken later. -/
def TakesFirst (pool : PoolId) : List Move -> Prop
  | [] => True
  | move :: rest =>
      ((∃ handle ∈ move.released?, handle.pool = pool) -> taken rest pool = 0) ∧
        TakesFirst pool rest

theorem takesFirst_of_taken_zero (nothing : taken moves pool = 0) : TakesFirst pool moves := by
  induction moves with
  | nil => exact trivial
  | cons move rest inductionHypothesis =>
      rw [taken, List.count_cons, Nat.add_eq_zero_iff] at nothing
      exact ⟨fun _ => nothing.1, inductionHypothesis nothing.1⟩

theorem TakesFirst.append_of_not_mem (keeping : pool ∉ releases first)
    (takesFirst : TakesFirst pool rest) : TakesFirst pool (first ++ rest) := by
  induction first with
  | nil => exact takesFirst
  | cons move first inductionHypothesis =>
      cases released : move.released? with
      | none =>
          rw [releases_cons_of_none released] at keeping
          refine ⟨?_, inductionHypothesis keeping⟩
          rintro ⟨handle, impossible, _⟩
          rw [released] at impossible
          cases impossible
      | some handle =>
          rw [releases_cons_of_some released, List.mem_cons, not_or] at keeping
          refine ⟨?_, inductionHypothesis keeping.2⟩
          rintro ⟨other, same, rfl⟩
          exact absurd (congrArg Handle.pool (Option.some.inj (same.symm.trans released))) keeping.1

theorem takesFirst_of_not_mem (keeping : pool ∉ releases moves) : TakesFirst pool moves :=
  List.append_nil moves ▸ TakesFirst.append_of_not_mem keeping trivial

theorem TakesFirst.append_of_taken_zero (takesFirst : TakesFirst pool first)
    (nothing : taken rest pool = 0) : TakesFirst pool (first ++ rest) := by
  induction first with
  | nil => exact takesFirst_of_taken_zero nothing
  | cons move first inductionHypothesis =>
      refine ⟨fun released => ?_, inductionHypothesis takesFirst.2⟩
      exact (taken_append first rest pool).trans
        (congrArg₂ (· + ·) (takesFirst.1 released) nothing)

/-- Moves that take before they give back open as many slots as they need beside those in use. -/
theorem size_performAll (sound : pools.Sound) (takesFirst : TakesFirst pool moves) :
    ((pools.performAll moves).slab pool).size =
      max (pools.slab pool).size ((pools.slab pool).live + taken moves pool) := by
  induction moves generalizing pools with
  | nil => exact (Nat.max_eq_left (Slab.live_le_size (sound pool))).symm
  | cons move rest inductionHypothesis =>
      have used := Slab.live_le_size (sound pool)
      have moved := moved_perform pools move pool
      rw [performAll_cons, inductionHypothesis (sound_perform sound move) takesFirst.2]
      generalize (pools.perform move).slab pool = after at moved
      cases moved with
      | kept noTake => rw [taken_cons_of_ne noTake]
      | grown wanted least =>
          rw [taken_cons_of_ne (by simp)]
          rfl
      | taken =>
          rw [taken_take_self, Slab.size_take (sound pool), Slab.live_take]
          omega
      | released slot =>
          have fewer := Slab.live_release_le (pools.slab pool) slot
          rw [taken_cons_of_ne (by simp), Slab.size_release, takesFirst.1 ⟨_, rfl, rfl⟩]
          omega
      | assigned noTake _ slot anchor =>
          rw [taken_cons_of_ne noTake, Slab.size_assign, Slab.live_assign]

end Pools
end AdaptiveRadix
