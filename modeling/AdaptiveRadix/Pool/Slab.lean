namespace AdaptiveRadix

/-!
# Slabs

A slab hands out numbered slots and takes them back.  Slots that were handed out and
taken back wait on a free list threaded through the slots themselves: each vacant
slot names the one freed before it.  The slot freed last is handed out first, and a
new slot is opened only when none is waiting.

Room is counted apart from slots.  `capacity` is how many slots the slab may open
without asking for more, and `grown` is the only operation that raises it; nothing
lowers it.
-/

/-- A slot that was handed out: in use, or vacant and linked to the next free one. -/
inductive Slot (α : Type) where
  | taken (value : α)
  | vacant (next? : Option Nat)
deriving DecidableEq, Repr

namespace Slot

variable {α : Type}

def value? : Slot α -> Option α
  | taken value => some value
  | vacant _ => none

end Slot

/-- Slots handed out so far, the head of the free list, the number of slots in use,
and the number of slots there is room for. -/
@[ext]
structure Slab (α : Type) where
  slots : Array (Slot α)
  firstFree? : Option Nat
  live : Nat
  capacity : Nat
deriving Repr

namespace Slab

variable {α : Type}

/-- A slab that has handed out nothing and has no room yet. -/
def empty : Slab α :=
  ⟨#[], none, 0, 0⟩

/-- Slots handed out so far, in use or waiting. -/
def size (slab : Slab α) : Nat :=
  slab.slots.size

/-- What a slot in use holds. -/
def get? (slab : Slab α) (slot : Nat) : Option α :=
  slab.slots[slot]?.bind Slot.value?

/-- The slot freed last that still waits, and the one freed before it. -/
def waiting? (slab : Slab α) : Option (Nat × Option Nat) :=
  match slab.firstFree? with
  | some slot =>
      match slab.slots[slot]? with
      | some (.vacant next?) => some (slot, next?)
      | _ => none
  | none => none

/-- Hand out a slot: the one freed last if any waits, a new one otherwise. -/
def take (slab : Slab α) (value : α) : Nat × Slab α :=
  match slab.waiting? with
  | some (slot, next?) =>
      (slot, { slab with
        slots := slab.slots.setIfInBounds slot (.taken value)
        firstFree? := next?
        live := slab.live + 1 })
  | none =>
      (slab.size, { slab with
        slots := slab.slots.push (.taken value)
        live := slab.live + 1 })

/-- Take a slot back and put it at the head of the free list.  Only a slot in use
can be given back. -/
def release (slab : Slab α) (slot : Nat) : Slab α :=
  match slab.slots[slot]? with
  | some (.taken _) =>
      { slab with
        slots := slab.slots.setIfInBounds slot (.vacant slab.firstFree?)
        firstFree? := some slot
        live := slab.live - 1 }
  | _ => slab

/-- Change what a slot in use holds. -/
def assign (slab : Slab α) (slot : Nat) (value : α) : Slab α :=
  match slab.slots[slot]? with
  | some (.taken _) => { slab with slots := slab.slots.setIfInBounds slot (.taken value) }
  | _ => slab

/-- New slots that must be opened before `wanted` more can be in use. -/
def shortfall (slab : Slab α) (wanted : Nat) : Nat :=
  wanted - (slab.size - slab.live)

/-- Whether `wanted` more slots are more than there is room for. -/
def mustGrow (slab : Slab α) (wanted : Nat) : Bool :=
  slab.capacity - slab.size < slab.shortfall wanted

/-- Make room for `wanted` more slots.  Room at least doubles, so that repeated
requests stay rare, and never falls below `least`. -/
def grown (slab : Slab α) (wanted least : Nat) : Slab α :=
  { slab with
    capacity := max (max (2 * slab.capacity) (slab.size + slab.shortfall wanted)) least }

/-- Room that was made is enough for what it was made for. -/
theorem mustGrow_grown (slab : Slab α) (wanted least : Nat) :
    (slab.grown wanted least).mustGrow wanted = false := by
  apply decide_eq_false
  simp only [grown, shortfall, size]
  omega

theorem capacity_le_grown (slab : Slab α) (wanted least : Nat) :
    slab.capacity ≤ (slab.grown wanted least).capacity := by
  simp only [grown]
  omega

private theorem lt_size_of_waiting {slab : Slab α} {slot : Nat} {next? : Option Nat}
    (found : slab.waiting? = some (slot, next?)) : slot < slab.slots.size := by
  unfold waiting? at found
  split at found
  · split at found
    · rename_i head next? vacant
      cases found
      exact (Array.getElem?_eq_some_iff.mp vacant).1
    · cases found
  · cases found

theorem get?_take_self (slab : Slab α) (value : α) :
    (slab.take value).2.get? (slab.take value).1 = some value := by
  unfold take
  split
  · rename_i slot next? found
    simp only [get?, Array.getElem?_setIfInBounds_self_of_lt (lt_size_of_waiting found),
      Option.bind_some, Slot.value?]
  · simp only [get?, size, Array.getElem?_push_size, Option.bind_some, Slot.value?]

/-- Handing out a slot leaves every other slot as it is. -/
theorem get?_take_of_ne (slab : Slab α) (value : α) {other : Nat}
    (different : other ≠ (slab.take value).1) :
    (slab.take value).2.get? other = slab.get? other := by
  unfold take at different ⊢
  split at different
  · rename_i slot next? found
    simp only [get?, Array.getElem?_setIfInBounds_ne different.symm]
  · simp only [get?, size] at different ⊢
    rw [Array.getElem?_push, if_neg different]

theorem get?_release_self (slab : Slab α) (slot : Nat) : (slab.release slot).get? slot = none := by
  unfold release
  split
  · rename_i value occupied
    have inside := (Array.getElem?_eq_some_iff.mp occupied).1
    simp only [get?, Array.getElem?_setIfInBounds_self_of_lt inside, Option.bind_some, Slot.value?]
  · rename_i vacant
    cases found : slab.slots[slot]? with
    | none => simp only [get?, found, Option.bind_none]
    | some content =>
        cases content with
        | taken value => exact absurd found (vacant value)
        | vacant next? => simp only [get?, found, Option.bind_some, Slot.value?]

/-- Taking a slot back leaves every other slot as it is. -/
theorem get?_release_of_ne (slab : Slab α) {slot other : Nat} (different : other ≠ slot) :
    (slab.release slot).get? other = slab.get? other := by
  unfold release
  split
  · simp only [get?, Array.getElem?_setIfInBounds_ne different.symm]
  · rfl

-- The slot freed last comes back first.
example : ((((empty.take 'a').2.take 'b').2.release 0).take 'c').1 = 0 := by decide

end Slab
end AdaptiveRadix
