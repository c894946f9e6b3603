import AdaptiveRadix.Pool.Slab
import Mathlib

namespace AdaptiveRadix
namespace Slab

/-!
# The free list of a slab

The free list is threaded through the very slots that it lists.  `Threaded slab free`
spells the thread out: `free` has each vacant slot once, the slot freed last at its
head, and ends where the links end.  Every operation changes this list at its head or
not at all, so a slot in use is never handed out, and what it holds stays in place
until it is taken back.
-/

variable {α : Type}

/-- Each slot of the list is vacant and linked to the next, and the last to none. -/
def Linked (slots : Array (Slot α)) : Option Nat -> List Nat -> Prop
  | head?, [] => head? = none
  | head?, slot :: rest =>
      head? = some slot ∧ ∃ next?, slots[slot]? = some (.vacant next?) ∧ Linked slots next? rest

/-- The vacant slots in the order in which they will be handed out. -/
structure Threaded (slab : Slab α) (free : List Nat) : Prop where
  linked : Linked slab.slots slab.firstFree? free
  distinct : free.Nodup
  complete : forall {slot : Nat} {next? : Option Nat},
    slab.slots[slot]? = some (.vacant next?) -> slot ∈ free
  counted : slab.live + free.length = slab.size

theorem Linked.vacant {slots : Array (Slot α)} {free : List Nat} {slot : Nat} :
    forall {head? : Option Nat}, Linked slots head? free -> slot ∈ free ->
      ∃ next?, slots[slot]? = some (.vacant next?) := by
  induction free with
  | nil =>
      intro _ _ listed
      cases listed
  | cons first rest inductionHypothesis =>
      intro _ linked listed
      rcases linked with ⟨_, next?, vacant, others⟩
      rcases List.mem_cons.mp listed with same | later
      · exact ⟨next?, same ▸ vacant⟩
      · exact inductionHypothesis others later

/-- A thread survives any change elsewhere. -/
theorem Linked.congr {before after : Array (Slot α)} {free : List Nat}
    (same : ∀ slot ∈ free, after[slot]? = before[slot]?) :
    forall {head? : Option Nat}, Linked before head? free -> Linked after head? free := by
  induction free with
  | nil => exact fun linked => linked
  | cons first rest inductionHypothesis =>
      intro _ linked
      rcases linked with ⟨head, next?, vacant, others⟩
      refine ⟨head, next?, ?_, ?_⟩
      · rw [same first List.mem_cons_self, vacant]
      · exact inductionHypothesis (fun slot listed => same slot (List.mem_cons_of_mem first listed)) others

namespace Threaded

variable {slab : Slab α} {free : List Nat}

theorem get?_of_mem (threaded : Threaded slab free) {slot : Nat} (listed : slot ∈ free) :
    slab.get? slot = none := by
  rcases threaded.linked.vacant listed with ⟨next?, vacant⟩
  simp only [get?, vacant, Option.bind_some, Slot.value?]

theorem lt_size (threaded : Threaded slab free) {slot : Nat} (listed : slot ∈ free) :
    slot < slab.size := by
  rcases threaded.linked.vacant listed with ⟨next?, vacant⟩
  exact (Array.getElem?_eq_some_iff.mp vacant).1

/-- A slot below the size is in use exactly when it does not wait. -/
theorem isSome_get?_iff (threaded : Threaded slab free) {slot : Nat} :
    (slab.get? slot).isSome = true ↔ slot < slab.size ∧ slot ∉ free := by
  constructor
  · intro used
    refine ⟨?_, ?_⟩
    · by_contra outside
      have beyond : slab.slots[slot]? = none := Array.getElem?_eq_none (Nat.le_of_not_lt outside)
      simp [get?, beyond] at used
    · intro listed
      rw [threaded.get?_of_mem listed] at used
      cases used
  · intro inside
    rcases inside with ⟨bound, unlisted⟩
    have below : slot < slab.slots.size := bound
    have found : slab.slots[slot]? = some slab.slots[slot] := Array.getElem?_eq_getElem below
    cases content : slab.slots[slot] with
    | taken value => simp [get?, found, content, Slot.value?]
    | vacant next? => exact absurd (threaded.complete (found.trans (congrArg some content))) unlisted

/-- The live count is the number of slots in use. -/
theorem length_eq_live (threaded : Threaded slab free) {slots : List Nat} (distinct : slots.Nodup)
    (used : forall slot, slot ∈ slots ↔ (slab.get? slot).isSome = true) :
    slots.length = slab.live := by
  have apart : forall slot, slot ∈ slots -> slot ∉ free := by
    intro slot listed
    exact (threaded.isSome_get?_iff.mp ((used slot).mp listed)).2
  have all : (slots ++ free).Perm (List.range slab.size) := by
    apply (List.perm_ext_iff_of_nodup _ List.nodup_range).mpr
    · intro slot
      rw [List.mem_append, used, threaded.isSome_get?_iff, List.mem_range]
      by_cases listed : slot ∈ free
      · simp [listed, threaded.lt_size listed]
      · simp [listed]
    · rw [List.nodup_append]
      refine ⟨distinct, threaded.distinct, ?_⟩
      intro slot listed other waiting same
      exact apart slot listed (same ▸ waiting)
  have total := all.length_eq
  rw [List.length_append, List.length_range, ← threaded.counted] at total
  exact Nat.add_right_cancel total

theorem waiting?_nil (threaded : Threaded slab []) : slab.waiting? = none := by
  have head : slab.firstFree? = none := threaded.linked
  rw [waiting?, head]

theorem waiting?_cons {slot : Nat} (threaded : Threaded slab (slot :: free)) :
    ∃ next?, slab.waiting? = some (slot, next?) ∧ Linked slab.slots next? free := by
  rcases threaded.linked with ⟨head, next?, vacant, others⟩
  refine ⟨next?, ?_, others⟩
  rw [waiting?, head]
  simp only [vacant]

/-- With no slot waiting, the next slot number is new. -/
theorem take_nil (threaded : Threaded slab []) (value : α) :
    (slab.take value).1 = slab.size ∧ Threaded (slab.take value).2 [] := by
  rw [take, threaded.waiting?_nil]
  refine ⟨rfl, threaded.linked, List.nodup_nil, ?_, ?_⟩
  · intro slot next? vacant
    rw [Array.getElem?_push] at vacant
    split at vacant
    · cases vacant
    · exact threaded.complete vacant
  · have counted := threaded.counted
    simp only [size, Array.size_push, List.length_nil] at counted ⊢
    omega

/-- The slot freed last is handed out first. -/
theorem take_cons {slot : Nat} (threaded : Threaded slab (slot :: free)) (value : α) :
    (slab.take value).1 = slot ∧ Threaded (slab.take value).2 free := by
  rcases threaded.waiting?_cons with ⟨next?, waiting, others⟩
  rcases List.nodup_cons.mp threaded.distinct with ⟨unlisted, distinct⟩
  rw [take, waiting]
  refine ⟨rfl, ?_, distinct, ?_, ?_⟩
  · apply others.congr
    intro other listed
    apply Array.getElem?_setIfInBounds_ne
    intro same
    exact unlisted (same ▸ listed)
  · intro other link? vacant
    rw [Array.getElem?_setIfInBounds] at vacant
    split at vacant
    · split at vacant <;> cases vacant
    · rename_i different
      rcases List.mem_cons.mp (threaded.complete vacant) with same | listed
      · exact absurd same.symm different
      · exact listed
  · have counted := threaded.counted
    simp only [size, Array.size_setIfInBounds, List.length_cons] at counted ⊢
    omega

end Threaded

/-- A slab whose free list is in order. -/
def Sound (slab : Slab α) : Prop :=
  ∃ free, Threaded slab free

theorem threaded_empty : Threaded (empty : Slab α) [] :=
  ⟨rfl, List.nodup_nil, by simp [empty], rfl⟩

theorem sound_empty : (empty : Slab α).Sound :=
  ⟨[], threaded_empty⟩

theorem sound_take {slab : Slab α} (sound : slab.Sound) (value : α) : (slab.take value).2.Sound := by
  rcases sound with ⟨free, threaded⟩
  cases free with
  | nil => exact ⟨[], (threaded.take_nil value).2⟩
  | cons slot rest => exact ⟨rest, (threaded.take_cons value).2⟩

/-- A slot in use is never handed out. -/
theorem get?_take_fresh {slab : Slab α} (sound : slab.Sound) (value : α) :
    slab.get? (slab.take value).1 = none := by
  rcases sound with ⟨free, threaded⟩
  cases free with
  | nil =>
      have beyond : slab.slots[slab.size]? = none := Array.getElem?_eq_none (Nat.le_refl _)
      rw [(threaded.take_nil value).1, get?, beyond, Option.bind_none]
  | cons slot rest =>
      rw [(threaded.take_cons value).1]
      exact threaded.get?_of_mem List.mem_cons_self

theorem live_take (slab : Slab α) (value : α) : (slab.take value).2.live = slab.live + 1 := by
  unfold take
  split <;> rfl

/-- A new slot is opened only when none waits, so there are as many as were ever in use. -/
theorem size_take {slab : Slab α} (sound : slab.Sound) (value : α) :
    (slab.take value).2.size = max slab.size (slab.live + 1) := by
  rcases sound with ⟨free, threaded⟩
  have counted := threaded.counted
  cases free with
  | nil =>
      have after := (threaded.take_nil value).2.counted
      rw [live_take, List.length_nil] at after
      rw [List.length_nil] at counted
      omega
  | cons slot rest =>
      have after := (threaded.take_cons value).2.counted
      rw [live_take] at after
      rw [List.length_cons] at counted
      omega

/-- What bounds the slots in use bounds the slots. -/
theorem size_take_le {slab : Slab α} (sound : slab.Sound) (value : α) {most : Nat}
    (opened : slab.size ≤ most) (room : slab.live + 1 ≤ most) :
    (slab.take value).2.size ≤ most :=
  (size_take sound value).trans_le (Nat.max_le.mpr ⟨opened, room⟩)

/-! ## Giving back -/

theorem slots_of_get? {slab : Slab α} {slot : Nat} {value : α} (used : slab.get? slot = some value) :
    slab.slots[slot]? = some (.taken value) := by
  cases found : slab.slots[slot]? with
  | none => simp [get?, found] at used
  | some content =>
      cases content with
      | taken held =>
          simp only [get?, found, Option.bind_some, Slot.value?] at used
          rw [Option.some.inj used]
      | vacant next? => simp [get?, found, Slot.value?] at used

/-- A slot that is given back waits at the head of the free list. -/
theorem Threaded.release {slab : Slab α} {free : List Nat} (threaded : Threaded slab free)
    {slot : Nat} {value : α} (used : slab.get? slot = some value) :
    Threaded (slab.release slot) (slot :: free) := by
  have occupied := slots_of_get? used
  have inside := (Array.getElem?_eq_some_iff.mp occupied).1
  have unlisted : slot ∉ free := fun listed => by
    rw [threaded.get?_of_mem listed] at used
    cases used
  have positive : 0 < slab.live := by
    have distinct : (slot :: free).Nodup := List.nodup_cons.mpr ⟨unlisted, threaded.distinct⟩
    have covered : (slot :: free) ⊆ List.range slab.size := by
      intro other listed
      rcases List.mem_cons.mp listed with same | waiting
      · exact List.mem_range.mpr (same ▸ inside)
      · exact List.mem_range.mpr (threaded.lt_size waiting)
    have few := (List.subperm_of_subset distinct covered).length_le
    have counted := threaded.counted
    rw [List.length_cons, List.length_range] at few
    omega
  rw [Slab.release, occupied]
  refine ⟨⟨rfl, slab.firstFree?, ?_, ?_⟩, List.nodup_cons.mpr ⟨unlisted, threaded.distinct⟩, ?_, ?_⟩
  · exact Array.getElem?_setIfInBounds_self_of_lt inside
  · apply threaded.linked.congr
    intro other listed
    apply Array.getElem?_setIfInBounds_ne
    intro same
    exact unlisted (same ▸ listed)
  · intro other next? vacant
    rw [Array.getElem?_setIfInBounds] at vacant
    split at vacant
    · rename_i same
      exact List.mem_cons.mpr (Or.inl same.symm)
    · exact List.mem_cons_of_mem slot (threaded.complete vacant)
  · have counted := threaded.counted
    simp only [size, Array.size_setIfInBounds, List.length_cons] at counted ⊢
    omega

theorem release_of_get?_none {slab : Slab α} {slot : Nat} (unused : slab.get? slot = none) :
    slab.release slot = slab := by
  unfold release
  split
  · rename_i value occupied
    simp [get?, occupied, Slot.value?] at unused
  · rfl

theorem size_release (slab : Slab α) (slot : Nat) : (slab.release slot).size = slab.size := by
  unfold release
  split <;> simp [size]

theorem sound_release {slab : Slab α} (sound : slab.Sound) (slot : Nat) :
    (slab.release slot).Sound := by
  rcases sound with ⟨free, threaded⟩
  cases used : slab.get? slot with
  | none => exact ⟨free, (release_of_get?_none used).symm ▸ threaded⟩
  | some value => exact ⟨slot :: free, threaded.release used⟩

theorem live_release {slab : Slab α} (sound : slab.Sound) {slot : Nat} {value : α}
    (used : slab.get? slot = some value) : (slab.release slot).live + 1 = slab.live := by
  rcases sound with ⟨free, threaded⟩
  have counted := threaded.counted
  have released := (threaded.release used).counted
  rw [List.length_cons, size_release] at released
  omega

theorem live_release_le (slab : Slab α) (slot : Nat) : (slab.release slot).live ≤ slab.live := by
  unfold release
  split
  · exact Nat.sub_le slab.live 1
  · exact Nat.le_refl slab.live

theorem capacity_take (slab : Slab α) (value : α) : (slab.take value).2.capacity = slab.capacity := by
  unfold take
  split <;> rfl

theorem capacity_release (slab : Slab α) (slot : Nat) :
    (slab.release slot).capacity = slab.capacity := by
  unfold release
  split <;> rfl

/-! ## Changing what is held, and making room -/

theorem size_assign (slab : Slab α) (slot : Nat) (value : α) :
    (slab.assign slot value).size = slab.size := by
  unfold assign
  split <;> simp [size]

theorem capacity_assign (slab : Slab α) (slot : Nat) (value : α) :
    (slab.assign slot value).capacity = slab.capacity := by
  unfold assign
  split <;> rfl

theorem get?_assign_self {slab : Slab α} {slot : Nat} {old : α} (used : slab.get? slot = some old)
    (value : α) : (slab.assign slot value).get? slot = some value := by
  have occupied := slots_of_get? used
  have inside := (Array.getElem?_eq_some_iff.mp occupied).1
  rw [assign, occupied]
  simp only [get?, Array.getElem?_setIfInBounds_self_of_lt inside, Option.bind_some, Slot.value?]

theorem get?_assign_of_ne (slab : Slab α) {slot other : Nat} (value : α) (different : other ≠ slot) :
    (slab.assign slot value).get? other = slab.get? other := by
  unfold assign
  split
  · simp only [get?, Array.getElem?_setIfInBounds_ne different.symm]
  · rfl

theorem sound_assign {slab : Slab α} (sound : slab.Sound) (slot : Nat) (value : α) :
    (slab.assign slot value).Sound := by
  rcases sound with ⟨free, threaded⟩
  unfold assign
  split
  · rename_i old occupied
    have unlisted : slot ∉ free := fun listed => by
      rcases threaded.linked.vacant listed with ⟨next?, vacant⟩
      rw [occupied] at vacant
      cases vacant
    refine ⟨free, ?_, threaded.distinct, ?_, ?_⟩
    · apply threaded.linked.congr
      intro other listed
      apply Array.getElem?_setIfInBounds_ne
      intro same
      exact unlisted (same ▸ listed)
    · intro other next? vacant
      rw [Array.getElem?_setIfInBounds] at vacant
      split at vacant
      · split at vacant <;> cases vacant
      · exact threaded.complete vacant
    · simpa [size] using threaded.counted
  · exact ⟨free, threaded⟩

theorem live_assign (slab : Slab α) (slot : Nat) (value : α) :
    (slab.assign slot value).live = slab.live := by
  unfold assign
  split <;> rfl

theorem sound_grown {slab : Slab α} (sound : slab.Sound) (wanted least : Nat) :
    (slab.grown wanted least).Sound := by
  rcases sound with ⟨free, threaded⟩
  exact ⟨free, threaded.linked, threaded.distinct, threaded.complete, threaded.counted⟩

end Slab
end AdaptiveRadix
