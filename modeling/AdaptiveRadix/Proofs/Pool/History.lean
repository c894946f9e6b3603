import AdaptiveRadix.Pool.Request
import AdaptiveRadix.Proofs.Checked.Pools

namespace AdaptiveRadix
namespace Slab

/-!
# A slab and its history

The turns of a slab say which slot was handed out with what and which was taken back, and
nothing of the links between vacant slots.  They settle all that the slab will answer: a
slot holds what it was handed out with last, until it is taken back, and the vacant slots
wait in the order in which they were taken back, the last one first.

So the thread through the slots can be checked against the past, and it can be checked at
every moment: `Recalls` is what one turn keeps, and a run keeps it turn by turn.
-/

variable {α : Type} {slab : Slab α} {slot : Nat} {value : α}

/-! ## The past of a slot -/

/-- What a slot holds after some turns, the last of which is at the head of the list. -/
def heldBy : List (Turn α) -> Nat -> Option α
  | [], _ => none
  | .took slot value :: earlier, asked => if asked = slot then some value else heldBy earlier asked
  | .gave slot :: earlier, asked => if asked = slot then none else heldBy earlier asked
  | .grew :: earlier, asked => heldBy earlier asked

/-- The number of the turn that took a slot back last. -/
def freedAt : List (Turn α) -> Nat -> Nat
  | [], _ => 0
  | .gave slot :: earlier, asked => if asked = slot then earlier.length + 1 else freedAt earlier asked
  | .took _ _ :: earlier, asked | .grew :: earlier, asked => freedAt earlier asked

/-- A slot that was handed out at some time. -/
def WasTaken (turns : List (Turn α)) (slot : Nat) : Prop :=
  ∃ value, Turn.took slot value ∈ turns

theorem freedAt_le_length (turns : List (Turn α)) (slot : Nat) : freedAt turns slot ≤ turns.length := by
  induction turns with
  | nil => exact Nat.le_refl 0
  | cons turn earlier inductionHypothesis =>
      have later : freedAt earlier slot ≤ earlier.length + 1 := Nat.le_succ_of_le inductionHypothesis
      cases turn with
      | took _ _ | grew => exact later
      | gave other =>
          unfold freedAt
          split
          · exact Nat.le_refl _
          · exact later

/-- The slot freed at a turn comes before all that were freed until then. -/
theorem freedAt_gave_lt {other : Nat} (different : other ≠ slot) (turns : List (Turn α)) :
    freedAt (.gave slot :: turns) other < freedAt (.gave slot :: turns) slot := by
  rw [freedAt, freedAt, if_neg different, if_pos rfl]
  exact Nat.lt_succ_of_le (freedAt_le_length turns other)

theorem wasTaken_cons {turns : List (Turn α)} {turn : Turn α} :
    WasTaken (turn :: turns) slot ↔ (∃ value, turn = .took slot value) ∨ WasTaken turns slot := by
  simp only [WasTaken, List.mem_cons, exists_or, eq_comm]

/-- The slots that are open after a slot has been handed out are that one and those before. -/
theorem lt_size_take_iff (sound : slab.Sound) (fresh : α) {other : Nat} :
    other < (slab.take fresh).2.size ↔ other = (slab.take fresh).1 ∨ other < slab.size := by
  rw [size_take sound]
  rcases sound with ⟨free, threaded⟩
  have counted := threaded.counted
  cases free with
  | nil =>
      rw [List.length_nil] at counted
      rw [(threaded.take_nil fresh).1]
      omega
  | cons slot rest =>
      have inside := threaded.lt_size List.mem_cons_self
      rw [List.length_cons] at counted
      rw [(threaded.take_cons fresh).1]
      omega

/-! ## What one turn keeps -/

/-- A slab whose slots and links are what its turns made of them. -/
structure Recalls (slab : Slab α) (turns : List (Turn α)) : Prop where
  holds : forall slot, slab.get? slot = heldBy turns slot
  opened : forall slot, slot < slab.size ↔ WasTaken turns slot
  threaded : ∃ free, Threaded slab free ∧
    free.Pairwise fun later earlier => freedAt turns earlier < freedAt turns later

/-- A call that takes nothing back that is not in use. -/
def Allowed (slab : Slab α) : Request α -> Prop
  | .take _ | .grow .. => True
  | .release slot => (slab.get? slot).isSome = true

/-- Calls each of which is allowed when its turn comes. -/
def Orderly : Slab α -> List (Request α) -> Prop
  | _, [] => True
  | slab, request :: rest => Allowed slab request ∧ Orderly (slab.perform request).1 rest

instance Allowed.decidable (slab : Slab α) : (request : Request α) -> Decidable (Allowed slab request)
  | .take _ | .grow .. => inferInstanceAs (Decidable True)
  | .release slot => inferInstanceAs (Decidable ((slab.get? slot).isSome = true))

instance Orderly.decidable :
    (slab : Slab α) -> (requests : List (Request α)) -> Decidable (Orderly slab requests)
  | _, [] => inferInstanceAs (Decidable True)
  | slab, request :: rest =>
      have := Orderly.decidable (slab.perform request).1 rest
      inferInstanceAs (Decidable (Allowed slab request ∧ Orderly (slab.perform request).1 rest))

namespace Recalls

variable {turns : List (Turn α)}

theorem sound (recalls : Recalls slab turns) : slab.Sound := by
  rcases recalls.threaded with ⟨free, threaded, _⟩
  exact ⟨free, threaded⟩

theorem empty : Recalls (Slab.empty : Slab α) [] where
  holds _ := rfl
  opened slot := by simp [WasTaken, Slab.empty, size]
  threaded := ⟨[], threaded_empty, List.Pairwise.nil⟩

theorem take (recalls : Recalls slab turns) (value : α) :
    Recalls (slab.take value).2 (.took (slab.take value).1 value :: turns) where
  holds other := by
    rw [heldBy]
    split
    · rename_i same
      rw [same, get?_take_self]
    · rename_i different
      rw [get?_take_of_ne slab value different, recalls.holds]
  opened other := by
    rw [lt_size_take_iff recalls.sound, wasTaken_cons, ← recalls.opened]
    simp only [Turn.took.injEq, exists_eq_right', eq_comm]
  threaded := by
    rcases recalls.threaded with ⟨free, threaded, inOrder⟩
    cases free with
    | nil => exact ⟨[], (threaded.take_nil value).2, List.Pairwise.nil⟩
    | cons slot rest =>
        exact ⟨rest, (threaded.take_cons value).2, (List.pairwise_cons.mp inOrder).2⟩

theorem release (recalls : Recalls slab turns) (used : (slab.get? slot).isSome = true) :
    Recalls (slab.release slot) (.gave slot :: turns) where
  holds other := by
    rw [heldBy]
    split
    · rename_i same
      rw [same, get?_release_self]
    · rename_i different
      rw [get?_release_of_ne slab different, recalls.holds]
  opened other := by
    rw [size_release, wasTaken_cons, recalls.opened]
    simp
  threaded := by
    rcases recalls.threaded with ⟨free, threaded, inOrder⟩
    rcases Option.isSome_iff_exists.mp used with ⟨value, held⟩
    have different : ∀ other ∈ free, other ≠ slot := fun other listed same =>
      (threaded.isSome_get?_iff.mp used).2 (same ▸ listed)
    refine ⟨slot :: free, threaded.release held, List.pairwise_cons.mpr ⟨?_, ?_⟩⟩
    · intro other listed
      exact freedAt_gave_lt (different other listed) turns
    · apply inOrder.imp_of_mem
      intro later earlier listed listedToo less
      rw [freedAt, freedAt, if_neg (different later listed), if_neg (different earlier listedToo)]
      exact less

theorem grown (recalls : Recalls slab turns) (wanted least : Nat) :
    Recalls (slab.grown wanted least) (.grew :: turns) where
  holds := recalls.holds
  opened other := by
    have same : (slab.grown wanted least).size = slab.size := rfl
    rw [same, wasTaken_cons, recalls.opened]
    simp
  threaded := by
    rcases recalls.threaded with ⟨free, threaded, inOrder⟩
    have kept : Threaded (slab.grown wanted least) free :=
      ⟨threaded.linked, threaded.distinct, threaded.complete, threaded.counted⟩
    exact ⟨free, kept, inOrder⟩

theorem perform (recalls : Recalls slab turns) {request : Request α} (allowed : Allowed slab request) :
    Recalls (slab.perform request).1 ((slab.perform request).2 :: turns) := by
  cases request with
  | take value => exact recalls.take value
  | release slot => exact recalls.release allowed
  | grow wanted least => exact recalls.grown wanted least

/-- A run keeps what each of its turns keeps. -/
theorem served (recalls : Recalls slab turns) {requests : List (Request α)}
    (orderly : Orderly slab requests) :
    Recalls (served Slab.perform slab requests).1
      ((AdaptiveRadix.served Slab.perform slab requests).2.reverse ++ turns) := by
  induction requests generalizing slab turns with
  | nil => exact recalls
  | cons request rest inductionHypothesis =>
      have later := inductionHypothesis (recalls.perform orderly.1) orderly.2
      simpa only [AdaptiveRadix.served, List.reverse_cons, List.append_assoc,
        List.singleton_append] using later

end Recalls

/-! ## What is in use -/

/-- A call takes away what a slot holds only by taking the slot back. -/
theorem get?_perform (sound : slab.Sound) (held : slab.get? slot = some value) {request : Request α}
    (other : request ≠ .release slot) : (slab.perform request).1.get? slot = some value := by
  cases request with
  | take fresh =>
      have apart : slot ≠ (slab.take fresh).1 := by
        rintro rfl
        rw [get?_take_fresh sound] at held
        cases held
      exact (get?_take_of_ne slab fresh apart).trans held
  | release another =>
      have apart : slot ≠ another := fun same => other (congrArg Request.release same.symm)
      exact (get?_release_of_ne slab apart).trans held
  | grow wanted least => exact held

theorem sound_perform (sound : slab.Sound) (request : Request α) : (slab.perform request).1.Sound := by
  cases request with
  | take value => exact sound_take sound value
  | release slot => exact sound_release sound slot
  | grow wanted least => exact sound_grown sound wanted least

theorem get?_served (sound : slab.Sound) (held : slab.get? slot = some value)
    {requests : List (Request α)} (kept : .release slot ∉ requests) :
    (served perform slab requests).1.get? slot = some value := by
  induction requests generalizing slab with
  | nil => exact held
  | cons request rest inductionHypothesis =>
      rw [List.mem_cons, not_or] at kept
      have next := get?_perform sound held (Ne.symm kept.1)
      exact inductionHypothesis (sound_perform sound request) next kept.2

/-! ## All of it -/

/-- The vacant slots as the links lead from one to the next: each of them once, the one freed
last at the head, and no link behind the last. -/
structure FreeList (slab : Slab α) (turns : List (Turn α)) (free : List Nat) : Prop where
  linked : Linked slab.slots slab.firstFree? free
  distinct : free.Nodup
  mem_iff : forall {slot}, slot ∈ free ↔ slot < slab.size ∧ slab.get? slot = none
  last_first : free.Pairwise fun later earlier => freedAt turns earlier < freedAt turns later

/-- The slot that is handed out next. -/
structure Next (slab : Slab α) (turns : List (Turn α)) (value : α) : Prop where
  unused : slab.get? (slab.take value).1 = none
  /-- A slot that waits is not passed over for a new one, nor for one freed before it. -/
  last_freed : forall {slot}, slot < slab.size -> slab.get? slot = none ->
    slot ≠ (slab.take value).1 ->
      (slab.take value).1 < slab.size ∧ freedAt turns slot < freedAt turns (slab.take value).1
  fresh : (∀ slot < slab.size, (slab.get? slot).isSome = true) -> (slab.take value).1 = slab.size
  holds : (slab.take value).2.get? (slab.take value).1 = some value
  others : ∀ other ≠ (slab.take value).1, (slab.take value).2.get? other = slab.get? other

/-- The tests that a slab makes on itself and on its callers. -/
structure Passes (slab : Slab α) : Prop where
  read : forall {slot value}, slab.get? slot = some value -> slab.checkedRead slot = .ok value
  take : (slab.firstFree? = none -> slab.size < mostSlots ∧ slab.size < slab.capacity) ->
    forall value, slab.checkedTake value = .ok (slab.take value)
  release : forall {slot}, (slab.get? slot).isSome = true ->
    slab.checkedRelease slot = .ok (slab.release slot)

/-- A slab that goes by its turns. -/
structure Follows (slab : Slab α) (turns : List (Turn α)) : Prop where
  freeList : ∃ free, FreeList slab turns free
  live_eq : slab.live = (List.range slab.size).countP fun slot => (slab.get? slot).isSome
  holds : forall slot, slab.get? slot = heldBy turns slot
  opened : forall slot, slot < slab.size ↔ WasTaken turns slot
  next : forall value, Next slab turns value
  released : forall slot, (slab.release slot).get? slot = none ∧
    ∀ other ≠ slot, (slab.release slot).get? other = slab.get? other
  passes : Passes slab
  lasting : forall {slot value}, slab.get? slot = some value ->
    forall requests : List (Request α), .release slot ∉ requests ->
      (served perform slab requests).1.get? slot = some value

theorem Threaded.freeList {free : List Nat} (threaded : Threaded slab free) {turns : List (Turn α)}
    (inOrder : free.Pairwise fun later earlier => freedAt turns earlier < freedAt turns later) :
    FreeList slab turns free where
  linked := threaded.linked
  distinct := threaded.distinct
  mem_iff := by
    intro slot
    constructor
    · intro listed
      exact ⟨threaded.lt_size listed, threaded.get?_of_mem listed⟩
    · rintro ⟨inside, unused⟩
      by_contra unlisted
      have used := threaded.isSome_get?_iff.mpr ⟨inside, unlisted⟩
      rw [unused] at used
      cases used
  last_first := inOrder

theorem FreeList.next {free : List Nat} {turns : List (Turn α)} (threaded : Threaded slab free)
    (list : FreeList slab turns free) (value : α) : Next slab turns value where
  unused := get?_take_fresh ⟨free, threaded⟩ value
  last_freed := by
    intro slot inside unused different
    have waits : slot ∈ free := list.mem_iff.mpr ⟨inside, unused⟩
    cases free with
    | nil => cases waits
    | cons head rest =>
        rw [(threaded.take_cons value).1] at different ⊢
        have later : slot ∈ rest := List.mem_of_ne_of_mem different waits
        exact ⟨threaded.lt_size List.mem_cons_self, List.rel_of_pairwise_cons list.last_first later⟩
  fresh := by
    intro used
    cases free with
    | nil => exact (threaded.take_nil value).1
    | cons head rest =>
        rcases list.mem_iff.mp List.mem_cons_self with ⟨inside, unused⟩
        have taken := used head inside
        rw [unused] at taken
        cases taken
  holds := get?_take_self slab value
  others _ different := get?_take_of_ne slab value different

theorem Sound.passes (sound : slab.Sound) : Passes slab where
  read used := checkedRead_of_used used
  take fits value := checkedTake_of_sound sound fits value
  release used := by
    rcases Option.isSome_iff_exists.mp used with ⟨value, held⟩
    exact checkedRelease_of_used sound held

theorem Threaded.live_eq {free : List Nat} (threaded : Threaded slab free) :
    slab.live = (List.range slab.size).countP fun slot => (slab.get? slot).isSome := by
  rw [List.countP_eq_length_filter]
  apply (threaded.length_eq_live (List.nodup_range.filter _) ?_).symm
  intro slot
  rw [List.mem_filter, List.mem_range]
  exact ⟨And.right, fun used => ⟨(threaded.isSome_get?_iff.mp used).1, used⟩⟩

theorem Recalls.follows {turns : List (Turn α)} (recalls : Recalls slab turns) :
    Follows slab turns := by
  rcases recalls.threaded with ⟨free, threaded, inOrder⟩
  have list := threaded.freeList inOrder
  exact {
    freeList := ⟨free, list⟩
    live_eq := threaded.live_eq
    holds := recalls.holds
    opened := recalls.opened
    next := list.next threaded
    released := fun slot => ⟨get?_release_self slab slot, fun _ => get?_release_of_ne slab⟩
    passes := recalls.sound.passes
    lasting := fun held _ => get?_served recalls.sound held }

/-- Whatever was handed out and taken back, a slab goes by its turns. -/
theorem follows_turns {requests : List (Request α)} (orderly : Orderly empty requests) :
    Follows (served perform empty requests).1 (served perform empty requests).2.reverse := by
  have recalls := Recalls.empty.served orderly
  rw [List.append_nil] at recalls
  exact recalls.follows

/-- Two slots wait, one of them is handed out again, and two more are taken back. -/
def backAndForth : List (Request Nat) :=
  [.take 10, .take 11, .take 12, .release 0, .release 2, .take 13, .release 1, .grow 4 0, .release 2]

theorem follows_turns_backAndForth :
    Orderly empty backAndForth ∧
      Follows (served perform empty backAndForth).1
        (served perform empty backAndForth).2.reverse := by
  have orderly : Orderly empty backAndForth := by decide +kernel
  exact ⟨orderly, follows_turns orderly⟩

end Slab
end AdaptiveRadix
