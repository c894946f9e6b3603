import AdaptiveRadix.Node.Indexed
import Mathlib

namespace AdaptiveRadix
namespace Indexed

/-!
# Indexed tables as finite maps

The table of offsets is an injection from the chunks with an entry onto the slots
whose bit is set.  This is what keeps an insertion away from every slot that is still
referred to, in whatever order slots were freed before, and what makes sure that a
free slot is found as long as fewer than 128 chunks have an entry.
-/

variable {α : Type}

/-- Offsets and bitmap tell the same story. -/
structure Valid (table : Indexed α) : Prop where
  bounded : forall {chunk : Chunk} {offset : Nat}, table.offset? chunk = some offset -> offset < 128
  injective : forall {first second : Chunk} {offset : Nat}, table.offset? first = some offset ->
    table.offset? second = some offset -> first = second
  used_iff : forall slot : Fin 128,
    table.isUsed slot = true ↔ ∃ chunk, table.offset? chunk = some slot.val

/-! ## Chunks and places -/

private theorem ofNat_toNat_chunk (chunk : Chunk) : UInt8.ofNat chunk.toNat = chunk :=
  UInt8.ofNat_toNat

theorem offset?_set (table : Indexed α) (chunk other : Chunk) (offset : UInt8)
    (used : BitVec 128) (slots : Vector α 128) :
    offset? ⟨table.offsets.set chunk.toFin offset chunk.toFin.isLt, used, slots⟩ other =
      if other = chunk then (if offset = absent then none else some offset.toNat)
      else table.offset? other := by
  by_cases same : other = chunk
  · subst other
    simp [offset?, Vector.get_eq_getElem]
  · have apart : chunk.toNat ≠ other.toNat := fun clash => same (UInt8.toNat_inj.mp clash).symm
    simp [offset?, Vector.get_eq_getElem, same, apart]

/-- A value is found exactly when the chunk has an offset into the slots. -/
theorem get?_eq_some_iff (table : Indexed α) {chunk : Chunk} {value : α} :
    table.get? chunk = some value ↔
      ∃ offset, table.offset? chunk = some offset ∧ table.slots[offset]? = some value := by
  rw [get?, Option.bind_eq_some_iff]

theorem exists_offset {table : Indexed α} {chunk : Chunk} {value : α}
    (found : table.get? chunk = some value) : ∃ offset, table.offset? chunk = some offset := by
  rcases (get?_eq_some_iff table).mp found with ⟨offset, located, _⟩
  exact ⟨offset, located⟩

theorem offset?_eq_none {table : Indexed α} (valid : table.Valid) {chunk : Chunk}
    (missed : table.get? chunk = none) : table.offset? chunk = none := by
  cases located : table.offset? chunk with
  | none => rfl
  | some offset =>
      have bound := valid.bounded located
      simp [get?, located, bound] at missed

/-! ## Traversal -/

/-- A traversal meets exactly the chunks with a value. -/
theorem mem_entries_iff (table : Indexed α) {entry : Entry α} :
    entry ∈ table.entries ↔
      table.offset? entry.chunk = some entry.position ∧
        table.slots[entry.position]? = some entry.value := by
  simp only [entries, List.mem_filterMap, List.mem_finRange, true_and, Option.bind_eq_some_iff,
    Option.map_eq_some_iff]
  constructor
  · intro met
    rcases met with ⟨place, offset, located, value, held, rfl⟩
    exact ⟨located, held⟩
  · intro located
    refine ⟨entry.chunk.toFin, entry.position, ?_, entry.value, located.2, ?_⟩
    · exact (congrArg table.offset? (ofNat_toNat_chunk entry.chunk)).trans located.1
    · have back : UInt8.ofNat entry.chunk.toFin.val = entry.chunk := ofNat_toNat_chunk entry.chunk
      rw [back]

theorem entries_ascending (table : Indexed α) :
    (table.entries.map Entry.chunk).Pairwise (· < ·) := by
  rw [List.pairwise_map, entries, List.pairwise_filterMap]
  apply (List.pairwise_lt_finRange 256).imp
  intro first second less before met after metAfter
  simp only [Option.bind_eq_some_iff, Option.map_eq_some_iff] at met metAfter
  rcases met with ⟨_, _, _, _, rfl⟩
  rcases metAfter with ⟨_, _, _, _, rfl⟩
  rw [UInt8.lt_iff_toNat_lt, UInt8.toNat_ofNat', UInt8.toNat_ofNat',
    Nat.mod_eq_of_lt first.isLt, Nat.mod_eq_of_lt second.isLt]
  exact less

/-- No slot serves two chunks. -/
theorem nodup_positions {table : Indexed α} (valid : table.Valid) :
    (table.entries.map Entry.position).Nodup := by
  apply List.Nodup.map_on _ (table.entries_ascending.nodup.of_map Entry.chunk)
  intro first met second metToo same
  rcases (mem_entries_iff table).mp met with ⟨located, held⟩
  rcases (mem_entries_iff table).mp metToo with ⟨locatedToo, heldToo⟩
  have chunks : first.chunk = second.chunk := valid.injective located (same ▸ locatedToo)
  rw [same, heldToo] at held
  rcases first with ⟨position, chunk, value⟩
  rcases second with ⟨_, _, _⟩
  cases same
  cases chunks
  cases Option.some.inj held
  rfl

/-- So there are no more entries than slots. -/
theorem length_entries_le {table : Indexed α} (valid : table.Valid) :
    table.entries.length ≤ 128 := by
  have covered : table.entries.map Entry.position ⊆ List.range 128 := by
    intro position listed
    rcases List.mem_map.mp listed with ⟨entry, met, rfl⟩
    exact List.mem_range.mpr (valid.bounded ((mem_entries_iff table).mp met).1)
  have few := (List.subperm_of_subset (nodup_positions valid) covered).length_le
  simpa using few

/-- As many slots are marked as in use as there are entries. -/
theorem countP_isUsed {table : Indexed α} (valid : table.Valid) :
    (List.finRange 128).countP table.isUsed = table.entries.length := by
  have slots : (((List.finRange 128).filter table.isUsed).map Fin.val).Nodup :=
    ((List.nodup_finRange 128).filter _).map Fin.val_injective
  have same : (((List.finRange 128).filter table.isUsed).map Fin.val).Perm
      (table.entries.map Entry.position) := by
    rw [List.perm_ext_iff_of_nodup slots (nodup_positions valid)]
    intro position
    simp only [List.mem_map, List.mem_filter, List.mem_finRange, true_and]
    constructor
    · intro marked
      rcases marked with ⟨slot, used, rfl⟩
      rcases (valid.used_iff slot).mp used with ⟨chunk, located⟩
      have held : table.slots[slot.val]? = some table.slots[slot.val] := by simp
      exact ⟨⟨slot.val, chunk, table.slots[slot.val]⟩,
        (mem_entries_iff table).mpr ⟨located, held⟩, rfl⟩
    · intro met
      rcases met with ⟨entry, listed, rfl⟩
      have located := ((mem_entries_iff table).mp listed).1
      exact ⟨⟨entry.position, valid.bounded located⟩,
        (valid.used_iff _).mpr ⟨entry.chunk, located⟩, rfl⟩
  rw [List.countP_eq_length_filter, ← List.length_map Fin.val, same.length_eq, List.length_map]

/-! ## Insertion -/

/-- The lowest free slot is free, and there is one while fewer than 128 chunks have an entry. -/
theorem used_of_lowestFree? {table : Indexed α} {slot : Fin 128}
    (free : table.lowestFree? = some slot) : table.isUsed slot = false := by
  have vacant := List.find?_some free
  simpa using vacant

theorem exists_lowestFree? {table : Indexed α} (valid : table.Valid)
    (room : table.entries.length < 128) : ∃ slot, table.lowestFree? = some slot := by
  cases found : table.lowestFree? with
  | some slot => exact ⟨slot, rfl⟩
  | none =>
      -- With no free slot the positions of the entries would cover all 128 slots.
      have covered : List.range 128 ⊆ table.entries.map Entry.position := by
        intro slot listed
        have bound : slot < 128 := List.mem_range.mp listed
        have taken : table.isUsed ⟨slot, bound⟩ = true := by
          have searched := List.find?_eq_none.mp found ⟨slot, bound⟩ (List.mem_finRange _)
          simpa using searched
        rcases (valid.used_iff ⟨slot, bound⟩).mp taken with ⟨chunk, located⟩
        have held : table.slots[slot]? = some table.slots[slot] := by simp [bound]
        exact List.mem_map.mpr
          ⟨⟨slot, chunk, table.slots[slot]⟩, (mem_entries_iff table).mpr ⟨located, held⟩, rfl⟩
      have many := (List.subperm_of_subset List.nodup_range covered).length_le
      simp only [List.length_range, List.length_map] at many
      omega

private theorem ofNat_slot (slot : Fin 128) :
    UInt8.ofNat slot.val ≠ absent ∧ (UInt8.ofNat slot.val).toNat = slot.val := by
  have small : (UInt8.ofNat slot.val).toNat = slot.val := by
    rw [UInt8.toNat_ofNat']
    exact Nat.mod_eq_of_lt (Nat.lt_trans slot.isLt (by decide))
  refine ⟨?_, small⟩
  intro clash
  have top : slot.val = 255 := by
    rw [← small, clash]
    rfl
  omega

theorem offset?_insert {table : Indexed α} {slot : Fin 128}
    (free : table.lowestFree? = some slot) (chunk : Chunk) (value : α) (other : Chunk) :
    (table.insert chunk value).offset? other =
      if other = chunk then some slot.val else table.offset? other := by
  rcases ofNat_slot slot with ⟨present, number⟩
  rw [insert, free, offset?_set, if_neg present, number]

theorem used_insert {table : Indexed α} {slot : Fin 128} (free : table.lowestFree? = some slot)
    (chunk : Chunk) (value : α) (place : Fin 128) :
    (table.insert chunk value).isUsed place = (table.isUsed place || decide (place = slot)) := by
  rw [insert, free]
  simp only [isUsed, Fin.getElem_fin, BitVec.getElem_or, BitVec.getElem_shiftLeft, BitVec.getElem_one]
  by_cases same : place = slot
  · subst same
    simp
  · have apart : place.val ≠ slot.val := fun clash => same (Fin.ext clash)
    have shifted : (!decide (place.val < slot.val) && decide (place.val - slot.val = 0)) = false := by
      simp only [Bool.and_eq_false_iff, Bool.not_eq_false', decide_eq_true_eq, decide_eq_false_iff_not]
      omega
    rw [shifted, decide_eq_false same]

theorem valid_insert {table : Indexed α} (valid : table.Valid) {slot : Fin 128}
    (free : table.lowestFree? = some slot) {chunk : Chunk} (missed : table.offset? chunk = none)
    (value : α) : (table.insert chunk value).Valid := by
  have vacant := used_of_lowestFree? free
  have unnamed : forall other, table.offset? other ≠ some slot.val := by
    intro other located
    rw [(valid.used_iff slot).mpr ⟨other, located⟩] at vacant
    cases vacant
  constructor
  · intro other offset located
    rw [offset?_insert free] at located
    split at located
    · cases located
      exact slot.isLt
    · exact valid.bounded located
  · intro first second offset here there
    rw [offset?_insert free] at here there
    by_cases firstNew : first = chunk <;> by_cases secondNew : second = chunk
    · rw [firstNew, secondNew]
    · rw [if_pos firstNew] at here
      rw [if_neg secondNew] at there
      exact absurd (here ▸ there) (unnamed second)
    · rw [if_neg firstNew] at here
      rw [if_pos secondNew] at there
      exact absurd (there ▸ here) (unnamed first)
    · rw [if_neg firstNew] at here
      rw [if_neg secondNew] at there
      exact valid.injective here there
  · intro place
    rw [used_insert free, Bool.or_eq_true, valid.used_iff, decide_eq_true_eq]
    constructor
    · intro taken
      rcases taken with old | new
      · rcases old with ⟨other, located⟩
        refine ⟨other, ?_⟩
        have different : other ≠ chunk := by
          intro same
          rw [same, missed] at located
          cases located
        rw [offset?_insert free, if_neg different, located]
      · exact ⟨chunk, by rw [offset?_insert free, if_pos rfl, new]⟩
    · intro named
      rcases named with ⟨other, located⟩
      rw [offset?_insert free] at located
      split at located
      · exact Or.inr (Fin.ext (Option.some.inj located).symm)
      · exact Or.inl ⟨other, located⟩

theorem get?_insert {table : Indexed α} (valid : table.Valid) {slot : Fin 128}
    (free : table.lowestFree? = some slot) (chunk : Chunk) (value : α) (other : Chunk) :
    (table.insert chunk value).get? other =
      if other = chunk then some value else table.get? other := by
  have vacant := used_of_lowestFree? free
  have slots : (table.insert chunk value).slots = table.slots.set slot value := by
    rw [insert, free]
  rw [get?, offset?_insert free, slots]
  by_cases same : other = chunk
  · simp [same]
  · rw [if_neg same, if_neg same, get?]
    cases located : table.offset? other with
    | none => rfl
    | some offset =>
        have different : slot.val ≠ offset := by
          intro clash
          rw [(valid.used_iff slot).mpr ⟨other, clash ▸ located⟩] at vacant
          cases vacant
        simp [Vector.getElem?_set, different]

/-! ## Removal and replacement -/

theorem offset?_erase {table : Indexed α} {chunk : Chunk} {offset : Nat}
    (located : table.offset? chunk = some offset) (other : Chunk) :
    (table.erase chunk).offset? other = if other = chunk then none else table.offset? other := by
  rw [erase, located, offset?_set, if_pos rfl]

theorem used_erase {table : Indexed α} {chunk : Chunk} {offset : Nat}
    (located : table.offset? chunk = some offset) (place : Fin 128) :
    (table.erase chunk).isUsed place = (table.isUsed place && decide (place.val ≠ offset)) := by
  rw [erase, located]
  simp only [isUsed, Fin.getElem_fin, BitVec.getElem_and, BitVec.getElem_not, BitVec.getElem_shiftLeft,
    BitVec.getElem_one]
  by_cases same : place.val = offset
  · simp [same]
  · have shifted : (!decide (place.val < offset) && decide (place.val - offset = 0)) = false := by
      simp only [Bool.and_eq_false_iff, Bool.not_eq_false', decide_eq_true_eq, decide_eq_false_iff_not]
      omega
    rw [shifted, decide_eq_true same, Bool.not_false]

theorem valid_erase {table : Indexed α} (valid : table.Valid) {chunk : Chunk} {offset : Nat}
    (located : table.offset? chunk = some offset) : (table.erase chunk).Valid := by
  constructor
  · intro other place found
    rw [offset?_erase located] at found
    split at found
    · cases found
    · exact valid.bounded found
  · intro first second place here there
    rw [offset?_erase located] at here there
    split at here
    · cases here
    · split at there
      · cases there
      · exact valid.injective here there
  · intro place
    rw [used_erase located, Bool.and_eq_true, valid.used_iff, decide_eq_true_eq]
    constructor
    · intro kept
      rcases kept with ⟨⟨other, found⟩, different⟩
      refine ⟨other, ?_⟩
      have apart : other ≠ chunk := by
        intro same
        rw [same, located] at found
        exact different (Option.some.inj found).symm
      rw [offset?_erase located, if_neg apart, found]
    · intro named
      rcases named with ⟨other, found⟩
      rw [offset?_erase located] at found
      split at found
      · cases found
      · rename_i apart
        refine ⟨⟨other, found⟩, ?_⟩
        intro same
        exact apart (valid.injective (same ▸ found) located)

theorem get?_erase {table : Indexed α} {chunk : Chunk} {offset : Nat}
    (located : table.offset? chunk = some offset) (other : Chunk) :
    (table.erase chunk).get? other = if other = chunk then none else table.get? other := by
  have slots : (table.erase chunk).slots = table.slots := by
    rw [erase, located]
  rw [get?, offset?_erase located, slots]
  by_cases same : other = chunk
  · simp only [if_pos same, Option.bind_none]
  · rw [if_neg same, if_neg same, get?]

theorem offset?_replace (table : Indexed α) (chunk : Chunk) (value : α) (other : Chunk) :
    (table.replace chunk value).offset? other = table.offset? other := by
  unfold replace
  split <;> rfl

theorem valid_replace {table : Indexed α} (valid : table.Valid) (chunk : Chunk) (value : α) :
    (table.replace chunk value).Valid := by
  have used : (table.replace chunk value).isUsed = table.isUsed := by
    unfold replace
    split <;> rfl
  constructor
  · intro other place found
    rw [offset?_replace] at found
    exact valid.bounded found
  · intro first second place here there
    rw [offset?_replace] at here there
    exact valid.injective here there
  · intro place
    simp only [used, offset?_replace]
    exact valid.used_iff place

theorem get?_replace {table : Indexed α} (valid : table.Valid) {chunk : Chunk} {offset : Nat}
    (located : table.offset? chunk = some offset) (value : α) (other : Chunk) :
    (table.replace chunk value).get? other =
      if other = chunk then some value else table.get? other := by
  have bound := valid.bounded located
  rw [get?, offset?_replace, replace, located]
  by_cases same : other = chunk
  · subst other
    simp [located, bound]
  · rw [if_neg same, get?]
    cases found : table.offset? other with
    | none => rfl
    | some place =>
        have different : offset ≠ place := by
          intro clash
          exact same (valid.injective (clash ▸ found) located)
        simp [Vector.getElem?_setIfInBounds, different]

theorem offset?_vacant [Inhabited α] (chunk : Chunk) :
    (vacant : Indexed α).offset? chunk = none := by
  simp [vacant, offset?, Vector.get_eq_getElem]

theorem valid_vacant [Inhabited α] : (vacant : Indexed α).Valid := by
  constructor
  · intro chunk offset located
    rw [offset?_vacant] at located
    cases located
  · intro first second offset here _
    rw [offset?_vacant] at here
    cases here
  · intro slot
    have clear : (vacant : Indexed α).isUsed slot = false := by simp [isUsed, vacant]
    simp only [clear, offset?_vacant, Bool.false_eq_true, reduceCtorEq, exists_false]

end Indexed
end AdaptiveRadix
