import AdaptiveRadix.Node.SortedRun

namespace AdaptiveRadix

/-!
# Indexed tables

The layout of the class with 128 slots: a table from each of the 256 chunks to the
slot that holds its value, and a bitmap of the slots in use.  Removal leaves a hole
anywhere in the slots, so a free slot is found in the bitmap and not by counting;
insertion takes the lowest one.  A removed value stays in its slot until the slot
is used again, and nothing refers to it.
-/

/-- A table of slot numbers, a bitmap of used slots, and the slots. -/
@[ext]
structure Indexed (α : Type) where
  offsets : Vector UInt8 256
  used : BitVec 128
  slots : Vector α 128

namespace Indexed

variable {α : Type}

/-- The table's mark for a chunk without a slot.  Slot numbers stay below 128, so
no slot is called that. -/
def absent : UInt8 :=
  0xFF

def vacant [Inhabited α] : Indexed α :=
  ⟨Vector.replicate 256 absent, 0, Vector.replicate 128 default⟩

/-- The slot number recorded for a chunk. -/
def offset? (table : Indexed α) (chunk : Chunk) : Option Nat :=
  let offset := table.offsets.get chunk.toFin
  if offset = absent then none else some offset.toNat

def get? (table : Indexed α) (chunk : Chunk) : Option α :=
  (table.offset? chunk).bind fun offset => table.slots[offset]?

def isUsed (table : Indexed α) (slot : Fin 128) : Bool :=
  table.used[slot]

/-- The lowest slot that is not in use. -/
def lowestFree? (table : Indexed α) : Option (Fin 128) :=
  (List.finRange 128).find? fun slot => !table.isUsed slot

/-- Put an entry for a chunk that has none into the lowest free slot. -/
def insert (table : Indexed α) (chunk : Chunk) (value : α) : Indexed α :=
  match table.lowestFree? with
  | some slot =>
      { offsets := table.offsets.set chunk.toFin (UInt8.ofNat slot.val) chunk.toFin.isLt
        used := table.used ||| 1#128 <<< slot.val
        slots := table.slots.set slot value }
  | none => table

/-- Give the entry of a chunk another value. -/
def replace (table : Indexed α) (chunk : Chunk) (value : α) : Indexed α :=
  match table.offset? chunk with
  | some offset => { table with slots := table.slots.setIfInBounds offset value }
  | none => table

/-- Forget the slot of a chunk.  The slot itself is only marked free. -/
def erase (table : Indexed α) (chunk : Chunk) : Indexed α :=
  match table.offset? chunk with
  | some offset =>
      { table with
        offsets := table.offsets.set chunk.toFin absent chunk.toFin.isLt
        used := table.used &&& ~~~(1#128 <<< offset) }
  | none => table

/-- The entries in ascending chunk order; the position of an entry is its slot. -/
def entries (table : Indexed α) : List (Entry α) :=
  (List.finRange 256).filterMap fun place =>
    let chunk := UInt8.ofNat place.val
    (table.offset? chunk).bind fun offset =>
      table.slots[offset]?.map fun value => ⟨offset, chunk, value⟩

end Indexed
end AdaptiveRadix
