import AdaptiveRadix.Node.SortedRun

namespace AdaptiveRadix

/-!
# Direct tables

The layout of the largest class: one slot for each chunk, and four words of 64 bits
that say which chunks have an entry.  Presence is a bit and not a property of the
slot, so a present value is told from an absent one whatever it is; a removed value
stays in its slot, unseen.

A traversal takes the lowest set bit of a word, clears it, and goes on while the word
is not zero.  Clearing a bit makes the word smaller, so the walk ends.
-/

/-- A presence bitmap of four words, and one slot for each chunk. -/
@[ext]
structure Direct (α : Type) where
  present : Vector UInt64 4
  slots : Vector α 256

namespace Direct

variable {α : Type}

def vacant [Inhabited α] : Direct α :=
  ⟨Vector.replicate 4 0, Vector.replicate 256 default⟩

/-- The positions of the set bits of a word, lowest first. -/
def setBits (word : UInt64) : List Nat :=
  if word = 0 then []
  else word.toBitVec.ctz.toNat :: setBits (word &&& (word - 1))
termination_by word.toNat
decreasing_by
  rename_i nonzero
  have positive : 1 ≤ word := by
    rw [UInt64.le_iff_toNat_le]
    have : word.toNat ≠ 0 := fun zero => nonzero (UInt64.toNat_inj.mp zero)
    exact Nat.one_le_iff_ne_zero.mpr this
  have below : (word - 1).toNat = word.toNat - 1 := UInt64.toNat_sub_of_le _ _ positive
  have bounded : (word &&& (word - 1)).toNat ≤ word.toNat - 1 := by
    rw [UInt64.toNat_and, below]
    exact Nat.and_le_right
  have : 1 ≤ word.toNat := positive
  omega

/-- The word of the bitmap that holds the bit of a chunk. -/
def word (chunk : Chunk) : Fin 4 :=
  ⟨chunk.toNat / 64, Nat.div_lt_of_lt_mul chunk.toNat_lt⟩

/-- The bit of a chunk in its word. -/
def bit (chunk : Chunk) : UInt64 :=
  1 <<< (chunk.toUInt64 % 64)

/-- One word of the bitmap. -/
def wordAt (table : Direct α) (index : Fin 4) : UInt64 :=
  table.present[index]

def contains (table : Direct α) (chunk : Chunk) : Bool :=
  table.wordAt (word chunk) &&& bit chunk != 0

def get? (table : Direct α) (chunk : Chunk) : Option α :=
  if table.contains chunk then some table.slots[chunk.toFin] else none

def insert (table : Direct α) (chunk : Chunk) (value : α) : Direct α :=
  { present := table.present.set (word chunk) (table.wordAt (word chunk) ||| bit chunk)
    slots := table.slots.set chunk.toFin value }

/-- Give the entry of a chunk another value. -/
def replace (table : Direct α) (chunk : Chunk) (value : α) : Direct α :=
  if table.contains chunk then { table with slots := table.slots.set chunk.toFin value } else table

def erase (table : Direct α) (chunk : Chunk) : Direct α :=
  if table.contains chunk then
    { table with
      present := table.present.set (word chunk) (table.wordAt (word chunk) &&& ~~~bit chunk) }
  else table

/-- The entries in ascending chunk order; the position of an entry is its chunk. -/
def entries (table : Direct α) : List (Entry α) :=
  (List.finRange 4).flatMap fun word =>
    (setBits (table.wordAt word)).filterMap fun bit =>
      let place := word.val * 64 + bit
      table.slots[place]?.map fun value => ⟨place, UInt8.ofNat place, value⟩

end Direct
end AdaptiveRadix
