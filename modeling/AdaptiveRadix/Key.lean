namespace AdaptiveRadix

/-!
# Keys and their chunks

A key is a 64-bit word, read eight bits at a time.  The chunk at level 0 is the
lowest byte and decides among the entries of a leaf; the chunk at level 7 is the
highest byte a key has.  A tree whose root sits at level `n` tells apart exactly
the keys up to `Key.bound n`, and `Key.topLevel` names the least level at which a
root can sit so that the key fits below it.

The text forms of this library speak of the *shift* of a level: the number of key
bits that the levels below it decide.
-/

/-- Keys are machine words; arithmetic on them wraps. -/
abbrev Key := UInt64

/-- The slice of a key that one level looks at. -/
abbrev Chunk := UInt8

namespace Key

/-- Key bits decided by one level. -/
def chunkBits : Nat := 8

/-- The highest level a key has a chunk for. -/
def maxLevel : Nat := 7

/-- Key bits decided by the levels below `level`. -/
def shift (level : Nat) : Nat :=
  chunkBits * level

/-- The slice of `key` that selects an entry in a node at `level`. -/
def chunk (key : Key) (level : Nat) : Chunk :=
  UInt8.ofNat (key.toNat >>> shift level)

/-- The part of a key that `chunk` contributes at `level`. -/
def placed (chunk : Chunk) (level : Nat) : Key :=
  UInt64.ofNat (chunk.toNat <<< shift level)

/-- Fix the chunk at `level` of a key whose higher chunks are known already. -/
def extend (partialKey : Key) (chunk : Chunk) (level : Nat) : Key :=
  partialKey ||| placed chunk level

/-- The largest key that fits below a root at `level`. -/
def bound (level : Nat) : Key :=
  UInt64.ofNat (1 <<< shift (level + 1) - 1)

/-- The level of the highest chunk of `key` that is not zero, or 0. -/
def topLevel (key : Key) : Nat :=
  key.toNat.log2 / chunkBits

/-- No key needs a root above the highest level. -/
theorem topLevel_le_maxLevel (key : Key) : key.topLevel ≤ maxLevel := by
  have small : key.toNat < 2 ^ 64 := key.toNat_lt
  by_cases zero : key.toNat = 0
  · simp only [topLevel, zero]
    decide
  · have bits : key.toNat.log2 < 64 := (Nat.log2_lt zero).mpr small
    simp only [topLevel, chunkBits, maxLevel]
    omega

end Key

end AdaptiveRadix
