import AdaptiveRadix.Key

namespace AdaptiveRadix

/-!
# Tuples and their marks

A tuple lies in a block of a heap, at an offset.  Both are packed into one number,
the offset in the low bits and the block above it.  The low six bits of that number
choose a bit of a 64-bit word and the rest is the key of the word, so the tuples of
one block share a handful of keys.
-/

/-- Where a tuple lies. -/
structure TupleId where
  block : UInt32
  offset : UInt16
deriving DecidableEq, Repr

/-- Bits of the word under one key. -/
structure Mark where
  key : Key
  bits : UInt64
deriving DecidableEq, Repr

namespace Mark

/-- The mark of one packed number. -/
def ofPacked (packed : UInt64) : Mark :=
  ⟨packed >>> 6, 1 <<< (packed &&& 63)⟩

/-- Marks in ascending order, by key and then by bits. -/
def precedes (first second : Mark) : Bool :=
  first.key < second.key || (first.key == second.key && first.bits ≤ second.bits)

/-- Neighbouring marks under one key joined into one. -/
def joined : List Mark -> List Mark
  | [] => []
  | mark :: rest =>
      match joined rest with
      | next :: others =>
          if next.key = mark.key then ⟨mark.key, mark.bits ||| next.bits⟩ :: others
          else mark :: next :: others
      | [] => [mark]

end Mark

namespace TupleId

/-- The mark of a tuple when offsets take `offsetBits` bits, if its offset does. -/
def mark? (tuple : TupleId) (offsetBits : Nat) : Option Mark :=
  if tuple.offset.toNat < 1 <<< offsetBits then
    some (Mark.ofPacked (tuple.block.toUInt64 <<< offsetBits.toUInt64 ||| tuple.offset.toUInt64))
  else none

-- With nine bits a block starts a new key every 64 offsets, and 512 is one too many.
example : mark? ⟨0, 65⟩ 9 = some ⟨1, 2⟩ := by decide

example : mark? ⟨1, 0⟩ 9 = some ⟨8, 1⟩ := by decide

example : mark? ⟨0, 512⟩ 9 = none := by decide

end TupleId
end AdaptiveRadix
