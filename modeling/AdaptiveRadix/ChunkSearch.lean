import AdaptiveRadix.Key

namespace AdaptiveRadix
namespace ChunkSearch

/-!
# Searching chunk sequences

Nodes of the smaller classes keep their chunks in one fixed array of which only
the leading `count` places mean anything.  Both searches look at those places
alone and answer with the first match, so they are defined for every sequence,
sorted or not; on a strictly ascending one the insertion point is the number of
chunks below the needle.

Machines with vector registers compare all places of the wider arrays at once,
those past the count too.  A comparison leaves one bit for each place, and the
bits from the count on are cleared before anything is read from them.
-/

/-- The leading `count` chunks, if there are that many. -/
def leading? (chunks : List Chunk) (count : Nat) : Option (List Chunk) :=
  if count ≤ chunks.length then some (chunks.take count) else none

/-- The first position that holds `needle`. -/
def position? (chunks : List Chunk) (needle : Chunk) : Option Nat :=
  chunks.findIdx? (· == needle)

/-- The first position whose chunk is not below `needle`, or the length when
every chunk is below it. -/
def insertionPoint (chunks : List Chunk) (needle : Chunk) : Nat :=
  chunks.findIdx (needle ≤ ·)

theorem insertionPoint_le_length (chunks : List Chunk) (needle : Chunk) :
    insertionPoint chunks needle ≤ chunks.length :=
  List.findIdx_le_length

theorem position?_lt_length {chunks : List Chunk} {needle : Chunk} {position : Nat}
    (found : position? chunks needle = some position) : position < chunks.length :=
  (List.findIdx?_eq_some_iff_getElem.mp found).1

/-! ## With vector registers -/

/-- The registers of a machine: none for bytes, or some for sixteen or for thirty-two of them. -/
inductive Registers where
  | none
  | sixteen
  | thirtyTwo
deriving DecidableEq, Repr

/-- What is asked of a chunk. -/
inductive Comparison where
  | equal
  | atLeast
deriving DecidableEq, Repr

/-- In each lane all bits where two registers have the same byte, and no bit elsewhere. -/
def equalLanes (first second : List UInt8) : List UInt8 :=
  List.zipWith (fun one other => if one = other then 0xFF else 0) first second

/-- The highest bit of each lane, in the order of the lanes from the lowest bit on. -/
def highBits : List UInt8 -> UInt32
  | [] => 0
  | lane :: rest => (lane >>> 7).toUInt32 ||| highBits rest <<< 1

/-- The lanes of a register for which a comparison holds.  There is no comparison by order:
a chunk is at least the needle when the smaller of the two is the needle. -/
def Comparison.lanes (chunks : List Chunk) (needle : Chunk) : Comparison -> List UInt8
  | equal => equalLanes (List.replicate chunks.length needle) chunks
  | atLeast =>
      equalLanes (List.replicate chunks.length needle)
        (List.zipWith min chunks (List.replicate chunks.length needle))

def Comparison.mask16 (comparison : Comparison) (chunks : List Chunk) (needle : Chunk) : UInt32 :=
  highBits (comparison.lanes (chunks.take 16) needle) &&& 0xFFFF

/-- Thirty-two lanes in one register, or in two halves. -/
def Comparison.mask32 (comparison : Comparison) (registers : Registers) (chunks : List Chunk)
    (needle : Chunk) : UInt32 :=
  match registers with
  | .thirtyTwo => highBits (comparison.lanes (chunks.take 32) needle)
  | _ => comparison.mask16 (chunks.take 16) needle |||
      comparison.mask16 (chunks.drop 16) needle <<< 16

/-- The bits of the places below the count. -/
def countMask (count : Nat) : UInt32 :=
  if 32 ≤ count then 0xFFFFFFFF else (1 <<< count.toUInt32) - 1

/-- The places below the count for which a comparison holds. -/
def Comparison.hits (comparison : Comparison) (registers : Registers) (chunks : List Chunk)
    (count : Nat) (needle : Chunk) : UInt32 :=
  (if chunks.length = 16 then comparison.mask16 chunks needle
    else comparison.mask32 registers chunks needle) &&& countMask count

/-- The place of the lowest bit. -/
def lowest? (hits : UInt32) : Option Nat :=
  if hits = 0 then none else some hits.toBitVec.ctz.toNat

/-- The first of the leading places of a whole array that holds `needle`.  Arrays of sixteen and
of thirty-two are searched in registers where the machine has them. -/
def findEqual (registers : Registers) (chunks : List Chunk) (count : Nat) (needle : Chunk) :
    Option Nat :=
  if registers ≠ .none ∧ (chunks.length = 16 ∨ chunks.length = 32) then
    lowest? (Comparison.equal.hits registers chunks count needle)
  else position? (chunks.take count) needle

/-- The first of the leading places of a whole array whose chunk is not below `needle`, or
their number. -/
def findInsertionPoint (registers : Registers) (chunks : List Chunk) (count : Nat)
    (needle : Chunk) : Nat :=
  if registers ≠ .none ∧ (chunks.length = 16 ∨ chunks.length = 32) then
    (lowest? (Comparison.atLeast.hits registers chunks count needle)).getD count
  else insertionPoint (chunks.take count) needle

end ChunkSearch
end AdaptiveRadix
