import AdaptiveRadix.TupleSet.Mark

namespace AdaptiveRadix
namespace Benchmark

/-!
# Benchmark keys

The keys that the workloads use.  Numbers are spread over the whole key space by a
multiplication that wraps, with an odd factor, so that no two of them meet.  Tuples
are packed with nine bits for the offset; bits that do not fit in a word are lost.
-/

/-- Spread a number over the key space. -/
def hashKey (number : UInt64) : Key :=
  number * 0x9e3779b97f4a7c15

/-- The key and the bit of a tuple. -/
def tupleMark (block offset : UInt64) : Mark :=
  Mark.ofPacked (block <<< 9 ||| offset)

/-- Whether a tuple counts as dead: about every fifth one of a page does, at a phase
that depends on the page. -/
def isDead (block offset : UInt64) : Bool :=
  hashKey (block ^^^ offset <<< 32) % 5 == 0

/-- The most tuples a page holds. -/
def tuplesPerPage : Nat :=
  291

/-- The marks of the dead tuples of one block, by ascending offset. -/
def deadMarks (block : UInt64) : List Mark :=
  (List.range tuplesPerPage).filterMap fun place =>
    let offset := UInt64.ofNat (place + 1)
    if isDead block offset then some (tupleMark block offset) else none

end Benchmark
end AdaptiveRadix
