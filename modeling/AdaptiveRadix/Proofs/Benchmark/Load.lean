import AdaptiveRadix.Proofs.Benchmark.Index
import AdaptiveRadix.Proofs.TupleSet.Packing

namespace AdaptiveRadix
namespace Benchmark

/-!
# Loaded indexes

What an index holds after it was loaded, whatever its kind.  For all workloads but one
these are the first numbers under their spread keys: the factor that spreads them is
odd, so it has an inverse and no two numbers meet.  For the workload that reaps they
are the dead tuples of the first blocks, bit by bit in words that several tuples share;
as long as packing loses no bit of a block, no two tuples meet either.
-/

/-! ## Numbers under spread keys -/

/-- The factor has an inverse. -/
theorem hashKey_mul_inverse (number : UInt64) : hashKey number * 0xf1de83e19937733d = number := by
  have inverse : (0x9e3779b97f4a7c15 : UInt64) * 0xf1de83e19937733d = 1 := by decide
  rw [hashKey, UInt64.mul_assoc, inverse, UInt64.mul_one]

theorem hashKey_injective : Function.Injective hashKey := by
  intro first second same
  rw [← hashKey_mul_inverse first, same, hashKey_mul_inverse]

namespace Index

/-- So far the first numbers are there under their spread keys, and nothing else is. -/
structure Spreading (index : Index) (count : Nat) : Prop where
  sound : index.Sound
  bound : forall key value,
    index.get? key = some value ↔ value.toNat < count ∧ key = hashKey value
  entries : ∀ entries ∈ index.entries?, entries = count

/-- The next number comes under a key of its own. -/
theorem Spreading.insert {index : Index} {number : UInt64}
    (spread : index.Spreading number.toNat) :
    (index.insert (hashKey number) number).Spreading (number.toNat + 1) := by
  have missed : index.get? (hashKey number) = none := by
    cases found : index.get? (hashKey number) with
    | none => rfl
    | some value =>
        rcases (spread.bound _ value).mp found with ⟨below, same⟩
        rw [hashKey_injective same] at below
        exact absurd below (Nat.lt_irrefl _)
  refine ⟨sound_insert spread.sound _ _, ?_, ?_⟩
  · intro key value
    rw [get?_insert spread.sound]
    by_cases here : key = hashKey number
    · rw [if_pos here, Option.some.injEq]
      constructor
      · intro same
        subst value
        exact ⟨Nat.lt_succ_self _, here⟩
      · intro there
        exact hashKey_injective (here.symm.trans there.2)
    · rw [if_neg here, spread.bound, Nat.lt_succ_iff_lt_or_eq]
      constructor
      · exact fun there => ⟨Or.inl there.1, there.2⟩
      · intro there
        rcases there with ⟨below | same, there⟩
        · exact ⟨below, there⟩
        · exact absurd (UInt64.toNat_inj.mp same ▸ there) here
  · intro entries reported
    rw [entries?_insert_of_missed spread.sound missed] at reported
    rcases Option.map_eq_some_iff.mp reported with ⟨before, reportedBefore, rfl⟩
    rw [spread.entries before reportedBefore]

/-- The first numbers are bound to their spread keys, and nothing else is.  So a run that reads
finds every one of them. -/
structure Spread (index : Index) (count : Nat) : Prop where
  bound : forall key value,
    index.get? key = some value ↔ value.toNat < count ∧ key = hashKey value
  found : forall number : UInt64, number.toNat < count ->
    index.get? (hashKey number) = some number
  missed : forall key, (forall number : UInt64, number.toNat < count -> key ≠ hashKey number) ->
    index.get? key = none
  entries : ∀ stats ∈ index.stats?, stats.entries = count
  readsBack : forall number : UInt64, number.toNat < count -> index.readsBack number = true

theorem Spreading.spread {index : Index} {count : Nat} (spreading : index.Spreading count) :
    index.Spread count := by
  have found : forall number : UInt64, number.toNat < count ->
      index.get? (hashKey number) = some number :=
    fun number below => (spreading.bound _ number).mpr ⟨below, rfl⟩
  refine ⟨spreading.bound, found, ?_, ?_, ?_⟩
  · intro key away
    cases present : index.get? key with
    | none => rfl
    | some value =>
        rcases (spreading.bound key value).mp present with ⟨below, same⟩
        exact absurd same (away value below)
  · intro stats reported
    exact spreading.entries stats.entries (Option.map_eq_some_iff.mpr ⟨stats, reported, rfl⟩)
  · intro number below
    rw [readsBack, found number below]
    exact beq_self_eq_true _

/-! ## Dead tuples in words -/

/-- The word under a key; no word counts as zero. -/
def word (index : Index) (key : Key) : UInt64 :=
  (index.get? key).getD 0

/-- The words of an index have these numbers, and none of them is zero. -/
structure Spells (index : Index) (numbers : Finset Nat) : Prop where
  sound : index.Sound
  words : Mark.Spells index.word numbers
  nonzero : forall key, index.get? key ≠ some 0

variable {index : Index} {numbers : Finset Nat} {mark : Mark} {number : Nat}

/-- Setting the bits of a mark adds its numbers. -/
theorem Spells.marked (spells : index.Spells numbers) (some : number ∈ mark.numbers) :
    (index.marked mark).Spells (numbers ∪ mark.numbers) where
  sound := sound_insert spells.sound _ _
  words := by
    have changed : forall other, (index.marked mark).word other =
        if other = mark.key then index.word mark.key ||| mark.bits else index.word other := by
      intro other
      rw [word, Index.marked, get?_insert spells.sound]
      split <;> rfl
    exact Mark.Spells.change spells.words changed (Mark.Spells.or spells.words mark)
      fun _ away => Mark.mem_union_elsewhere away
  nonzero := by
    intro other
    rw [Index.marked, get?_insert spells.sound]
    split
    · exact fun zero => Mark.Spells.or_ne_zero spells.words some (Option.some.inj zero)
    · exact spells.nonzero other

end Index

/-- A block that is not too large loses no bit when it is packed. -/
theorem toNat_packedTuple {block offset : UInt64} (narrow : block.toNat < 2 ^ 55)
    (fits : offset.toNat < 2 ^ 9) :
    (block <<< 9 ||| offset).toNat = 2 ^ 9 * block.toNat + offset.toNat := by
  have room : block.toNat <<< 9 < 2 ^ 64 := by
    rw [Nat.shiftLeft_eq]
    omega
  have shifts : (9 : UInt64).toNat % 64 = 9 := by decide
  rw [Mark.toNat_shifted_or shifts room, Nat.shiftLeft_eq, Nat.mul_comm,
    Nat.two_pow_add_eq_or_of_lt fits]

theorem numbers_tupleMark {block offset : UInt64} (narrow : block.toNat < 2 ^ 55)
    (fits : offset.toNat < 2 ^ 9) :
    (tupleMark block offset).numbers = {2 ^ 9 * block.toNat + offset.toNat} := by
  rw [tupleMark, Mark.numbers_ofPacked, toNat_packedTuple narrow fits]

/-- A tuple that the first pages have. -/
structure Listed (count : Nat) (block offset : UInt64) : Prop where
  page : block.toNat < count
  first : 1 ≤ offset
  last : offset ≤ 291

namespace Listed

variable {count : Nat} {block offset : UInt64}

theorem fits (listed : Listed count block offset) : offset.toNat < 2 ^ 9 := by
  have small : offset.toNat ≤ 291 := UInt64.le_iff_toNat_le.mp listed.last
  omega

theorem numbers (listed : Listed count block offset) (few : count ≤ 2 ^ 55) :
    (tupleMark block offset).numbers = {2 ^ 9 * block.toNat + offset.toNat} :=
  numbers_tupleMark (Nat.lt_of_lt_of_le listed.page few) listed.fits

end Listed

/-- The marks of the dead tuples of the first blocks, in the order in which they are set. -/
def deadMarksBelow (count : Nat) : List Mark :=
  (List.range count).flatMap fun block => deadMarks (UInt64.ofNat block)

namespace Index

/-- The words are written tuple by tuple, in the order of blocks and offsets. -/
theorem load_reaped (kind : IndexKind) (count : Nat) :
    (empty kind).load .reaped count = (deadMarksBelow count).foldl Index.marked (empty kind) :=
  List.foldl_flatMap.symm

end Index
end Benchmark
end AdaptiveRadix
