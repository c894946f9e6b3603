import AdaptiveRadix.TupleSet.Mark
import AdaptiveRadix.Proofs.Bits
import Mathlib

namespace AdaptiveRadix

/-!
# Tuples as numbers

A tuple that fits is one number, and a mark is a finite set of numbers: those of its bits,
in the range of 64 that its key stands for.  Marks and words are compared, joined and cut
as these sets, so that no proof about a set of tuples looks at a word bit by bit.
-/

namespace Mark

variable {key : Key} {bits first second : UInt64} {mark : Mark} {number : Nat}

/-- The numbers whose bits are set. -/
def numbers (mark : Mark) : Finset Nat :=
  ((Finset.range 64).filter fun place => mark.bits.toNat.testBit place).image
    (64 * mark.key.toNat + ·)

theorem mem_numbers : number ∈ mark.numbers ↔
    number / 64 = mark.key.toNat ∧ mark.bits.toNat.testBit (number % 64) = true := by
  simp only [numbers, Finset.mem_image, Finset.mem_filter, Finset.mem_range]
  constructor
  · intro listed
    rcases listed with ⟨place, ⟨inside, bit⟩, rfl⟩
    rw [Nat.mul_add_div (by decide), Nat.div_eq_of_lt inside, Nat.mul_add_mod,
      Nat.mod_eq_of_lt inside]
    exact ⟨Nat.add_zero _, bit⟩
  · intro here
    rcases here with ⟨same, bit⟩
    refine ⟨number % 64, ⟨Nat.mod_lt _ (by decide), bit⟩, ?_⟩
    rw [← same]
    exact Nat.div_add_mod number 64

/-- The numbers of a word are all under its key. -/
theorem key_of_mem (listed : number ∈ mark.numbers) : number / 64 = mark.key.toNat :=
  (mem_numbers.mp listed).1

/-- A mark adds no number under another key. -/
theorem mem_union_elsewhere {numbers : Finset Nat} (away : number / 64 ≠ mark.key.toNat) :
    number ∈ numbers ∪ mark.numbers ↔ number ∈ numbers := by
  have unlisted : number ∉ mark.numbers := fun listed => away (key_of_mem listed)
  simp only [Finset.mem_union, unlisted, or_false]

theorem numbers_zero : (⟨key, 0⟩ : Mark).numbers = ∅ := by
  apply Finset.eq_empty_of_forall_notMem
  intro number listed
  have bit := (mem_numbers.mp listed).2
  simp at bit

theorem numbers_or :
    (⟨key, first ||| second⟩ : Mark).numbers =
      (⟨key, first⟩ : Mark).numbers ∪ (⟨key, second⟩ : Mark).numbers := by
  ext number
  simp only [Finset.mem_union, mem_numbers, UInt64.toNat_or, Nat.testBit_or, Bool.or_eq_true]
  tauto

theorem numbers_and :
    (⟨key, first &&& second⟩ : Mark).numbers =
      (⟨key, first⟩ : Mark).numbers ∩ (⟨key, second⟩ : Mark).numbers := by
  ext number
  simp only [Finset.mem_inter, mem_numbers, UInt64.toNat_and, Nat.testBit_and, Bool.and_eq_true]
  tauto

/-- Bits that were not set before are what the two words differ in. -/
theorem numbers_xor_or :
    (⟨key, (first ||| second) ^^^ first⟩ : Mark).numbers =
      (⟨key, second⟩ : Mark).numbers \ (⟨key, first⟩ : Mark).numbers := by
  ext number
  simp only [Finset.mem_sdiff, mem_numbers, UInt64.toNat_xor, UInt64.toNat_or, Nat.testBit_xor,
    Nat.testBit_or]
  cases first.toNat.testBit (number % 64) <;> cases second.toNat.testBit (number % 64) <;> simp

theorem numbers_and_not :
    (⟨key, first &&& ~~~second⟩ : Mark).numbers =
      (⟨key, first⟩ : Mark).numbers \ (⟨key, second⟩ : Mark).numbers := by
  ext number
  have inside : number % 64 < 64 := Nat.mod_lt _ (by decide)
  have cleared : (~~~second).toNat.testBit (number % 64) = !second.toNat.testBit (number % 64) := by
    change (~~~second).toBitVec.getLsbD (number % 64) = !second.toBitVec.getLsbD (number % 64)
    rw [UInt64.toBitVec_not, BitVec.getLsbD_not, decide_eq_true inside, Bool.true_and]
  simp only [Finset.mem_sdiff, mem_numbers, UInt64.toNat_and, Nat.testBit_and, cleared]
  cases first.toNat.testBit (number % 64) <;> cases second.toNat.testBit (number % 64) <;> simp

/-- A word is determined by its numbers. -/
theorem bits_eq_iff : first = second ↔
    (⟨key, first⟩ : Mark).numbers = (⟨key, second⟩ : Mark).numbers := by
  refine ⟨fun same => by rw [same], ?_⟩
  intro same
  apply UInt64.toNat_inj.mp
  apply Nat.eq_of_testBit_eq
  intro place
  by_cases inside : place < 64
  · have listed := congrArg (64 * key.toNat + place ∈ ·) same
    have top : (64 * key.toNat + place) / 64 = key.toNat := by omega
    have low : (64 * key.toNat + place) % 64 = place := by omega
    simp only [mem_numbers, top, low, true_and, eq_iff_iff] at listed
    exact Bool.eq_iff_iff.mpr listed
  · have large : 2 ^ 64 ≤ 2 ^ place := Nat.pow_le_pow_right (by decide) (Nat.le_of_not_lt inside)
    rw [Nat.testBit_eq_false_of_lt (Nat.lt_of_lt_of_le first.toNat_lt large),
      Nat.testBit_eq_false_of_lt (Nat.lt_of_lt_of_le second.toNat_lt large)]

/-- Counting the bits of a word counts its numbers. -/
theorem card_numbers (mark : Mark) : mark.numbers.card = mark.bits.toBitVec.cpop.toNat := by
  rw [toNat_cpop, Nat.count_eq_card_filter_range, numbers]
  exact Finset.card_image_of_injective _ (add_right_injective _)

theorem toNat_key_ofPacked (packed : UInt64) : (ofPacked packed).key.toNat = packed.toNat / 64 := by
  simp [ofPacked, UInt64.toNat_shiftRight, Nat.shiftRight_eq_div_pow]

theorem toNat_bits_ofPacked (packed : UInt64) :
    (ofPacked packed).bits.toNat = 2 ^ (packed.toNat % 64) := by
  have low : (packed &&& 63).toNat = packed.toNat % 64 := by
    rw [UInt64.toNat_and]
    exact Nat.and_two_pow_sub_one_eq_mod packed.toNat 6
  have inside : packed.toNat % 64 < 64 := Nat.mod_lt _ (by decide)
  have small : 2 ^ (packed.toNat % 64) < 2 ^ 64 := Nat.pow_lt_pow_right (by decide) inside
  simp only [ofPacked, UInt64.toNat_shiftLeft, low, Nat.shiftLeft_eq, Nat.mod_eq_of_lt inside]
  exact (congrArg (· % 2 ^ 64) (Nat.one_mul _)).trans (Nat.mod_eq_of_lt small)

/-- A packed number has a mark of its own. -/
theorem numbers_ofPacked (packed : UInt64) : (ofPacked packed).numbers = {packed.toNat} := by
  ext number
  rw [mem_numbers, toNat_key_ofPacked, toNat_bits_ofPacked, Nat.testBit_two_pow,
    decide_eq_true_eq, Finset.mem_singleton]
  omega

/-- Packing loses nothing where the upper part has room above the shift. -/
theorem toNat_shifted_or {high low shift : UInt64} {width : Nat}
    (shifts : shift.toNat % 64 = width) (room : high.toNat <<< width < 2 ^ 64) :
    (high <<< shift ||| low).toNat = high.toNat <<< width ||| low.toNat := by
  rw [UInt64.toNat_or, UInt64.toNat_shiftLeft, shifts, Nat.mod_eq_of_lt room]

/-- The words, each under its key, have these numbers between them. -/
def Spells (word : Key -> UInt64) (numbers : Finset Nat) : Prop :=
  forall key, (⟨key, word key⟩ : Mark).numbers = numbers.filter fun number => number / 64 = key.toNat

namespace Spells

variable {word after : Key -> UInt64} {numbers others : Finset Nat}

theorem and (spells : Spells word numbers) (mark : Mark) :
    (⟨mark.key, word mark.key &&& mark.bits⟩ : Mark).numbers = numbers ∩ mark.numbers := by
  rw [numbers_and, spells]
  ext number
  simp only [Finset.mem_inter, Finset.mem_filter]
  constructor
  · exact fun both => ⟨both.1.1, both.2⟩
  · exact fun both => ⟨⟨both.1, key_of_mem both.2⟩, both.2⟩

theorem or (spells : Spells word numbers) (mark : Mark) :
    (⟨mark.key, word mark.key ||| mark.bits⟩ : Mark).numbers =
      (numbers ∪ mark.numbers).filter fun number => number / 64 = mark.key.toNat := by
  rw [numbers_or, spells, Finset.filter_union]
  congr 1
  exact (Finset.filter_true_of_mem fun number listed => key_of_mem listed).symm

/-- A mark shares a bit with the word under its key when it shares a number with all the words. -/
theorem and_eq_zero_iff (spells : Spells word numbers) (single : mark.numbers = {number}) :
    word mark.key &&& mark.bits = 0 ↔ number ∉ numbers := by
  rw [bits_eq_iff, spells.and, numbers_zero, single, ← Finset.disjoint_iff_inter_eq_empty,
    Finset.disjoint_singleton_right]

/-- Bits that are set beside a mark's word are a word that is not zero, if the mark has any. -/
theorem or_ne_zero (spells : Spells word numbers) (some : number ∈ mark.numbers) :
    word mark.key ||| mark.bits ≠ 0 := by
  intro zero
  have here := spells.or mark
  rw [zero, numbers_zero] at here
  refine Finset.notMem_empty number (here.symm ▸ ?_)
  exact Finset.mem_filter.mpr ⟨Finset.mem_union_right _ some, key_of_mem some⟩

/-- A change of one word changes the numbers under its key, and no others. -/
theorem change (spells : Spells word numbers)
    (changed : forall other, after other = if other = key then bits else word other)
    (here : (⟨key, bits⟩ : Mark).numbers = others.filter fun number => number / 64 = key.toNat)
    (elsewhere : forall number, number / 64 ≠ key.toNat -> (number ∈ others ↔ number ∈ numbers)) :
    Spells after others := by
  intro other
  rw [changed]
  by_cases same : other = key
  · rw [if_pos same, same]
    exact here
  · rw [if_neg same]
    refine (spells other).trans ?_
    ext number
    simp only [Finset.mem_filter, and_congr_left_iff]
    intro under
    refine (elsewhere number ?_).symm
    rw [under]
    exact fun clash => same (UInt64.toNat_inj.mp clash)

end Spells

/-! ## Lists of marks -/

/-- The numbers of some marks together. -/
def allNumbers (marks : List Mark) : Finset Nat :=
  marks.foldr (fun mark others => mark.numbers ∪ others) ∅

theorem allNumbers_cons (mark : Mark) (rest : List Mark) :
    allNumbers (mark :: rest) = mark.numbers ∪ allNumbers rest :=
  rfl

theorem mem_allNumbers {marks : List Mark} :
    number ∈ allNumbers marks ↔ ∃ mark ∈ marks, number ∈ mark.numbers := by
  induction marks with
  | nil => simp [allNumbers]
  | cons mark rest inductionHypothesis =>
      simp only [allNumbers_cons, Finset.mem_union, inductionHypothesis, List.exists_mem_cons_iff]

theorem allNumbers_perm {marks others : List Mark} (same : marks.Perm others) :
    allNumbers marks = allNumbers others := by
  ext number
  simp only [mem_allNumbers, same.mem_iff]

/-- Joining marks loses no number and adds none. -/
theorem allNumbers_joined (marks : List Mark) : allNumbers (joined marks) = allNumbers marks := by
  induction marks with
  | nil => rfl
  | cons mark rest inductionHypothesis =>
      rw [allNumbers_cons, ← inductionHypothesis, joined]
      cases joined rest with
      | nil => rfl
      | cons next others =>
          rcases mark with ⟨key, bits⟩
          rcases next with ⟨nextKey, nextBits⟩
          by_cases same : nextKey = key
          · subst nextKey
            simp only [if_true, allNumbers_cons, numbers_or, Finset.union_assoc]
          · simp only [if_neg same, allNumbers_cons]

end Mark

namespace TupleId

variable {tuple first second : TupleId} {offsetBits : Nat}

/-- The offset has no more bits than offsets are given. -/
def Fits (tuple : TupleId) (offsetBits : Nat) : Prop :=
  tuple.offset.toNat < 2 ^ offsetBits

instance : Decidable (tuple.Fits offsetBits) :=
  inferInstanceAs (Decidable (_ < _))

/-- The block above the offset. -/
def packed (tuple : TupleId) (offsetBits : Nat) : Nat :=
  tuple.block.toNat <<< offsetBits ||| tuple.offset.toNat

theorem packed_eq (fits : tuple.Fits offsetBits) :
    tuple.packed offsetBits = 2 ^ offsetBits * tuple.block.toNat + tuple.offset.toNat := by
  rw [packed, Nat.shiftLeft_eq, Nat.mul_comm, Nat.two_pow_add_eq_or_of_lt fits]

/-- No number stands for two tuples. -/
theorem packed_inj (fits : first.Fits offsetBits) (fitsToo : second.Fits offsetBits) :
    first.packed offsetBits = second.packed offsetBits ↔ first = second := by
  refine ⟨?_, fun same => by rw [same]⟩
  intro same
  rw [packed_eq fits, packed_eq fitsToo] at same
  have positive := Nat.two_pow_pos offsetBits
  have blocks := congrArg (· / 2 ^ offsetBits) same
  have offsets := congrArg (· % 2 ^ offsetBits) same
  simp only [Nat.mul_add_div positive, Nat.mul_add_mod, Nat.div_eq_of_lt fits,
    Nat.div_eq_of_lt fitsToo, Nat.mod_eq_of_lt fits, Nat.mod_eq_of_lt fitsToo, Nat.add_zero]
    at blocks offsets
  rcases first with ⟨block, offset⟩
  rcases second with ⟨blockToo, offsetToo⟩
  cases UInt32.toNat_inj.mp blocks
  cases UInt16.toNat_inj.mp offsets
  rfl

/-- A block has 32 bits and an offset at most 16, so packing a tuple loses nothing. -/
theorem toNat_packed (narrow : offsetBits ≤ 16) (tuple : TupleId) :
    (tuple.block.toUInt64 <<< offsetBits.toUInt64 ||| tuple.offset.toUInt64).toNat =
      tuple.packed offsetBits := by
  have width : offsetBits.toUInt64.toNat % 64 = offsetBits := by
    change offsetBits % 2 ^ 64 % 64 = offsetBits
    omega
  have room : tuple.block.toNat <<< offsetBits < 2 ^ 64 := by
    rw [Nat.shiftLeft_eq]
    calc tuple.block.toNat * 2 ^ offsetBits
        < 2 ^ 32 * 2 ^ offsetBits :=
          Nat.mul_lt_mul_of_pos_right tuple.block.toNat_lt (Nat.two_pow_pos _)
      _ ≤ 2 ^ 32 * 2 ^ 16 := Nat.mul_le_mul_left _ (Nat.pow_le_pow_right (by decide) narrow)
      _ < 2 ^ 64 := by decide
  rw [← UInt32.toNat_toUInt64] at room
  rw [Mark.toNat_shifted_or width room, UInt32.toNat_toUInt64, UInt16.toNat_toUInt64, packed]

/-- The mark of a tuple that fits stands for its number alone. -/
theorem mark?_of_fits (narrow : offsetBits ≤ 16) (fits : tuple.Fits offsetBits) :
    ∃ mark, tuple.mark? offsetBits = some mark ∧ mark.numbers = {tuple.packed offsetBits} := by
  refine ⟨_, if_pos (by rwa [Nat.one_shiftLeft]), ?_⟩
  rw [Mark.numbers_ofPacked, toNat_packed narrow]

theorem mark?_of_not_fits (wide : ¬ tuple.Fits offsetBits) : tuple.mark? offsetBits = none :=
  if_neg (by rwa [Nat.one_shiftLeft])

end TupleId
end AdaptiveRadix
