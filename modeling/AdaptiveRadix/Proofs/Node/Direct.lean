import AdaptiveRadix.Node.Direct
import Mathlib

namespace AdaptiveRadix
namespace Direct

/-!
# Direct tables as finite maps

The bitmap holds one bit for each chunk, word by word.  An insertion or a removal
changes the bit of its own chunk and no other, so a direct table is a map from chunks
to slots whatever values were left behind, and a traversal meets each present chunk
once, in ascending order across the four words.
-/

variable {α : Type}

/-! ## The set bits of a word -/

/-- Below its lowest set bit a word is a multiple of a power of two, and odd above. -/
private theorem toNat_eq_lowest_mul {word : UInt64} (nonzero : word ≠ 0) :
    ∃ odd, odd % 2 = 1 ∧ word.toNat = 2 ^ word.toBitVec.ctz.toNat * odd := by
  have bits : word.toBitVec ≠ 0#64 := fun zero => nonzero (UInt64.toBitVec_inj.mp zero)
  have lowest : word.toNat.testBit word.toBitVec.ctz.toNat = true :=
    BitVec.getLsbD_true_ctz_of_ne_zero bits
  have below : word.toNat % 2 ^ word.toBitVec.ctz.toNat = 0 := by
    apply Nat.eq_of_testBit_eq
    intro place
    rw [Nat.testBit_mod_two_pow, Nat.zero_testBit]
    by_cases low : place < word.toBitVec.ctz.toNat
    · have clear : word.toNat.testBit place = false := BitVec.getLsbD_false_of_lt_ctz low
      rw [clear, Bool.and_false]
    · rw [decide_eq_false low, Bool.false_and]
  refine ⟨word.toNat / 2 ^ word.toBitVec.ctz.toNat, ?_, ?_⟩
  · rwa [Nat.testBit_eq_decide_div_mod_eq, decide_eq_true_eq] at lowest
  · exact (Nat.mul_div_cancel' (Nat.dvd_of_mod_eq_zero below)).symm

/-- Masking a number with its predecessor clears the lowest set bit and no other. -/
private theorem testBit_cleared {odd lowest : Nat} (isOdd : odd % 2 = 1) (place : Nat) :
    (2 ^ lowest * odd &&& (2 ^ lowest * odd - 1)).testBit place =
      ((2 ^ lowest * odd).testBit place && decide (place ≠ lowest)) := by
  have positive : 0 < 2 ^ lowest := Nat.two_pow_pos lowest
  have pred : 2 ^ lowest * odd - 1 = 2 ^ lowest * (odd - 1) + (2 ^ lowest - 1) := by
    have nonzero : ∃ half, odd = half + 1 := ⟨odd - 1, by omega⟩
    rcases nonzero with ⟨half, rfl⟩
    rw [Nat.mul_add, Nat.add_sub_cancel]
    omega
  have below : 2 ^ lowest - 1 < 2 ^ lowest := by omega
  rw [Nat.testBit_and, pred, Nat.testBit_two_pow_mul_add _ below, Nat.testBit_two_pow_mul]
  by_cases low : place < lowest
  · simp only [if_pos low, ge_iff_le, Nat.not_le.mpr low, decide_false, Bool.false_and]
  · have high : lowest ≤ place := Nat.le_of_not_lt low
    rw [if_neg low, decide_eq_true high, Bool.true_and]
    by_cases same : place = lowest
    · subst place
      have even : (odd - 1) % 2 = 0 := by omega
      simp only [Nat.sub_self, Nat.testBit_zero, even, ne_eq, not_true, decide_false,
        Bool.and_false, Nat.zero_ne_one]
    · have higher : ∃ rest, place = lowest + rest + 1 := ⟨place - lowest - 1, by omega⟩
      rcases higher with ⟨rest, rfl⟩
      have shifted : lowest + rest + 1 - lowest = rest + 1 := by omega
      have halves : (odd - 1) / 2 = odd / 2 := by omega
      simp only [shifted, Nat.testBit_add_one, halves, ne_eq, same, not_false_eq_true,
        decide_true, Bool.and_self, Bool.and_true]

/-- The walk that clears the lowest set bit meets every set bit and nothing else. -/
theorem mem_setBits (word : UInt64) (place : Nat) :
    place ∈ setBits word ↔ word.toNat.testBit place = true := by
  fun_induction setBits word with
  | case1 => simp only [List.not_mem_nil, UInt64.toNat_zero, Nat.zero_testBit, Bool.false_eq_true]
  | case2 word nonzero inductionHypothesis =>
      rcases toNat_eq_lowest_mul nonzero with ⟨odd, isOdd, split⟩
      have positive : 1 ≤ word.toNat := by
        apply Nat.one_le_iff_ne_zero.mpr
        exact fun zero => nonzero (UInt64.toNat_inj.mp zero)
      have below : (word - 1).toNat = word.toNat - 1 := UInt64.toNat_sub_of_le _ _ positive
      rw [List.mem_cons, inductionHypothesis, UInt64.toNat_and, below]
      generalize word.toBitVec.ctz.toNat = lowest at split ⊢
      rw [split, testBit_cleared isOdd]
      by_cases same : place = lowest
      · subst place
        have bit : (2 ^ lowest * odd).testBit lowest = true := by
          rw [Nat.testBit_two_pow_mul, Nat.sub_self, Nat.testBit_zero, isOdd]
          simp only [ge_iff_le, Nat.le_refl, decide_true, Bool.and_self]
        simp only [bit, true_or]
      · simp only [same, ne_eq, not_false_eq_true, decide_true, Bool.and_true, false_or]

/-- The walk meets set bits from the lowest to the highest. -/
theorem setBits_ascending (word : UInt64) : (setBits word).Pairwise (· < ·) := by
  fun_induction setBits word with
  | case1 => exact List.Pairwise.nil
  | case2 word nonzero inductionHypothesis =>
      refine List.pairwise_cons.mpr ⟨?_, inductionHypothesis⟩
      intro place met
      rcases toNat_eq_lowest_mul nonzero with ⟨odd, isOdd, split⟩
      have positive : 1 ≤ word := by
        rw [UInt64.le_iff_toNat_le]
        exact Nat.one_le_iff_ne_zero.mpr fun zero => nonzero (UInt64.toNat_inj.mp zero)
      have below : (word - 1).toNat = word.toNat - 1 := UInt64.toNat_sub_of_le _ _ positive
      rw [mem_setBits, UInt64.toNat_and, below] at met
      generalize word.toBitVec.ctz.toNat = lowest at split ⊢
      rw [split, testBit_cleared isOdd, Nat.testBit_two_pow_mul, Bool.and_eq_true, Bool.and_eq_true,
        decide_eq_true_eq, decide_eq_true_eq] at met
      exact Nat.lt_of_le_of_ne met.1.1 (Ne.symm met.2)

/-! ## One bit for each chunk -/

theorem toNat_bit (chunk : Chunk) : (bit chunk).toNat = 2 ^ (chunk.toNat % 64) := by
  have small : chunk.toNat % 64 < 64 := Nat.mod_lt _ (by decide)
  have amount : (chunk.toUInt64 % 64).toNat = chunk.toNat % 64 := by
    rw [UInt64.toNat_mod, UInt8.toNat_toUInt64]
    rfl
  rw [bit, UInt64.toNat_shiftLeft, amount, Nat.mod_eq_of_lt small, UInt64.toNat_one,
    Nat.shiftLeft_eq, Nat.one_mul]
  exact Nat.mod_eq_of_lt (Nat.pow_lt_pow_right (by decide) small)

/-- The bit of a chunk is set in its own place and in no other. -/
theorem getLsbD_bit (chunk : Chunk) (place : Nat) :
    (bit chunk).toBitVec.getLsbD place = decide (chunk.toNat % 64 = place) := by
  have power : (bit chunk).toBitVec.getLsbD place = (2 ^ (chunk.toNat % 64)).testBit place :=
    congrArg (fun number => Nat.testBit number place) (toNat_bit chunk)
  rw [power, Nat.testBit_two_pow]

/-- A chunk is present when its bit is set in its word. -/
theorem contains_eq (table : Direct α) (chunk : Chunk) :
    table.contains chunk = (table.wordAt (word chunk)).toBitVec.getLsbD (chunk.toNat % 64) := by
  have masked : (table.wordAt (word chunk) &&& bit chunk).toNat =
      ((table.wordAt (word chunk)).toBitVec.getLsbD (chunk.toNat % 64)).toNat *
        2 ^ (chunk.toNat % 64) := by
    rw [UInt64.toNat_and, toNat_bit, Nat.and_two_pow]
    rfl
  cases set : (table.wordAt (word chunk)).toBitVec.getLsbD (chunk.toNat % 64) with
  | false =>
      rw [set, Bool.toNat_false, Nat.zero_mul] at masked
      have clear : table.wordAt (word chunk) &&& bit chunk = 0 := UInt64.toNat_inj.mp masked
      rw [contains, clear]
      rfl
  | true =>
      rw [set, Bool.toNat_true, Nat.one_mul] at masked
      rw [contains, bne_iff_ne]
      intro clear
      rw [clear] at masked
      exact absurd masked.symm (Nat.two_pow_pos _).ne'

private theorem chunk_eq_of_place {first second : Chunk} (words : word first = word second)
    (bits : first.toNat % 64 = second.toNat % 64) : first = second := by
  have quotients : first.toNat / 64 = second.toNat / 64 := congrArg Fin.val words
  apply UInt8.toNat_inj.mp
  omega

theorem wordAt_insert (table : Direct α) (chunk : Chunk) (value : α) (index : Fin 4) :
    (table.insert chunk value).wordAt index =
      if word chunk = index then table.wordAt index ||| bit chunk else table.wordAt index := by
  by_cases words : word chunk = index
  · subst index
    simp [insert, wordAt]
  · have apart : (word chunk).val ≠ index.val := fun clash => words (Fin.ext clash)
    simp [insert, wordAt, words, apart]

theorem contains_insert (table : Direct α) (chunk : Chunk) (value : α) (other : Chunk) :
    (table.insert chunk value).contains other = (decide (other = chunk) || table.contains other) := by
  rw [contains_eq, contains_eq, wordAt_insert]
  by_cases words : word chunk = word other
  · rw [if_pos words, UInt64.toBitVec_or, BitVec.getLsbD_or, getLsbD_bit, Bool.or_comm]
    congr 1
    apply decide_eq_decide.mpr
    constructor
    · intro bits
      exact (chunk_eq_of_place words bits).symm
    · intro same
      rw [same]
  · have different : other ≠ chunk := fun same => words (congrArg word same).symm
    rw [if_neg words, decide_eq_false different, Bool.false_or]

theorem wordAt_erase {table : Direct α} {chunk : Chunk} (present : table.contains chunk = true)
    (index : Fin 4) :
    (table.erase chunk).wordAt index =
      if word chunk = index then table.wordAt index &&& ~~~bit chunk else table.wordAt index := by
  rw [erase, if_pos present]
  by_cases words : word chunk = index
  · subst index
    simp [wordAt]
  · have apart : (word chunk).val ≠ index.val := fun clash => words (Fin.ext clash)
    simp [wordAt, words, apart]

theorem contains_erase (table : Direct α) (chunk other : Chunk) :
    (table.erase chunk).contains other = (decide (other ≠ chunk) && table.contains other) := by
  by_cases present : table.contains chunk = true
  · have inside : other.toNat % 64 < 64 := Nat.mod_lt _ (by decide)
    rw [contains_eq, contains_eq, wordAt_erase present]
    by_cases words : word chunk = word other
    · rw [if_pos words, UInt64.toBitVec_and, UInt64.toBitVec_not, BitVec.getLsbD_and,
        BitVec.getLsbD_not, getLsbD_bit, decide_eq_true inside, Bool.true_and, Bool.and_comm,
        ← decide_not]
      congr 1
      apply decide_eq_decide.mpr
      constructor
      · intro bits same
        exact bits (by rw [same])
      · intro different bits
        exact different (chunk_eq_of_place words bits).symm
    · have different : other ≠ chunk := fun same => words (congrArg word same).symm
      rw [if_neg words, decide_eq_true different, Bool.true_and]
  · rw [erase, if_neg present]
    by_cases same : other = chunk
    · subst other
      simp [present]
    · simp [same]

/-! ## Values -/

theorem get?_insert (table : Direct α) (chunk : Chunk) (value : α) (other : Chunk) :
    (table.insert chunk value).get? other =
      if other = chunk then some value else table.get? other := by
  rw [get?, contains_insert]
  by_cases same : other = chunk
  · subst other
    simp [insert]
  · have apart : chunk.toNat ≠ other.toNat := fun clash => same (UInt8.toNat_inj.mp clash).symm
    simp [insert, get?, same, apart]

theorem get?_erase (table : Direct α) (chunk other : Chunk) :
    (table.erase chunk).get? other = if other = chunk then none else table.get? other := by
  have slots : (table.erase chunk).slots = table.slots := by
    unfold erase
    split <;> rfl
  rw [get?, contains_erase, slots]
  by_cases same : other = chunk
  · simp [same]
  · simp [same, get?]

theorem contains_of_get? {table : Direct α} {chunk : Chunk} {value : α}
    (found : table.get? chunk = some value) : table.contains chunk = true := by
  unfold get? at found
  split at found
  · assumption
  · cases found

theorem get?_replace {table : Direct α} {chunk : Chunk} (present : table.contains chunk = true)
    (value : α) (other : Chunk) :
    (table.replace chunk value).get? other =
      if other = chunk then some value else table.get? other := by
  have bitmap : (table.replace chunk value).contains other = table.contains other := by
    rw [replace, if_pos present]
    rfl
  rw [get?, bitmap]
  by_cases same : other = chunk
  · subst other
    simp [replace, present]
  · have apart : chunk.toNat ≠ other.toNat := fun clash => same (UInt8.toNat_inj.mp clash).symm
    simp [replace, present, get?, same, apart]

theorem get?_vacant [Inhabited α] (chunk : Chunk) : (vacant : Direct α).get? chunk = none := by
  have missing : (vacant : Direct α).contains chunk = false := by
    simp [contains, wordAt, vacant]
  rw [get?, missing]
  rfl

/-! ## Traversal -/

/-- A set bit belongs to one of the 256 slots. -/
theorem place_of_bit {table : Direct α} {index : Fin 4} {place : Nat}
    (met : place ∈ setBits (table.wordAt index)) : index.val * 64 + place < 256 ∧ place < 64 := by
  rw [mem_setBits] at met
  have inside : place < 64 := by
    by_contra outside
    have large : (table.wordAt index).toNat < 2 ^ place :=
      Nat.lt_of_lt_of_le (table.wordAt index).toNat_lt
        (Nat.pow_le_pow_right (by decide) (Nat.le_of_not_lt outside))
    rw [Nat.testBit_lt_two_pow large] at met
    cases met
  omega

/-- A traversal meets exactly the present chunks, each in the slot of its own number. -/
theorem mem_entries_iff (table : Direct α) {entry : Entry α} :
    entry ∈ table.entries ↔
      entry.position = entry.chunk.toNat ∧ table.get? entry.chunk = some entry.value := by
  simp only [entries, List.mem_flatMap, List.mem_finRange, true_and, List.mem_filterMap,
    Option.map_eq_some_iff]
  constructor
  · intro met
    rcases met with ⟨index, place, listed, value, held, rfl⟩
    rcases place_of_bit listed with ⟨small, inside⟩
    have number : (UInt8.ofNat (index.val * 64 + place)).toNat = index.val * 64 + place := by
      rw [UInt8.toNat_ofNat']
      exact Nat.mod_eq_of_lt small
    have words : word (UInt8.ofNat (index.val * 64 + place)) = index := by
      apply Fin.ext
      simp only [word, number]
      omega
    have bits : (UInt8.ofNat (index.val * 64 + place)).toNat % 64 = place := by
      rw [number]
      omega
    have present : table.contains (UInt8.ofNat (index.val * 64 + place)) = true := by
      rw [contains_eq]
      simp only [words, bits]
      exact (mem_setBits _ _).mp listed
    rcases Vector.getElem?_eq_some_iff.mp held with ⟨_, slot⟩
    refine ⟨number.symm, ?_⟩
    rw [get?, if_pos present]
    exact congrArg some ((getElem_congr_idx number).trans slot)
  · intro found
    rcases found with ⟨position, holds⟩
    have present := contains_of_get? holds
    rw [get?, if_pos present] at holds
    have number : (word entry.chunk).val * 64 + entry.chunk.toNat % 64 = entry.chunk.toNat := by
      simp only [word]
      omega
    refine ⟨word entry.chunk, entry.chunk.toNat % 64, ?_, entry.value, ?_, ?_⟩
    · rw [mem_setBits]
      rw [contains_eq] at present
      exact present
    · rw [number]
      exact Vector.getElem?_eq_some_iff.mpr ⟨entry.chunk.toNat_lt, Option.some.inj holds⟩
    · have back : UInt8.ofNat ((word entry.chunk).val * 64 + entry.chunk.toNat % 64) = entry.chunk := by
        rw [number, UInt8.ofNat_toNat]
      rw [back, number, ← position]

theorem entries_ascending (table : Direct α) :
    (table.entries.map Entry.chunk).Pairwise (· < ·) := by
  rw [List.pairwise_map, entries, List.pairwise_flatMap]
  constructor
  · intro index _
    rw [List.pairwise_filterMap]
    apply List.Pairwise.imp_of_mem _ (setBits_ascending (table.wordAt index))
    intro first second listed listedAfter less before met after metAfter
    rcases Option.map_eq_some_iff.mp met with ⟨_, _, rfl⟩
    rcases Option.map_eq_some_iff.mp metAfter with ⟨_, _, rfl⟩
    have small := (place_of_bit listed).1
    have smallAfter := (place_of_bit listedAfter).1
    rw [UInt8.lt_iff_toNat_lt, UInt8.toNat_ofNat', UInt8.toNat_ofNat', Nat.mod_eq_of_lt small,
      Nat.mod_eq_of_lt smallAfter]
    omega
  · apply (List.pairwise_lt_finRange 4).imp
    intro low high less before met after metAfter
    rcases List.mem_filterMap.mp met with ⟨place, listed, made⟩
    rcases List.mem_filterMap.mp metAfter with ⟨placeAfter, listedAfter, madeAfter⟩
    rcases Option.map_eq_some_iff.mp made with ⟨_, _, rfl⟩
    rcases Option.map_eq_some_iff.mp madeAfter with ⟨_, _, rfl⟩
    rcases place_of_bit listed with ⟨small, inside⟩
    have smallAfter := (place_of_bit listedAfter).1
    rw [UInt8.lt_iff_toNat_lt, UInt8.toNat_ofNat', UInt8.toNat_ofNat', Nat.mod_eq_of_lt small,
      Nat.mod_eq_of_lt smallAfter]
    have words : low.val < high.val := less
    omega

theorem length_entries_le (table : Direct α) : table.entries.length ≤ 256 := by
  have distinct : ((table.entries.map Entry.chunk).map UInt8.toNat).Nodup :=
    table.entries_ascending.nodup.map fun _ _ same => UInt8.toNat_inj.mp same
  have covered : (table.entries.map Entry.chunk).map UInt8.toNat ⊆ List.range 256 := by
    intro number listed
    rcases List.mem_map.mp listed with ⟨chunk, _, rfl⟩
    exact List.mem_range.mpr chunk.toNat_lt
  have few := (List.subperm_of_subset distinct covered).length_le
  simpa using few

end Direct
end AdaptiveRadix
