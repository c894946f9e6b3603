import AdaptiveRadix.Key
import Mathlib

namespace AdaptiveRadix
namespace Key

/-!
# Keys as numbers

A chunk is a digit of its key, and a bound is a number of which all digits are largest.

`key.below level` is the key without the chunks above `level`.  A subtree at a level
tells two keys apart exactly when these parts differ, and for keys that fit under a
root the part is the key itself.  The chunk of each level is one digit of it, so the
equations by level here are what every descent through a tree rests on.
-/

theorem toNat_chunk (key : Key) (level : Nat) :
    (key.chunk level).toNat = key.toNat / 2 ^ shift level % 2 ^ chunkBits := by
  simp only [chunk, UInt8.toNat_ofNat', Nat.shiftRight_eq_div_pow]
  rfl

theorem toNat_bound {level : Nat} (low : level ≤ maxLevel) :
    (bound level).toNat = 2 ^ shift (level + 1) - 1 := by
  have small : 2 ^ shift (level + 1) ≤ 2 ^ 64 := by
    apply Nat.pow_le_pow_right (by decide)
    simp only [shift, chunkBits, maxLevel] at low ⊢
    omega
  have positive : 0 < 2 ^ shift (level + 1) := Nat.two_pow_pos _
  rw [bound, Nat.one_shiftLeft, UInt64.toNat_ofNat']
  apply Nat.mod_eq_of_lt
  omega

/-- The top level is the least level at which a root takes the key. -/
theorem le_bound_iff {key : Key} {level : Nat} (low : level ≤ maxLevel) :
    key ≤ bound level ↔ key.topLevel ≤ level := by
  have positive : 0 < 2 ^ shift (level + 1) := Nat.two_pow_pos _
  rw [UInt64.le_iff_toNat_le, toNat_bound low]
  by_cases zero : key.toNat = 0
  · simp only [topLevel, zero, Nat.log2_zero, Nat.zero_div, Nat.zero_le]
  · have bits := Nat.log2_lt (k := shift (level + 1)) zero
    constructor
    · intro fits
      have below := bits.mpr (by omega)
      simp only [topLevel, shift, chunkBits] at below ⊢
      omega
    · intro fits
      have below := bits.mp (by simp only [topLevel, shift, chunkBits] at fits ⊢; omega)
      omega

/-! ## Chunks and lower parts -/

/-- The number made of the chunks up to `level`. -/
def below (key : Key) (level : Nat) : Nat :=
  key.toNat % 2 ^ shift (level + 1)

theorem shift_succ (level : Nat) : shift (level + 1) = shift level + chunkBits := by
  simp only [shift, Nat.mul_add, Nat.mul_one]

theorem below_zero (key : Key) : key.below 0 = (key.chunk 0).toNat := by
  rw [toNat_chunk]
  simp [below, shift, chunkBits]

/-- The chunk of a level is the leading digit of the part up to that level. -/
theorem below_succ (key : Key) (level : Nat) :
    key.below (level + 1) =
      key.below level + 2 ^ shift (level + 1) * (key.chunk (level + 1)).toNat := by
  rw [below, shift_succ (level + 1), Nat.pow_add, Nat.mod_mul, toNat_chunk, below]

theorem below_lt (key : Key) (level : Nat) : key.below level < 2 ^ shift (level + 1) :=
  Nat.mod_lt _ (Nat.two_pow_pos _)

theorem below_zero_inj {first second : Key} :
    first.below 0 = second.below 0 ↔ first.chunk 0 = second.chunk 0 := by
  rw [below_zero, below_zero, UInt8.toNat_inj]

/-- Two keys agree up to a level when they have the same chunk there and agree below. -/
theorem below_succ_inj {first second : Key} {level : Nat} :
    first.below (level + 1) = second.below (level + 1) ↔
      first.chunk (level + 1) = second.chunk (level + 1) ∧
        first.below level = second.below level := by
  rw [below_succ, below_succ, ← UInt8.toNat_inj]
  have low := first.below_lt level
  have lowToo := second.below_lt level
  constructor
  · intro same
    have digits := congrArg (· / 2 ^ shift (level + 1)) same
    have rests := congrArg (· % 2 ^ shift (level + 1)) same
    simp only [Nat.add_mul_div_left _ _ (Nat.two_pow_pos _), Nat.div_eq_of_lt low,
      Nat.div_eq_of_lt lowToo, Nat.zero_add, Nat.add_mul_mod_self_left, Nat.mod_eq_of_lt low,
      Nat.mod_eq_of_lt lowToo] at digits rests
    exact ⟨digits, rests⟩
  · intro same
    rw [same.1, same.2]

theorem below_le_of_le (key : Key) {low high : Nat} (order : low ≤ high) :
    key.below low ≤ key.below high := by
  induction high, order using Nat.le_induction with
  | base => exact Nat.le_refl _
  | succ high _ inductionHypothesis =>
      rw [below_succ]
      exact Nat.le_trans inductionHypothesis (Nat.le_add_right _ _)

/-- The chunks between two levels are all zero when the part does not grow between them. -/
theorem below_add_succ_eq_iff (key : Key) (level rise : Nat) :
    key.below (level + (rise + 1)) = key.below level ↔
      key.chunk (level + rise + 1) = 0 ∧ key.below (level + rise) = key.below level := by
  have grows := key.below_le_of_le (Nat.le_add_right level rise)
  have positive := Nat.two_pow_pos (shift (level + rise + 1))
  have zero : key.chunk (level + rise + 1) = 0 ↔ (key.chunk (level + rise + 1)).toNat = 0 := by
    rw [← UInt8.toNat_inj]
    rfl
  rw [← Nat.add_assoc, below_succ, zero]
  constructor
  · intro same
    have none : 2 ^ shift (level + rise + 1) * (key.chunk (level + rise + 1)).toNat = 0 := by
      omega
    rcases Nat.mul_eq_zero.mp none with impossible | digit
    · exact absurd impossible positive.ne'
    · exact ⟨digit, by omega⟩
  · intro same
    rw [same.1, same.2, Nat.mul_zero, Nat.add_zero]

theorem below_eq_toNat_iff {key : Key} {level : Nat} (low : level ≤ maxLevel) :
    key.below level = key.toNat ↔ key ≤ bound level := by
  have positive := Nat.two_pow_pos (shift (level + 1))
  rw [UInt64.le_iff_toNat_le, toNat_bound low, below]
  constructor
  · intro same
    have small := Nat.mod_lt key.toNat positive
    omega
  · intro fits
    apply Nat.mod_eq_of_lt
    omega

/-- Keys that fit under a root are told apart by their chunks up to its level. -/
theorem below_inj_of_le {first second : Key} {level : Nat} (low : level ≤ maxLevel)
    (firstFits : first ≤ bound level) (secondFits : second ≤ bound level) :
    first.below level = second.below level ↔ first = second := by
  rw [(below_eq_toNat_iff low).mpr firstFits, (below_eq_toNat_iff low).mpr secondFits,
    UInt64.toNat_inj]

theorem le_bound_topLevel (key : Key) : key ≤ bound key.topLevel :=
  (le_bound_iff key.topLevel_le_maxLevel).mpr (Nat.le_refl _)

theorem bound_lt_iff {key : Key} {level : Nat} (low : level ≤ maxLevel) :
    bound level < key ↔ level < key.topLevel := by
  rw [← UInt64.not_le, le_bound_iff low, Nat.not_le]

theorem le_bound_of_le {key : Key} {low high : Nat} (order : low ≤ high) (top : high ≤ maxLevel)
    (fits : key ≤ bound low) : key ≤ bound high := by
  rw [le_bound_iff top]
  exact Nat.le_trans ((le_bound_iff (Nat.le_trans order top)).mp fits) order

/-- The topmost chunk of a key that is too large for a lower root is not zero, so it
never meets the chunk under which an old root is held. -/
theorem chunk_topLevel_ne_zero {key : Key} (tall : 0 < key.topLevel) :
    key.chunk key.topLevel ≠ 0 := by
  rcases Nat.exists_eq_succ_of_ne_zero tall.ne' with ⟨level, top⟩
  intro zero
  have belowTop : level ≤ maxLevel := by
    have most := key.topLevel_le_maxLevel
    omega
  have whole := (below_eq_toNat_iff key.topLevel_le_maxLevel).mpr key.le_bound_topLevel
  have digit : (key.chunk (level + 1)).toNat = 0 := by
    rw [← Nat.succ_eq_add_one, ← top, zero]
    rfl
  rw [top, Nat.succ_eq_add_one, below_succ, digit, Nat.mul_zero, Nat.add_zero,
    below_eq_toNat_iff belowTop, le_bound_iff belowTop] at whole
  omega

/-! ## Keys with given chunks -/

/-- Every number that is small enough is the lower part of a key that has no more. -/
theorem exists_below_eq {level : Nat} (low : level ≤ maxLevel) {number : Nat}
    (small : number < 2 ^ shift (level + 1)) : ∃ key ≤ bound level, key.below level = number := by
  have top : 2 ^ shift (level + 1) ≤ 2 ^ 64 := by
    apply Nat.pow_le_pow_right (by decide)
    simp only [shift, chunkBits, maxLevel] at low ⊢
    omega
  have value : (UInt64.ofNat number).toNat = number :=
    UInt64.toNat_ofNat_of_lt' (Nat.lt_of_lt_of_le small top)
  have same : below (UInt64.ofNat number) level = number := by
    rw [below, value, Nat.mod_eq_of_lt small]
  exact ⟨UInt64.ofNat number, (below_eq_toNat_iff low).mp (same.trans value.symm), same⟩

theorem exists_chunk_zero (chunk : Chunk) : ∃ key : Key, key.chunk 0 = chunk := by
  have low : 0 ≤ maxLevel := Nat.zero_le _
  rcases exists_below_eq low chunk.toNat_lt with ⟨key, _, same⟩
  rw [below_zero, UInt8.toNat_inj] at same
  exact ⟨key, same⟩

/-- Any chunk goes above the lower part of any key. -/
theorem exists_chunk_above {level : Nat} (low : level + 1 ≤ maxLevel) (chunk : Chunk) (key : Key) :
    ∃ other : Key, other.chunk (level + 1) = chunk ∧ other.below level = key.below level := by
  have digit : chunk.toNat < 2 ^ chunkBits := chunk.toNat_lt
  have lower := key.below_lt level
  have small : key.below level + 2 ^ shift (level + 1) * chunk.toNat < 2 ^ shift (level + 2) := by
    rw [shift_succ (level + 1), Nat.pow_add]
    calc key.below level + 2 ^ shift (level + 1) * chunk.toNat
        < 2 ^ shift (level + 1) * (chunk.toNat + 1) := by
          rw [Nat.mul_add, Nat.mul_one]
          omega
      _ ≤ 2 ^ shift (level + 1) * 2 ^ chunkBits := Nat.mul_le_mul_left _ digit
  rcases exists_below_eq low small with ⟨other, _, same⟩
  have otherLower := other.below_lt level
  have positive := Nat.two_pow_pos (shift (level + 1))
  rw [below_succ] at same
  refine ⟨other, ?_, ?_⟩
  · have digits := congrArg (· / 2 ^ shift (level + 1)) same
    simp only [Nat.add_mul_div_left _ _ positive, Nat.div_eq_of_lt lower,
      Nat.div_eq_of_lt otherLower, Nat.zero_add] at digits
    exact UInt8.toNat_inj.mp digits
  · have rests := congrArg (· % 2 ^ shift (level + 1)) same
    simpa only [Nat.add_mul_mod_self_left, Nat.mod_eq_of_lt lower,
      Nat.mod_eq_of_lt otherLower] using rests

/-! ## The part of a key that higher levels decide -/

/-- The number made of the chunks from `level` upwards. -/
def above (key : Key) (level : Nat) : Nat :=
  key.toNat / 2 ^ shift level

theorem above_zero (key : Key) : key.above 0 = key.toNat :=
  Nat.div_one key.toNat

theorem above_eq (key : Key) (level : Nat) :
    key.above level = 2 ^ chunkBits * key.above (level + 1) + (key.chunk level).toNat := by
  rw [above, above, shift_succ, Nat.pow_add, ← Nat.div_div_eq_div_mul, toNat_chunk]
  exact (Nat.div_add_mod _ _).symm

theorem above_succ (key : Key) (level : Nat) :
    key.above (level + 1) = key.above level / 2 ^ chunkBits := by
  rw [above, above, shift_succ, Nat.pow_add, Nat.div_div_eq_div_mul]

theorem above_succ_lt (key : Key) (level : Nat) : key.above (level + 1) < 2 ^ 56 := by
  rw [above_succ]
  apply Nat.div_lt_of_lt_mul
  exact (Nat.div_le_self key.toNat (2 ^ shift level)).trans_lt key.toNat_lt

/-- Keys agree from a level upwards when they agree above it and have the same chunk there. -/
theorem above_eq_iff {first second : Key} {level : Nat} :
    first.above level = second.above level ↔
      first.above (level + 1) = second.above (level + 1) ∧ first.chunk level = second.chunk level := by
  have digit : (first.chunk level).toNat < 2 ^ chunkBits := (first.chunk level).toNat_lt
  have digitToo : (second.chunk level).toNat < 2 ^ chunkBits := (second.chunk level).toNat_lt
  rw [above_eq, above_eq second, ← UInt8.toNat_inj]
  simp only [chunkBits] at digit digitToo ⊢
  omega

theorem above_eq_of_le {first second : Key} {low high : Nat} (order : low ≤ high)
    (same : first.above low = second.above low) : first.above high = second.above high := by
  induction high, order using Nat.le_induction with
  | base => exact same
  | succ high _ inductionHypothesis => exact (above_eq_iff.mp inductionHypothesis).1

theorem chunk_eq_of_above_eq {first second : Key} {low level : Nat} (order : low ≤ level)
    (same : first.above low = second.above low) : first.chunk level = second.chunk level :=
  (above_eq_iff.mp (above_eq_of_le order same)).2

theorem lt_of_above_lt {first second : Key} {level : Nat}
    (less : first.above level < second.above level) : first < second := by
  rw [UInt64.lt_iff_toNat_lt]
  by_contra order
  have most := Nat.div_le_div_right (c := 2 ^ shift level) (Nat.le_of_not_lt order)
  exact absurd less (Nat.not_lt.mpr most)

/-- The upper part of one key goes above the lower part of another. -/
theorem exists_joined {level : Nat} (low : level ≤ maxLevel) (upper lower : Key) :
    ∃ key : Key, key.above (level + 1) = upper.above (level + 1) ∧
      key.below level = lower.below level := by
  have width : shift (level + 1) ≤ 64 := by
    simp only [shift, chunkBits, maxLevel] at low ⊢
    omega
  have word : 2 ^ shift (level + 1) * 2 ^ (64 - shift (level + 1)) = 2 ^ 64 := by
    rw [← Nat.pow_add, Nat.add_sub_cancel' width]
  have few : upper.above (level + 1) < 2 ^ (64 - shift (level + 1)) :=
    Nat.div_lt_of_lt_mul (word ▸ upper.toNat_lt)
  have rest := lower.below_lt level
  have small : 2 ^ shift (level + 1) * upper.above (level + 1) + lower.below level < 2 ^ 64 := by
    calc 2 ^ shift (level + 1) * upper.above (level + 1) + lower.below level
        < 2 ^ shift (level + 1) * (upper.above (level + 1) + 1) := by
          rw [Nat.mul_add, Nat.mul_one]
          omega
      _ ≤ 2 ^ shift (level + 1) * 2 ^ (64 - shift (level + 1)) := Nat.mul_le_mul_left _ few
      _ = 2 ^ 64 := word
  refine ⟨UInt64.ofNat (2 ^ shift (level + 1) * upper.above (level + 1) + lower.below level), ?_, ?_⟩
  · rw [above, UInt64.toNat_ofNat_of_lt' small, Nat.mul_add_div (Nat.two_pow_pos _),
      Nat.div_eq_of_lt rest, Nat.add_zero]
  · rw [below, UInt64.toNat_ofNat_of_lt' small, Nat.mul_add_mod_self_left, Nat.mod_eq_of_lt rest]

/-- A partial key has no chunks below the level it was built for. -/
def Aligned (key : Key) (level : Nat) : Prop :=
  key.toNat % 2 ^ shift level = 0

theorem aligned_zero (level : Nat) : Aligned 0 level :=
  Nat.zero_mod _

theorem toNat_placed (chunk : Chunk) {level : Nat} (low : level ≤ maxLevel) :
    (placed chunk level).toNat = chunk.toNat * 2 ^ shift level := by
  have small : chunk.toNat < 2 ^ chunkBits := chunk.toNat_lt
  have top : 2 ^ shift (level + 1) ≤ 2 ^ 64 := by
    apply Nat.pow_le_pow_right (by decide)
    simp only [shift, chunkBits, maxLevel] at low ⊢
    omega
  rw [shift_succ, Nat.add_comm, Nat.pow_add] at top
  have inside := Nat.mul_lt_mul_of_pos_right small (Nat.two_pow_pos (shift level))
  rw [placed, Nat.shiftLeft_eq, UInt64.toNat_ofNat']
  exact Nat.mod_eq_of_lt (Nat.lt_of_lt_of_le inside top)

/-- A chunk fills the zeros that the partial key has at its level. -/
theorem toNat_extend {partialKey : Key} {level : Nat} (low : level ≤ maxLevel)
    (aligned : partialKey.Aligned (level + 1)) (chunk : Chunk) :
    (partialKey.extend chunk level).toNat = partialKey.toNat + chunk.toNat * 2 ^ shift level := by
  rcases Nat.dvd_of_mod_eq_zero aligned with ⟨high, whole⟩
  have small : chunk.toNat * 2 ^ shift level < 2 ^ shift (level + 1) := by
    rw [shift_succ, Nat.pow_add, Nat.mul_comm (2 ^ shift level)]
    exact Nat.mul_lt_mul_of_pos_right chunk.toNat_lt (Nat.two_pow_pos _)
  rw [extend, UInt64.toNat_or, toNat_placed chunk low, whole, Nat.two_pow_add_eq_or_of_lt small]

theorem aligned_extend {partialKey : Key} {level : Nat} (low : level ≤ maxLevel)
    (aligned : partialKey.Aligned (level + 1)) (chunk : Chunk) :
    (partialKey.extend chunk level).Aligned level := by
  rcases Nat.dvd_of_mod_eq_zero aligned with ⟨high, whole⟩
  rw [Aligned, toNat_extend low aligned, whole, shift_succ, Nat.pow_add, Nat.mul_assoc,
    Nat.add_mul_mod_self_right, Nat.mul_mod_right]

theorem above_extend {partialKey : Key} {level : Nat} (low : level ≤ maxLevel)
    (aligned : partialKey.Aligned (level + 1)) (chunk : Chunk) :
    (partialKey.extend chunk level).above level =
      2 ^ chunkBits * partialKey.above (level + 1) + chunk.toNat := by
  rcases Nat.dvd_of_mod_eq_zero aligned with ⟨high, whole⟩
  have positive := Nat.two_pow_pos (shift level)
  rw [above, above, toNat_extend low aligned, whole, Nat.mul_div_cancel_left _ (Nat.two_pow_pos _),
    Nat.add_mul_div_right _ _ positive, shift_succ, Nat.pow_add, Nat.mul_assoc,
    Nat.mul_div_cancel_left _ positive]

/-- The keys under an extended partial key are those under the partial key with its chunk. -/
theorem above_eq_extend_iff {key partialKey : Key} {level : Nat} (low : level ≤ maxLevel)
    (aligned : partialKey.Aligned (level + 1)) {chunk : Chunk} :
    key.above level = (partialKey.extend chunk level).above level ↔
      key.above (level + 1) = partialKey.above (level + 1) ∧ key.chunk level = chunk := by
  have digit : (key.chunk level).toNat < 2 ^ chunkBits := (key.chunk level).toNat_lt
  have digitToo : chunk.toNat < 2 ^ chunkBits := chunk.toNat_lt
  rw [above_extend low aligned, above_eq, ← UInt8.toNat_inj]
  simp only [chunkBits] at digit digitToo ⊢
  omega

/-- Extension by chunks keeps their order. -/
theorem above_extend_lt {partialKey : Key} {level : Nat} (low : level ≤ maxLevel)
    (aligned : partialKey.Aligned (level + 1)) {first second : Chunk} (less : first < second) :
    (partialKey.extend first level).above level < (partialKey.extend second level).above level := by
  rw [above_extend low aligned, above_extend low aligned]
  exact Nat.add_lt_add_left (UInt8.lt_iff_toNat_lt.mp less) _

theorem le_bound_iff_above {key : Key} {level : Nat} (low : level ≤ maxLevel) :
    key ≤ bound level ↔ key.above (level + 1) = (0 : Key).above (level + 1) := by
  have positive := Nat.two_pow_pos (shift (level + 1))
  have zero : (0 : Key).above (level + 1) = 0 := Nat.zero_div _
  rw [UInt64.le_iff_toNat_le, toNat_bound low, zero, above, Nat.div_eq_zero_iff]
  omega

/-- Keys that fit below a root agree above it. -/
theorem above_eq_of_le_bound {key other : Key} {level : Nat} (low : level ≤ maxLevel)
    (fits : key ≤ bound level) (fitsToo : other ≤ bound level) :
    key.above (level + 1) = other.above (level + 1) :=
  ((le_bound_iff_above low).mp fits).trans ((le_bound_iff_above low).mp fitsToo).symm

end Key
end AdaptiveRadix
