import AdaptiveRadix.Proofs.Key

namespace AdaptiveRadix
namespace Key

/-!
# Keys chunk by chunk

A tree never compares whole keys below its root.  It goes by the chunks from the level of
the root downwards, and a walk puts a key together again by or-ing its chunks into their
places.  For the keys that fit under the root nothing is lost on the way: their chunks from
that level on tell them apart, order them, and give them back.

A key that does not fit wants a higher root, and the chunk that it has at the level it wants
is not zero.  The old root comes to lie under chunk 0, so the two never meet.

The library computes all this with natural numbers.  `Worded` says what the same comes to in
words of 64 bits, where a shift by the width of a word has to be kept away from.
-/

variable {key first second : Key} {level : Nat}

/-- The chunks of a key from a level downwards. -/
def chunksFrom (key : Key) : Nat -> List Chunk
  | 0 => [key.chunk 0]
  | level + 1 => key.chunk (level + 1) :: key.chunksFrom level

/-- What a walk that has a part of a key makes of it on the way past some chunks, of which
the last is at level 0. -/
def assembled (partialKey : Key) : List Chunk -> Key
  | [] => partialKey
  | chunk :: rest => assembled (partialKey.extend chunk rest.length) rest

theorem length_chunksFrom (key : Key) (level : Nat) : (key.chunksFrom level).length = level + 1 := by
  induction level with
  | zero => rfl
  | succ level inductionHypothesis => exact congrArg (· + 1) inductionHypothesis

/-! ## Putting a key together -/

/-- Below a partial key, the chunks of a key add up to its lower part. -/
theorem toNat_assembled {partialKey : Key} (low : level ≤ maxLevel)
    (aligned : partialKey.Aligned (level + 1)) (key : Key) :
    (partialKey.assembled (key.chunksFrom level)).toNat = partialKey.toNat + key.below level := by
  induction level generalizing partialKey with
  | zero =>
      have digit := toNat_extend low aligned (key.chunk 0)
      rw [below_zero]
      simpa [chunksFrom, assembled, shift] using digit
  | succ level inductionHypothesis =>
      have here := toNat_extend low aligned (key.chunk (level + 1))
      have rest := inductionHypothesis (Nat.le_of_succ_le low)
        (aligned_extend low aligned (key.chunk (level + 1)))
      rw [chunksFrom, assembled, length_chunksFrom]
      calc
        _ = (partialKey.extend (key.chunk (level + 1)) (level + 1)).toNat + key.below level := rest
        _ = partialKey.toNat + key.below (level + 1) := by
          rw [here, below_succ, Nat.mul_comm (2 ^ shift (level + 1))]
          omega

/-- A key that fits below a root is the one that a walk from the root puts together. -/
theorem assembled_chunksFrom (low : level ≤ maxLevel) (fits : key ≤ bound level) :
    assembled 0 (key.chunksFrom level) = key := by
  apply UInt64.toNat_inj.mp
  calc
    _ = (0 : Key).toNat + key.below level := toNat_assembled low (aligned_zero _) key
    _ = key.toNat := by
      rw [(below_eq_toNat_iff low).mpr fits, UInt64.toNat_zero, Nat.zero_add]

/-! ## Telling keys apart -/

theorem exists_chunk_ne (different : first.below level ≠ second.below level) :
    ∃ floor ≤ level, first.chunk floor ≠ second.chunk floor := by
  induction level with
  | zero => exact ⟨0, Nat.le_refl 0, fun same => different (below_zero_inj.mpr same)⟩
  | succ level inductionHypothesis =>
      by_cases same : first.chunk (level + 1) = second.chunk (level + 1)
      · have lower : first.below level ≠ second.below level := fun below =>
          different (below_succ_inj.mpr ⟨same, below⟩)
        rcases inductionHypothesis lower with ⟨floor, under, apart⟩
        exact ⟨floor, Nat.le_succ_of_le under, apart⟩
      · exact ⟨level + 1, Nat.le_refl _, same⟩

/-- A leading digit decides, and what follows it only where the digits are the same. -/
private theorem add_mul_lt_iff {base low lowToo high highToo : Nat} (small : low < base)
    (smallToo : lowToo < base) :
    low + base * high < lowToo + base * highToo ↔ high < highToo ∨ high = highToo ∧ low < lowToo := by
  rcases Nat.lt_trichotomy high highToo with less | rfl | more
  · have step : base * high + base ≤ base * highToo := Nat.mul_le_mul_left base less
    exact ⟨fun _ => Or.inl less, fun _ => by omega⟩
  · omega
  · have step : base * highToo + base ≤ base * high := Nat.mul_le_mul_left base more
    exact ⟨fun _ => by omega, fun _ => by omega⟩

/-- The lower parts of keys are ordered as the words of their chunks. -/
theorem below_lt_iff : first.below level < second.below level ↔
    first.chunksFrom level < second.chunksFrom level := by
  induction level with
  | zero =>
      rw [below_zero, below_zero, ← UInt8.lt_iff_toNat_lt]
      simp [chunksFrom, List.cons_lt_cons_iff]
  | succ level inductionHypothesis =>
      rw [below_succ, below_succ, chunksFrom, chunksFrom, List.cons_lt_cons_iff,
        ← inductionHypothesis, UInt8.lt_iff_toNat_lt, ← UInt8.toNat_inj]
      exact add_mul_lt_iff (first.below_lt level) (second.below_lt level)

theorem lt_iff_chunksFrom_lt (low : level ≤ maxLevel) (fits : first ≤ bound level)
    (fitsToo : second ≤ bound level) :
    first < second ↔ first.chunksFrom level < second.chunksFrom level := by
  rw [UInt64.lt_iff_toNat_lt, ← (below_eq_toNat_iff low).mpr fits,
    ← (below_eq_toNat_iff low).mpr fitsToo]
  exact below_lt_iff

/-! ## In words of 64 bits -/

/-- The level, the bound and the chunks of a key by the operations of a machine word. -/
structure Worded (key : Key) (level : Nat) : Prop where
  /-- The highest bit is found by counting the zeros above it, and rounded down to a chunk. -/
  shift_topLevel : shift key.topLevel =
    if key = 0 then 0 else (63 - key.toBitVec.clz.toNat) / chunkBits * chunkBits
  /-- The highest root would want a shift by a whole word, and takes all keys instead. -/
  bound_eq : bound level =
    if level = maxLevel then (0xFFFF_FFFF_FFFF_FFFF : Key)
    else ((1 : Key) <<< UInt64.ofNat (shift level + chunkBits)) - 1
  chunk_eq : key.chunk level = (key >>> UInt64.ofNat (shift level)).toUInt8
  extend_eq : forall chunk, key.extend chunk level =
    key ||| chunk.toUInt64 <<< UInt64.ofNat (shift level)

/-- The highest bit of a word that is not zero is below its leading zeros. -/
theorem log2_toNat (nonzero : key ≠ 0) : key.toNat.log2 = 63 - key.toBitVec.clz.toNat := by
  have bits : key.toBitVec ≠ 0#64 := fun same => nonzero (UInt64.toBitVec_inj.mp same)
  have number : key.toNat ≠ 0 := fun same => nonzero (UInt64.toNat_inj.mp same)
  have few : key.toBitVec.clz.toNat < 64 := BitVec.lt_def.mp (BitVec.clz_lt_iff_ne_zero.mpr bits)
  have above : 63 - key.toBitVec.clz.toNat + 1 = 64 - key.toBitVec.clz.toNat := by omega
  apply (Nat.log2_eq_iff number).mpr
  refine ⟨BitVec.two_pow_sub_clz_le_toNat_of_ne_zero (by decide) bits, ?_⟩
  rw [above]
  exact BitVec.toNat_lt_two_pow_sub_clz

/-- Up to the highest level, a shift is an amount by which words are shifted. -/
private theorem toNat_shift_mod (low : level ≤ maxLevel) :
    (UInt64.ofNat (shift level)).toNat % 64 = shift level := by
  have small : shift level < 64 := by
    simp only [shift, chunkBits, maxLevel] at low ⊢
    omega
  rw [UInt64.toNat_ofNat_of_lt' (Nat.lt_trans small (by decide)), Nat.mod_eq_of_lt small]

theorem worded (low : level ≤ maxLevel) (key : Key) : Worded key level where
  shift_topLevel := by
    by_cases zero : key = 0
    · subst key
      rfl
    · rw [if_neg zero, ← log2_toNat zero]
      exact Nat.mul_comm chunkBits _
  bound_eq := by
    simp only [maxLevel] at low
    interval_cases level <;> decide
  chunk_eq := by
    apply UInt8.toNat_inj.mp
    rw [toNat_chunk, UInt64.toNat_toUInt8, UInt64.toNat_shiftRight, toNat_shift_mod low,
      Nat.shiftRight_eq_div_pow]
    rfl
  extend_eq chunk := by
    have shifted : placed chunk level = chunk.toUInt64 <<< UInt64.ofNat (shift level) := by
      have small := (placed chunk level).toNat_lt
      apply UInt64.toNat_inj.mp
      rw [toNat_placed chunk low] at small ⊢
      rw [UInt64.toNat_shiftLeft, toNat_shift_mod low, UInt8.toNat_toUInt64, Nat.shiftLeft_eq,
        Nat.mod_eq_of_lt small]
    rw [extend, shifted]

/-! ## All of it -/

/-- What a tree with its root at a level may rely on with a key. -/
structure Chunkwise (key : Key) (level : Nat) : Prop extends Worded key level where
  le_bound_iff_shift : key ≤ bound level ↔ shift key.topLevel ≤ shift level
  /-- No lower root takes the key than one at the level that it wants. -/
  topLevel_least : IsLeast {height | height ≤ maxLevel ∧ key ≤ bound height} key.topLevel
  /-- A key that wants a higher root keeps away from the place of the old one. -/
  leading_ne_zero : bound level < key -> key.chunk key.topLevel ≠ 0
  assembled_eq : key ≤ bound level -> assembled 0 (key.chunksFrom level) = key
  exists_ne : key ≤ bound level -> ∀ other ≤ bound level, other ≠ key ->
    ∃ floor ≤ level, other.chunk floor ≠ key.chunk floor
  lt_iff : key ≤ bound level -> ∀ other ≤ bound level,
    key < other ↔ key.chunksFrom level < other.chunksFrom level

/-- Every key is found, told apart and put together by its chunks, whatever the level. -/
theorem chunkwise (key : Key) (low : level ≤ maxLevel) : Chunkwise key level where
  toWorded := worded low key
  le_bound_iff_shift := by
    rw [le_bound_iff low]
    exact (Nat.mul_le_mul_left_iff (by decide)).symm
  topLevel_least := by
    refine ⟨⟨key.topLevel_le_maxLevel, key.le_bound_topLevel⟩, ?_⟩
    intro height takes
    exact (le_bound_iff takes.1).mp takes.2
  leading_ne_zero outside :=
    chunk_topLevel_ne_zero (Nat.lt_of_le_of_lt (Nat.zero_le level) ((bound_lt_iff low).mp outside))
  assembled_eq fits := assembled_chunksFrom low fits
  exists_ne fits other fitsToo different :=
    exists_chunk_ne fun same => different ((below_inj_of_le low fitsToo fits).mp same)
  lt_iff fits _ fitsToo := lt_iff_chunksFrom_lt low fits fitsToo

/-- The largest key wants the highest root, and has a chunk for each of its levels. -/
theorem chunkwise_largest : 7 ≤ maxLevel ∧ Chunkwise 0xFFFF_FFFF_FFFF_FFFF 7 :=
  ⟨by decide, chunkwise 0xFFFF_FFFF_FFFF_FFFF (by decide)⟩

end Key
end AdaptiveRadix
