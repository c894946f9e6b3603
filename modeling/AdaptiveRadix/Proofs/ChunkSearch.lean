import AdaptiveRadix.ChunkSearch
import AdaptiveRadix.Proofs.Bits

namespace AdaptiveRadix
namespace ChunkSearch

/-!
# Searching all places at once

A search in registers and a search place by place agree, whatever lies past the count.  The
lanes of a comparison are those where it holds of the chunk; the bits read off them are cut
down to the count; and the lowest of these bits is the first place.
-/

/-- What a comparison asks of a chunk. -/
def Comparison.holds (needle chunk : Chunk) : Comparison -> Bool
  | equal => chunk == needle
  | atLeast => needle ≤ chunk

/-- The lanes of the chunks of which something holds. -/
def lanesOf (test : Chunk -> Bool) (chunks : List Chunk) : List UInt8 :=
  chunks.map fun chunk => if test chunk then 0xFF else 0

theorem equalLanes_replicate (needle : Chunk) (chunks : List Chunk) :
    equalLanes (List.replicate chunks.length needle) chunks = lanesOf (needle == ·) chunks := by
  induction chunks with
  | nil => rfl
  | cons chunk rest inductionHypothesis =>
      unfold equalLanes lanesOf at inductionHypothesis ⊢
      rw [List.length_cons, List.replicate_succ, List.zipWith_cons_cons, List.map_cons,
        inductionHypothesis]
      simp only [beq_iff_eq]

theorem zipWith_min_replicate (needle : Chunk) (chunks : List Chunk) :
    List.zipWith min chunks (List.replicate chunks.length needle) =
      chunks.map fun chunk => min chunk needle := by
  induction chunks with
  | nil => rfl
  | cons chunk rest inductionHypothesis =>
      rw [List.length_cons, List.replicate_succ, List.zipWith_cons_cons, List.map_cons,
        inductionHypothesis]

/-- The smaller of a chunk and the needle is the needle just when the chunk is no smaller. -/
theorem beq_min (needle chunk : Chunk) : (needle == min chunk needle) = decide (needle ≤ chunk) := by
  change (needle == if chunk ≤ needle then chunk else needle) = _
  rw [Bool.eq_iff_iff, beq_iff_eq, decide_eq_true_iff]
  simp only [UInt8.le_iff_toNat_le, ← UInt8.toNat_inj]
  split <;> omega

theorem Comparison.lanes_eq (comparison : Comparison) (chunks : List Chunk) (needle : Chunk) :
    comparison.lanes chunks needle = lanesOf (comparison.holds needle) chunks := by
  cases comparison with
  | equal =>
      unfold lanes
      rw [equalLanes_replicate]
      exact congrArg (lanesOf · chunks) (funext fun chunk => Bool.beq_comm)
  | atLeast =>
      have length : chunks.length = (chunks.map fun chunk => min chunk needle).length :=
        (List.length_map _).symm
      unfold lanes
      rw [zipWith_min_replicate, length, equalLanes_replicate]
      unfold lanesOf
      rw [List.map_map]
      apply List.map_congr_left
      intro chunk _
      change (if (needle == min chunk needle) = true then _ else _) = _
      rw [beq_min]
      rfl

/-! ## Bits -/

/-- Which bits of a word are set, by what holds of the chunks at their places. -/
def Reads (word : UInt32) (test : Chunk -> Bool) (chunks : List Chunk) : Prop :=
  ∀ place < 32, word.toBitVec.getLsbD place = chunks[place]?.any test

theorem any_getElem?_take (test : Chunk -> Bool) (chunks : List Chunk) (count place : Nat) :
    (chunks.take count)[place]?.any test =
      (chunks[place]?.any test && decide (place < count)) := by
  rw [List.getElem?_take]
  by_cases below : place < count
  · rw [if_pos below, decide_eq_true below, Bool.and_true]
  · rw [if_neg below, decide_eq_false below, Bool.and_false]
    rfl

theorem getLsbD_shiftLeft (word shift : UInt32) (place : Nat) :
    (word <<< shift).toBitVec.getLsbD place =
      (decide (place < 32) && !decide (place < shift.toNat % 32) &&
        word.toBitVec.getLsbD (place - shift.toNat % 32)) := by
  have amount : (shift.toBitVec % 32).toNat = shift.toNat % 32 := BitVec.toNat_umod
  rw [UInt32.toBitVec_shiftLeft, BitVec.shiftLeft_eq', BitVec.getLsbD_shiftLeft, amount]

theorem reads_highBits (test : Chunk -> Bool) (chunks : List Chunk) :
    Reads (highBits (lanesOf test chunks)) test chunks := by
  induction chunks with
  | nil =>
      intro place _
      exact BitVec.getLsbD_zero
  | cons chunk rest inductionHypothesis =>
      intro place inside
      have first (lane : Bool) :
          ((if lane then 0xFF else 0 : UInt8) >>> 7).toUInt32.toBitVec.getLsbD place =
            (decide (place = 0) && lane) := by
        decide +revert
      change (((if test chunk then 0xFF else 0 : UInt8) >>> 7).toUInt32 |||
        highBits (lanesOf test rest) <<< 1).toBitVec.getLsbD place = _
      rw [UInt32.toBitVec_or, BitVec.getLsbD_or, first, getLsbD_shiftLeft]
      cases place with
      | zero => simp
      | succ place =>
          have below : place < 32 := Nat.lt_of_succ_lt inside
          have later := inductionHypothesis place below
          simpa [inside] using later

theorem getLsbD_countMask (count : Nat) {place : Nat} (inside : place < 32) :
    (countMask count).toBitVec.getLsbD place = decide (place < count) := by
  unfold countMask
  by_cases all : 32 ≤ count
  · have ones : (0xFFFFFFFF : UInt32).toBitVec.getLsbD place = true := by decide +revert
    rw [if_pos all, ones, decide_eq_true (by omega)]
  · have mask : ∀ count < 32, ∀ place < 32,
        (((1 : UInt32) <<< count.toUInt32) - 1).toBitVec.getLsbD place = decide (place < count) := by
      decide
    rw [if_neg all]
    exact mask count (Nat.not_le.mp all) place inside

theorem Comparison.reads_mask16 (comparison : Comparison) (chunks : List Chunk) (needle : Chunk) :
    Reads (comparison.mask16 chunks needle) (comparison.holds needle) (chunks.take 16) := by
  intro place inside
  have low : (0xFFFF : UInt32).toBitVec.getLsbD place = decide (place < 16) := by decide +revert
  unfold mask16
  rw [lanes_eq, UInt32.toBitVec_and, BitVec.getLsbD_and, reads_highBits _ _ place inside, low,
    any_getElem?_take, Bool.and_assoc, Bool.and_self]

/-- The bits of two halves are those of the whole. -/
theorem Comparison.reads_mask32 (comparison : Comparison) (registers : Registers)
    (chunks : List Chunk) (needle : Chunk) :
    Reads (comparison.mask32 registers chunks needle) (comparison.holds needle) (chunks.take 32) := by
  intro place inside
  have halves : (comparison.mask16 (chunks.take 16) needle |||
      comparison.mask16 (chunks.drop 16) needle <<< 16).toBitVec.getLsbD place =
        (chunks.take 32)[place]?.any (comparison.holds needle) := by
    have amount : (16 : UInt32).toNat % 32 = 16 := rfl
    rw [UInt32.toBitVec_or, BitVec.getLsbD_or, getLsbD_shiftLeft, amount,
      reads_mask16 _ _ _ place inside,
      reads_mask16 _ _ _ (place - 16) (Nat.lt_of_le_of_lt (Nat.sub_le place 16) inside)]
    simp only [any_getElem?_take, List.getElem?_drop]
    by_cases lower : place < 16
    · simp [inside, lower]
    · have upper : 16 + (place - 16) = place := by omega
      have within : place - 16 < 16 := by omega
      simp [inside, lower, upper, within]
  cases registers with
  | thirtyTwo =>
      unfold mask32
      rw [lanes_eq]
      exact reads_highBits _ _ place inside
  | none | sixteen => exact halves

/-- The bits that a search looks at are those of the leading places. -/
theorem Comparison.reads_hits (comparison : Comparison) (registers : Registers)
    {chunks : List Chunk} (width : chunks.length = 16 ∨ chunks.length = 32) (count : Nat)
    (needle : Chunk) :
    Reads (comparison.hits registers chunks count needle) (comparison.holds needle)
      (chunks.take count) := by
  intro place inside
  have whole : (if chunks.length = 16 then comparison.mask16 chunks needle
      else comparison.mask32 registers chunks needle).toBitVec.getLsbD place =
        chunks[place]?.any (comparison.holds needle) := by
    rcases width with sixteen | thirtyTwo
    · rw [if_pos sixteen, reads_mask16 _ _ _ place inside, List.take_of_length_le sixteen.le]
    · rw [if_neg (by omega), reads_mask32 _ _ _ _ place inside, List.take_of_length_le thirtyTwo.le]
  unfold hits
  rw [UInt32.toBitVec_and, BitVec.getLsbD_and, whole, getLsbD_countMask count inside,
    any_getElem?_take]

/-! ## The lowest bit -/

theorem lowest?_eq_some {word : UInt32} {place : Nat} (set : word.toBitVec.getLsbD place = true)
    (below : ∀ lower < place, word.toBitVec.getLsbD lower = false) :
    lowest? word = some place := by
  have nonzero : word ≠ 0 := by
    intro zero
    rw [zero, UInt32.toBitVec_zero, BitVec.getLsbD_zero] at set
    cases set
  unfold lowest?
  rw [if_neg nonzero, toNat_ctz set below]

/-- The lowest bit is at the first place. -/
theorem lowest?_eq_findIdx? {word : UInt32} {test : Chunk -> Bool} {chunks : List Chunk}
    (short : chunks.length ≤ 32) (reads : Reads word test chunks) :
    lowest? word = chunks.findIdx? test := by
  cases found : chunks.findIdx? test with
  | none =>
      have fails := List.findIdx?_eq_none_iff.mp found
      have zero : word = 0 := by
        apply UInt32.toBitVec_inj.mp
        apply BitVec.eq_of_getLsbD_eq
        intro place inside
        rw [reads place inside, UInt32.toBitVec_zero, BitVec.getLsbD_zero, Option.any_eq_false_iff_get]
        intro occupied
        exact fails _ (List.mem_of_getElem? (Option.some_get occupied).symm)
      exact if_pos zero
  | some place =>
      rcases List.findIdx?_eq_some_iff_getElem.mp found with ⟨inside, holds, before⟩
      apply lowest?_eq_some
      · rw [reads place (by omega), List.getElem?_eq_getElem inside, Option.any_some, holds]
      · intro lower earlier
        rw [reads lower (by omega), List.getElem?_eq_getElem (by omega), Option.any_some,
          Bool.eq_false_iff]
        exact before lower earlier

variable {chunks : List Chunk} {count : Nat}

/-- Every machine finds the chunk where a search of the leading places does. -/
theorem findEqual_eq (registers : Registers) (fits : count ≤ chunks.length) (needle : Chunk) :
    findEqual registers chunks count needle = position? (chunks.take count) needle := by
  unfold findEqual
  by_cases wide : registers ≠ .none ∧ (chunks.length = 16 ∨ chunks.length = 32)
  · have hits := Comparison.equal.reads_hits registers wide.2 count needle
    have length := List.length_take_of_le fits
    rw [if_pos wide, lowest?_eq_findIdx? (by omega) hits]
    rfl
  · rw [if_neg wide]

-- Places past the count match in every lane and are not found.
example : findEqual .sixteen (List.replicate 17 8 ++ List.replicate 15 9) 17 9 = none := by decide +kernel

/-- Every machine finds the insertion point of the leading places. -/
theorem findInsertionPoint_eq (registers : Registers) (fits : count ≤ chunks.length)
    (needle : Chunk) :
    findInsertionPoint registers chunks count needle = insertionPoint (chunks.take count) needle := by
  unfold findInsertionPoint
  by_cases wide : registers ≠ .none ∧ (chunks.length = 16 ∨ chunks.length = 32)
  · have hits := Comparison.atLeast.reads_hits registers wide.2 count needle
    have length := List.length_take_of_le fits
    rw [if_pos wide, lowest?_eq_findIdx? (by omega) hits, insertionPoint,
      List.findIdx_eq_getD_findIdx?, length]
    rfl
  · rw [if_neg wide]

end ChunkSearch
end AdaptiveRadix
