import Mathlib

namespace AdaptiveRadix

/-!
# Bits of a word

What the library's operations on words count and find, said of single bits.
-/

variable {width : Nat}

theorem cpopNatRec_eq_count (word : BitVec width) (places : Nat) :
    word.cpopNatRec places 0 = Nat.count (word.getLsbD ·) places := by
  induction places with
  | zero => rfl
  | succ places inductionHypothesis =>
      rw [BitVec.cpopNatRec_succ, BitVec.cpopNatRec_eq, inductionHypothesis, Nat.zero_add,
        Nat.count_succ]
      cases word.getLsbD places <;> rfl

/-- The population count of a word is the number of places where it has a bit. -/
theorem toNat_cpop (word : BitVec width) :
    word.cpop.toNat = Nat.count (word.getLsbD ·) width := by
  have few := BitVec.cpopNatRec_zero_le word width
  rw [BitVec.cpop, BitVec.toNat_ofNat, ← cpopNatRec_eq_count]
  exact Nat.mod_eq_of_lt (Nat.lt_of_le_of_lt few Nat.lt_two_pow_self)

/-- The zeros that end a word are counted up to its lowest bit. -/
theorem toNat_ctz {word : BitVec width} {place : Nat} (set : word.getLsbD place = true)
    (below : ∀ lower < place, word.getLsbD lower = false) : word.ctz.toNat = place := by
  have nonzero : word ≠ BitVec.ofNat width 0 := by
    intro zero
    rw [zero, BitVec.getLsbD_zero] at set
    cases set
  apply Nat.le_antisymm
  · by_contra above
    rw [BitVec.getLsbD_false_of_lt_ctz (Nat.lt_of_not_le above)] at set
    cases set
  · by_contra low
    have found := BitVec.getLsbD_true_ctz_of_ne_zero nonzero
    rw [below _ (Nat.lt_of_not_le low)] at found
    cases found

/-- The bits that end a word are counted by the zeros that end its complement. -/
theorem toNat_ctz_not {word : BitVec width} {place : Nat} (inside : place < width)
    (clear : word.getLsbD place = false) (below : ∀ lower < place, word.getLsbD lower = true) :
    (~~~word).ctz.toNat = place := by
  apply toNat_ctz
  · rw [BitVec.getLsbD_not, clear, decide_eq_true inside]
    rfl
  · intro lower before
    rw [BitVec.getLsbD_not, below lower before, Bool.not_true, Bool.and_false]

end AdaptiveRadix
