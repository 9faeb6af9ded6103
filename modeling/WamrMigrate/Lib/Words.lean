import Mathlib.Tactic.Ring

/-!
# Words with their low bits cleared

`q & ~mask` for a mask of low bits rounds a word down to a multiple of a power of two.
-/

namespace Words

theorem and_not_mask {q mask : BitVec 32} {k : Nat} (hmask : mask.toNat = 2 ^ k - 1) : q &&& ~~~mask = (q >>> k) <<< k := by
  ext i hi
  have hbit : mask[i] = decide (i < k) := by
    rw [← BitVec.getLsbD_eq_getElem hi, BitVec.getLsbD, hmask, Nat.testBit_two_pow_sub_one]
  rw [BitVec.getElem_and, BitVec.getElem_not, BitVec.getElem_shiftLeft, hbit]
  by_cases h : i < k
  · simp [h]
  · have hi' : k + (i - k) = i := Nat.add_sub_cancel' (Nat.le_of_not_lt h)
    simp [h, hi', BitVec.getLsbD_eq_getElem hi]

theorem toNat_and_not_mask (q : UInt32) {mask : UInt32} {k : Nat} (hmask : mask.toNat = 2 ^ k - 1) :
    (q &&& ~~~mask).toNat = q.toNat / 2 ^ k * 2 ^ k := by
  have hnat : (q &&& ~~~mask).toNat = (q.toBitVec &&& ~~~mask.toBitVec).toNat := rfl
  have hle : q.toNat / 2 ^ k * 2 ^ k < 2 ^ 32 := Nat.lt_of_le_of_lt (Nat.div_mul_le_self _ _) q.toNat_lt
  rw [hnat, and_not_mask hmask]
  simp only [BitVec.toNat_shiftLeft, BitVec.toNat_ushiftRight, Nat.shiftLeft_eq, Nat.shiftRight_eq_div_pow, UInt32.toNat_toBitVec]
  exact Nat.mod_eq_of_lt hle

end Words
