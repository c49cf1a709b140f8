import FaultIsolation.Code.Constant
import Mathlib.Algebra.Order.Ring.Int
import Mathlib.Tactic.Ring
import Mathlib.Tactic.Linarith

/-!
Words as numbers. Cutting a word to a width is a remainder, and reading it with a sign is the
balanced remainder: the only number of that width that differs from the word by a multiple of the
modulus.
-/
namespace FaultIsolation

/-- A width counts as at most a machine word. -/
theorem mask_toNat (bits : Nat) (word : UInt64) :
    (mask bits word).toNat = word.toNat % 2 ^ min bits machineWidth := by
  by_cases hWide : machineWidth ≤ bits
  · rw [mask, if_pos hWide, Nat.min_eq_right hWide]
    exact (Nat.mod_eq_of_lt word.toNat_lt).symm
  · have hBits : bits < 64 := Nat.lt_of_not_le hWide
    have hPow : 2 ^ bits < 2 ^ 64 := Nat.pow_lt_pow_right (by decide) hBits
    have hShift : ((1 : UInt64) <<< UInt64.ofNat bits).toNat = 2 ^ bits := by
      rw [UInt64.toNat_shiftLeft, UInt64.toNat_ofNat_of_lt' (by simp [UInt64.size]; omega),
        Nat.mod_eq_of_lt hBits, Nat.shiftLeft_eq, UInt64.toNat_one, Nat.one_mul,
        Nat.mod_eq_of_lt hPow]
    have hOne : (1 : UInt64) ≤ 1 <<< UInt64.ofNat bits := by
      rw [UInt64.le_iff_toNat_le, hShift]
      exact Nat.one_le_two_pow
    rw [mask, if_neg hWide, Nat.min_eq_left (Nat.le_of_not_le hWide), UInt64.toNat_and,
      UInt64.toNat_sub_of_le _ _ hOne, hShift]
    exact Nat.and_two_pow_sub_one_eq_mod _ _

theorem mask_machineWidth (word : UInt64) : mask machineWidth word = word := by
  simp [mask]

/-- Of two cuts the narrower one counts. -/
theorem mask_mask (a b : Nat) (word : UInt64) : mask a (mask b word) = mask (min a b) word := by
  refine UInt64.toNat_inj.mp ?_
  simp only [mask_toNat]
  rcases Nat.le_total a b with hLe | hLe
  · rw [Nat.min_eq_left hLe]
    exact Nat.mod_mod_of_dvd _ (Nat.pow_dvd_pow 2 (by omega))
  · rw [Nat.min_eq_right hLe]
    refine Nat.mod_eq_of_lt ((Nat.mod_lt _ (Nat.two_pow_pos _)).trans_le ?_)
    exact Nat.pow_le_pow_right (by decide) (by omega)

/-- Half of a power of two, whichever way it is rounded. -/
theorem two_pow_halves {width : Nat} (hWidth : 1 ≤ width) :
    (2 ^ width / 2 : Int) = 2 ^ (width - 1) ∧ ((2 ^ width + 1) / 2 : Int) = 2 ^ (width - 1) := by
  obtain ⟨half, rfl⟩ := Nat.exists_eq_add_of_le hWidth
  rw [Nat.add_sub_cancel_left, pow_add]
  omega

/-- Balanced remainders scale with the modulus. -/
theorem bmod_mul_two_pow (a : Int) (width shift : Nat) (hWidth : 1 ≤ width) :
    (a * 2 ^ shift).bmod (2 ^ width * 2 ^ shift) = a.bmod (2 ^ width) * 2 ^ shift := by
  have hScale : (0 : Int) < 2 ^ shift := by positivity
  have hHalf : ((2 ^ width * 2 ^ shift + 1 : Int) / 2) = 2 ^ (width - 1) * 2 ^ shift := by
    rw [← pow_add, (two_pow_halves (Nat.le_add_right_of_le hWidth)).2, ← pow_add,
      Nat.sub_add_comm hWidth]
  have hMod : a * 2 ^ shift % (2 ^ width * 2 ^ shift) = a % 2 ^ width * 2 ^ shift := by
    rw [mul_comm a, mul_comm (2 ^ width : Int), Int.mul_emod_mul_of_pos _ _ hScale, mul_comm]
  unfold Int.bmod
  push_cast
  rw [hMod, (two_pow_halves hWidth).2, hHalf]
  simp only [mul_lt_mul_iff_of_pos_right hScale]
  split
  · rfl
  · ring

/-- The balanced remainder of a power of two is the remainder, or falls short of it by the
modulus. -/
theorem bmod_two_pow (n width : Nat) (hWidth : 1 ≤ width) :
    (n : Int).bmod (2 ^ width) =
      if n % 2 ^ width < 2 ^ (width - 1) then ((n % 2 ^ width : Nat) : Int)
      else ((n % 2 ^ width : Nat) : Int) - 2 ^ width := by
  unfold Int.bmod
  push_cast
  rw [(two_pow_halves hWidth).2]
  have hCast : ((n : Int) % 2 ^ width < 2 ^ (width - 1)) ↔ n % 2 ^ width < 2 ^ (width - 1) := by
    exact_mod_cast Iff.rfl
  simp only [hCast]

namespace Constant

/-- The amount of an arithmetic shift inside a word is taken as it is. -/
theorem shiftAmount_eq :
    ∀ shift < machineWidth, ((Int64.ofNat shift).toBitVec.smod 64).toNat = shift := by
  decide +kernel

/-- At least one bit of a width counts. -/
theorem width_pos {bits : Nat} (hBits : 1 ≤ bits) : 1 ≤ min bits machineWidth :=
  Nat.le_min.mpr ⟨hBits, by decide⟩

/-- A word read with a sign is its balanced remainder. -/
theorem signedWord_eq_bmod {bits : Nat} (hBits : 1 ≤ bits) (word : UInt64) :
    signedWord bits word = (word.toNat : Int).bmod (2 ^ min bits machineWidth) := by
  have hLt := signShift_lt bits
  have hSum : min bits machineWidth + signShift bits = 64 := by
    simp only [signShift, machineWidth]
    omega
  have hAmount : (UInt64.ofNat (signShift bits)).toNat % 64 = signShift bits := by
    rw [UInt64.toNat_ofNat_of_lt' (by simp only [machineWidth] at hLt; simp [UInt64.size]; omega)]
    exact Nat.mod_eq_of_lt hLt
  have hScale : (0 : Int) < 2 ^ signShift bits := by positivity
  calc signedWord bits word
      = ((word <<< UInt64.ofNat (signShift bits)).toBitVec.toInt) >>> signShift bits := by
        rw [signedWord, ← Int64.toInt_toBitVec, Int64.toBitVec_shiftRight, BitVec.sshiftRight',
          BitVec.toInt_sshiftRight, shiftAmount_eq _ hLt, UInt64.toBitVec_toInt64]
    _ = ((word.toNat : Int) * 2 ^ signShift bits).bmod
      (2 ^ min bits machineWidth * 2 ^ signShift bits) /
          2 ^ signShift bits := by
        rw [Int.shiftRight_eq_div_pow, BitVec.toInt_eq_toNat_bmod, UInt64.toNat_toBitVec,
          UInt64.toNat_shiftLeft, hAmount, Nat.shiftLeft_eq, ← pow_add, hSum]
        rw [Int.natCast_mod, Int.emod_bmod]
        push_cast
        rfl
    _ = (word.toNat : Int).bmod (2 ^ min bits machineWidth) := by
        rw [bmod_mul_two_pow _ _ _ (width_pos hBits), Int.mul_ediv_cancel _ hScale.ne']

/-- A word read at a width is what the width leaves of it, or negative if the top bit of the width
is set. -/
theorem signedWord_cases {bits : Nat} (hBits : 1 ≤ bits) (word : UInt64) :
    (word.toNat % 2 ^ min bits machineWidth < 2 ^ (min bits machineWidth - 1) ∧
      signedWord bits word = (word.toNat % 2 ^ min bits machineWidth : Nat)) ∨
    (2 ^ (min bits machineWidth - 1) ≤ word.toNat % 2 ^ min bits machineWidth ∧
      signedWord bits word < 0) := by
  have hLt : ((word.toNat % 2 ^ min bits machineWidth : Nat) : Int) < 2 ^ min bits
      machineWidth := by
    exact_mod_cast Nat.mod_lt _ (Nat.two_pow_pos _)
  rw [signedWord_eq_bmod hBits, bmod_two_pow _ _ (width_pos hBits)]
  split
  · exact .inl ⟨‹_›, rfl⟩
  · exact .inr ⟨by omega, by omega⟩

/-- A word read at a width is not negative exactly if the top bit of that width is not set. -/
theorem signedWord_nonneg_iff {bits : Nat} (hBits : 1 ≤ bits) (word : UInt64) :
    0 ≤ signedWord bits word ↔ word.toNat % 2 ^ min bits machineWidth < 2 ^
      (min bits machineWidth - 1) := by
  rcases signedWord_cases hBits word with ⟨hLow, hSigned⟩ | ⟨hHigh, hSigned⟩ <;> omega

/-- It is positive exactly if another bit is set besides. -/
theorem signedWord_pos_iff {bits : Nat} (hBits : 1 ≤ bits) (word : UInt64) :
    0 < signedWord bits word ↔ 0 < word.toNat % 2 ^ min bits machineWidth ∧
      word.toNat % 2 ^ min bits machineWidth < 2 ^ (min bits machineWidth - 1) := by
  rcases signedWord_cases hBits word with ⟨hLow, hSigned⟩ | ⟨hHigh, hSigned⟩ <;> omega

end Constant

end FaultIsolation
