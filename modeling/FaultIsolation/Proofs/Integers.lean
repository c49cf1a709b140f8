import FaultIsolation.Proofs.Words
import Mathlib.Data.Int.ModEq

/-!
Integer constants. A constant made from a word holds the word modulo its width, and read with a sign
it is the one number in the signed range of that width that differs from the word by a multiple of
the modulus. The cut and the signed reading are made of shifts, and no width asks for a shift that
reaches the end of a word.
-/
namespace FaultIsolation

def shiftLeft? (word : UInt64) (amount : Nat) : Option UInt64 :=
  if amount < machineWidth then some (word <<< UInt64.ofNat amount) else none

def shiftRight? (value : Int64) (amount : Nat) : Option Int64 :=
  if amount < machineWidth then some (value >>> Int64.ofNat amount) else none

/-- The cut of a word to a width, with a check of its shift. -/
def mask? (bits : Nat) (word : UInt64) : Option UInt64 :=
  if machineWidth ≤ bits then some word else (shiftLeft? 1 bits).map fun bound =>
    word &&& (bound - 1)

theorem mask?_eq (bits : Nat) (word : UInt64) : mask? bits word = some (mask bits word) := by
  by_cases hWide : machineWidth ≤ bits
  · rw [mask?, mask, if_pos hWide, if_pos hWide]
  · rw [mask?, mask, if_neg hWide, if_neg hWide, shiftLeft?, if_pos (Nat.lt_of_not_le hWide)]
    rfl

namespace Constant

/-- The signed reading of a word at a width, with a check of its shifts. -/
def signedWord? (bits : Nat) (word : UInt64) : Option Int := do
  let high ← shiftLeft? word (signShift bits)
  let value ← shiftRight? high.toInt64 (signShift bits)
  return value.toInt

theorem signedWord?_eq (bits : Nat) (word : UInt64) :
    signedWord? bits word = some (signedWord bits word) := by
  have hLt := signShift_lt bits
  simp only [signedWord?, shiftLeft?, shiftRight?, if_pos hLt]
  rfl

/-- A constant is read like the word it was made from. -/
theorem signedWord_mask {bits : Nat} (hBits : 1 ≤ bits) (word : UInt64) :
    signedWord bits (mask bits word) = (word.toNat : Int).bmod (2 ^ min bits machineWidth) := by
  rw [signedWord_eq_bmod hBits, mask_toNat, Int.natCast_mod, Int.emod_bmod]

/-- The signed reading is the only number of the signed range that is congruent to the word. -/
theorem signedWord_mask_eq_iff {bits : Nat} (hBits : 1 ≤ bits) (word : UInt64) (n : Int) :
    n = signedWord bits (mask bits word) ↔
      n ≡ word.toNat [ZMOD 2 ^ min bits machineWidth] ∧
        -2 ^ (min bits machineWidth - 1) ≤ n ∧ n < 2 ^ (min bits machineWidth - 1) := by
  obtain ⟨hLow, hHigh⟩ := two_pow_halves (width_pos hBits)
  rw [eq_comm, signedWord_mask hBits, Int.bmod_eq_iff (Nat.two_pow_pos _), Int.modEq_comm,
    Int.modEq_iff_dvd]
  push_cast
  rw [hLow, hHigh]
  constructor
  · rintro ⟨hLe, hLt, hDvd⟩
    exact ⟨hDvd, hLe, hLt⟩
  · rintro ⟨hDvd, hLe, hLt⟩
    exact ⟨hLe, hLt, hDvd⟩

/-- A number as a machine word is its remainder. -/
theorem toNat_ofInt (n : Int) : ((UInt64.ofInt n).toNat : Int) = n % 2 ^ machineWidth := by
  have hNonneg : 0 ≤ n % 2 ^ 64 := Int.emod_nonneg n (by decide)
  have hLt : n % 2 ^ 64 < 2 ^ 64 := Int.emod_lt_of_pos n (by decide)
  have hWord : UInt64.ofInt n = UInt64.ofNat (n % 2 ^ 64).toNat := rfl
  rw [hWord, UInt64.toNat_ofNat_of_lt' (by simp only [UInt64.size]; omega),
    Int.toNat_of_nonneg hNonneg]
  rfl

/-- Numbers that differ by a multiple of the modulus make the same constant. -/
theorem ofWord_ofInt {bits : Nat} {word : UInt64} {n : Int}
    (h : n ≡ word.toNat [ZMOD 2 ^ min bits machineWidth]) :
    ofWord bits (UInt64.ofInt n) = ofWord bits word := by
  have hDvd : (2 ^ min bits machineWidth : Int) ∣ 2 ^ machineWidth :=
    pow_dvd_pow 2 (Nat.min_le_right _ _)
  have hSame : ((UInt64.ofInt n).toNat : Int) % 2 ^ min bits machineWidth = word.toNat % 2 ^ min
      bits machineWidth := by
    rw [toNat_ofInt, Int.emod_emod_of_dvd _ hDvd]
    exact h
  have hMask : mask bits (UInt64.ofInt n) = mask bits word := by
    refine UInt64.toNat_inj.mp ?_
    rw [mask_toNat, mask_toNat]
    exact_mod_cast hSame
  rw [ofWord, ofWord, hMask]

/-- A constant is positive exactly if its top bit is not set and another is. -/
theorem signedWord_mask_pos_iff {bits : Nat} (hBits : 1 ≤ bits) (word : UInt64) :
    0 < signedWord bits (mask bits word) ↔
      0 < (mask bits word).toNat ∧ (mask bits word).toNat < 2 ^ (min bits machineWidth - 1) := by
  have hCut : (mask bits word).toNat % 2 ^ min bits machineWidth = (mask bits word).toNat := by
    rw [mask_toNat, Nat.mod_mod]
  rw [signedWord_pos_iff hBits, hCut]

end Constant

/-- An integer constant of at least one bit holds the word it was made from modulo its width, where
more bits than a word has count as a word. Its signed reading is the only number that is congruent
to the word and lies in the signed range of the width, the constant can be made again from it, and
it is positive exactly if the stored word is neither zero nor in the upper half. Of two cuts the
narrower one counts, and neither a cut nor a signed reading, at any width, shifts by a whole
word. -/
theorem integer_constants_exact :
    (∀ (bits : Nat) (word : UInt64), 1 ≤ bits →
      ∃ unsigned signed, (Constant.ofWord bits word).unsigned? = some unsigned ∧
      (Constant.ofWord bits word).signed? = some signed ∧
      unsigned.toNat = word.toNat % 2 ^ min bits machineWidth ∧
      (∀ n : Int, n = signed ↔ n ≡ word.toNat [ZMOD 2 ^ min bits machineWidth] ∧
        -2 ^ (min bits machineWidth - 1) ≤ n ∧ n < 2 ^ (min bits machineWidth - 1)) ∧
      Constant.ofWord bits (UInt64.ofInt signed) = Constant.ofWord bits word ∧
      (0 < signed ↔ 0 < unsigned.toNat ∧ unsigned.toNat < 2 ^ (min bits machineWidth - 1))) ∧
      (∀ (a b : Nat) (word : UInt64), mask a (mask b word) = mask (min a b) word) ∧
      ∀ (bits : Nat) (word : UInt64), mask? bits word = some (mask bits word) ∧
        Constant.signedWord? bits word = some (Constant.signedWord bits word) := by
  refine ⟨fun bits word hBits => ?_, mask_mask, fun bits word =>
    ⟨mask?_eq bits word, Constant.signedWord?_eq bits word⟩⟩
  have hSigned := Constant.signedWord_mask_eq_iff hBits word
  refine ⟨mask bits word, Constant.signedWord bits (mask bits word), rfl, rfl, mask_toNat bits word,
    hSigned, ?_, ?_⟩
  · exact Constant.ofWord_ofInt ((hSigned _).mp rfl).1
  · exact Constant.signedWord_mask_pos_iff hBits word

/-- At eight bits the word 384 is stored as 128, the least number of that width, which makes the
constant again. -/
theorem integer_constants_exact_leastByte :
    1 ≤ 8 ∧ ∃ unsigned signed, (Constant.ofWord 8 384).unsigned? = some unsigned ∧
      (Constant.ofWord 8 384).signed? = some signed ∧ unsigned.toNat = 128 ∧ signed = -128 ∧
      Constant.ofWord 8 (UInt64.ofInt (-128)) = Constant.ofWord 8 384 ∧
      mask 8 (mask 0 384) = mask 0 384 ∧ mask? 64 384 = some (mask 64 384) := by
  obtain ⟨hRead, hCuts, hShifts⟩ := integer_constants_exact
  obtain ⟨unsigned, signed, hUnsigned, hSigned, hStored, hUnique, hAgain, _⟩ :=
    hRead 8 384 (by decide)
  obtain rfl : -128 = signed := (hUnique (-128)).mpr ⟨by decide, by decide, by decide⟩
  exact ⟨by decide, unsigned, -128, hUnsigned, hSigned, hStored, rfl, hAgain, hCuts 8 0 384,
    (hShifts 64 384).1⟩

end FaultIsolation
