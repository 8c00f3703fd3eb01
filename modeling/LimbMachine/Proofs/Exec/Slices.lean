import LimbMachine.Exec.State
import Mathlib.Tactic.Ring
import Mathlib.Tactic.Linarith

/-!
# Bit slices of signed numbers

A negative number is spread as the bits of `2 ^ (length + 1) - magnitude`, filled up with ones
past their length. The slice at any offset and of any width is then the one that floored division
gives, also far above the length (`extendedSlice_spreadSource`). For a negative number the end of
the slice has to be a size, since it is compared with the length.
-/

namespace LimbMachine

/-! ## Lengths and masks -/

theorem lt_two_pow_bitLength (n : Nat) : n < 2 ^ bitLength n :=
  bitLength_le_iff.1 (Nat.le_refl _)

/-- The length of a number between two neighbouring powers of two. -/
theorem bitLength_eq_of_between {n k : Nat} (hlow : 2 ^ k ≤ n) (hhigh : n < 2 ^ (k + 1)) :
    bitLength n = k + 1 := by
  have hle : bitLength n ≤ k + 1 := bitLength_le_iff.2 hhigh
  have hgt : ¬ bitLength n ≤ k := fun h => Nat.not_lt.2 hlow (bitLength_le_iff.1 h)
  omega

/-- Two masks differ in the bits between their widths. -/
theorem bitMask_xor {start width : Nat} (h : start ≤ width) :
    bitMask width ^^^ bitMask start = 2 ^ start * (2 ^ (width - start) - 1) := by
  refine Nat.eq_of_testBit_eq fun i => ?_
  rw [Nat.testBit_xor, Nat.testBit_two_pow_mul]
  unfold bitMask
  rw [Nat.testBit_two_pow_sub_one, Nat.testBit_two_pow_sub_one, Nat.testBit_two_pow_sub_one]
  by_cases h₁ : i < start
  · simp [h₁, show i < width by omega, show ¬ start ≤ i by omega]
  · by_cases h₂ : i < width
    · simp [h₁, h₂, show start ≤ i by omega, show i - start < width - start by omega]
    · simp [h₁, h₂, show ¬ i - start < width - start by omega]

/-- Filling a short slice up with ones. -/
theorem or_bitMask_xor {n start width : Nat} (hn : n < 2 ^ start) (h : start ≤ width) :
    n ||| (bitMask width ^^^ bitMask start) = n + (2 ^ width - 2 ^ start) := by
  rw [bitMask_xor h, Nat.or_comm, ← Nat.two_pow_add_eq_or_of_lt hn, Nat.mul_sub, ← Nat.pow_add,
    Nat.add_sub_cancel' h]
  omega

theorem bitSlice_eq (n offset width : Nat) :
    bitSlice n offset width = n / 2 ^ offset % 2 ^ width := by
  rw [bitSlice, Nat.shiftRight_eq_div_pow]

/-- A slice is no wider than asked, also where the bit at which it ends starts over. -/
theorem extendedSlice_lt (negative : Bool) (n offset width : Nat) :
    extendedSlice negative n offset width < 2 ^ width := by
  have hslice : bitSlice n offset width < 2 ^ width := bitSlice_lt n offset width
  unfold extendedSlice
  split
  · rename_i hfill
    have hstart : bitLength n - offset ≤ width := by
      have hend : Word.add offset width ≤ offset + width := Nat.mod_le _ _
      simp only [Bool.and_eq_true, decide_eq_true_eq] at hfill
      omega
    have hmask : bitMask (bitLength n - offset) < 2 ^ width :=
      Nat.lt_of_lt_of_le (bitMask_lt _) (Nat.pow_le_pow_right (by omega) hstart)
    exact Nat.or_lt_two_pow hslice (Nat.xor_lt_two_pow (bitMask_lt width) hmask)
  · exact hslice

/-! ## Negative numbers -/

section Negative

variable {m : Nat}

/-- A positive magnitude, taken from the power of two above its length, is one bit longer. -/
theorem bitLength_spread (hm : 0 < m) :
    bitLength (2 ^ (bitLength m + 1) - m) = bitLength m + 1 := by
  have hlt := lt_two_pow_bitLength m
  have hpow : 2 ^ (bitLength m + 1) = 2 * 2 ^ bitLength m := by rw [Nat.pow_succ]; omega
  exact bitLength_eq_of_between (by omega) (by omega)

/-- Below the length of the spread number, its quotient is off by the sign. -/
theorem neg_ediv_of_le {offset : Nat} (h : offset ≤ bitLength m + 1) :
    (-(m : Int)) / 2 ^ offset =
      ((2 ^ (bitLength m + 1) - m) / 2 ^ offset : Nat) - 2 ^ (bitLength m + 1 - offset) := by
  have hle : m ≤ 2 ^ (bitLength m + 1) := by
    have := lt_two_pow_bitLength m
    have : 2 ^ bitLength m ≤ 2 ^ (bitLength m + 1) := Nat.pow_le_pow_right (by omega) (by omega)
    omega
  obtain ⟨j, hj⟩ := Nat.exists_eq_add_of_le h
  have hsplit : (-(m : Int)) = ((2 ^ (bitLength m + 1) - m : Nat) : Int) + (-2 ^ j) *
      2 ^ offset := by
    rw [Int.ofNat_sub hle, hj]
    push_cast
    ring
  have hpos : (2 : Int) ^ offset ≠ 0 := by positivity
  rw [hsplit, Int.add_mul_ediv_right _ _ hpos, hj, Nat.add_sub_cancel_left]
  push_cast
  ring

/-- Past the length of the spread number only the sign is left. -/
theorem neg_ediv_of_lt (hm : 0 < m) {offset : Nat} (h : bitLength m + 1 < offset) :
    (-(m : Int)) / 2 ^ offset = -1 := by
  apply Int.ediv_eq_neg_one_of_neg_of_le
  · omega
  · have h₁ := lt_two_pow_bitLength m
    have h₂ : 2 ^ bitLength m ≤ 2 ^ offset := Nat.pow_le_pow_right (by omega) (by omega)
    have h₃ : m ≤ 2 ^ offset := by omega
    rw [neg_neg]
    exact_mod_cast h₃

/-- A difference that is negative wraps once. -/
theorem add_sub_eq_emod {a b c : Int} (ha : 0 ≤ a) (hab : a < b) (hbc : b ≤ c) :
    a + (c - b) = (a - b) % c := by
  rw [show a - b = a + (c - b) + c * (-1) by ring, Int.add_mul_emod_self_left,
    Int.emod_eq_of_lt (by omega) (by omega)]

/-- A slice that reaches past the length has its own bits, then ones. -/
theorem extendedSlice_neg_across (hm : 0 < m) {offset width : Nat}
    (ho : offset ≤ bitLength m + 1) (hw : bitLength m + 1 ≤ offset + width) :
    (bitSlice (2 ^ (bitLength m + 1) - m) offset width |||
        (bitMask width ^^^ bitMask (bitLength m + 1 - offset)) : Nat) =
      (-(m : Int)) / 2 ^ offset % 2 ^ width := by
  have hn : 2 ^ (bitLength m + 1) - m < 2 ^ (bitLength m + 1) :=
    Nat.sub_lt (Nat.two_pow_pos _) hm
  have hq : (2 ^ (bitLength m + 1) - m) / 2 ^ offset < 2 ^ (bitLength m + 1 - offset) := by
    rw [Nat.div_lt_iff_lt_mul (Nat.two_pow_pos _), ← Nat.pow_add, Nat.sub_add_cancel ho]
    exact hn
  have hstart : bitLength m + 1 - offset ≤ width := by omega
  have hpow : 2 ^ (bitLength m + 1 - offset) ≤ 2 ^ width :=
    Nat.pow_le_pow_right (by omega) hstart
  rw [bitSlice_eq, Nat.mod_eq_of_lt (Nat.lt_of_lt_of_le hq hpow), or_bitMask_xor hq hstart,
    neg_ediv_of_le ho, Int.natCast_add, Int.ofNat_sub hpow]
  push_cast
  exact add_sub_eq_emod (by positivity) (by exact_mod_cast hq) (by exact_mod_cast hpow)

/-- A slice past the length is all ones. -/
theorem extendedSlice_neg_past (hm : 0 < m) {offset : Nat} (width : Nat)
    (ho : bitLength m + 1 < offset) :
    (bitSlice (2 ^ (bitLength m + 1) - m) offset width |||
        (bitMask width ^^^ bitMask (bitLength m + 1 - offset)) : Nat) =
      (-(m : Int)) / 2 ^ offset % 2 ^ width := by
  have hn : 2 ^ (bitLength m + 1) - m < 2 ^ offset :=
    Nat.lt_of_lt_of_le (Nat.sub_lt (Nat.two_pow_pos _) hm)
      (Nat.pow_le_pow_right (by omega) (by omega))
  have hone : 1 ≤ 2 ^ width := Nat.one_le_two_pow
  rw [bitSlice_eq, Nat.div_eq_of_lt hn, Nat.zero_mod, show bitLength m + 1 - offset = 0 by omega,
    or_bitMask_xor (by simp) (Nat.zero_le _), neg_ediv_of_lt hm ho, Nat.pow_zero, Nat.zero_add,
    Int.ofNat_sub hone]
  push_cast
  have := add_sub_eq_emod (a := 0) (b := 1) (c := 2 ^ width) (by omega) (by omega)
    (by exact_mod_cast hone)
  simpa using this

theorem extendedSlice_neg_filled (hm : 0 < m) {offset width : Nat}
    (hw : bitLength m + 1 ≤ offset + width) :
    (bitSlice (2 ^ (bitLength m + 1) - m) offset width |||
        (bitMask width ^^^ bitMask (bitLength m + 1 - offset)) : Nat) =
      (-(m : Int)) / 2 ^ offset % 2 ^ width := by
  rcases Nat.lt_or_ge (bitLength m + 1) offset with ho | ho
  · exact extendedSlice_neg_past hm width ho
  · exact extendedSlice_neg_across hm ho hw

/-- In a slice below the length the fill does not show. -/
theorem bitSlice_neg {offset width : Nat} (hw : offset + width ≤ bitLength m + 1) :
    (bitSlice (2 ^ (bitLength m + 1) - m) offset width : Int) =
      (-(m : Int)) / 2 ^ offset % 2 ^ width := by
  obtain ⟨j, hj⟩ := Nat.exists_eq_add_of_le hw
  rw [bitSlice_eq, neg_ediv_of_le (by omega), show bitLength m + 1 - offset = width + j by omega]
  push_cast
  rw [show ∀ a : Int, a - 2 ^ (width + j) = a + 2 ^ width * (-2 ^ j) by intro a; ring,
    Int.add_mul_emod_self_left]

/-- A slice of a spread magnitude has the bits of the negative number. -/
theorem extendedSlice_neg (hm : 0 < m) {offset width : Nat}
    (hsize : offset + width < Word.modulus) :
    (extendedSlice true (2 ^ (bitLength m + 1) - m) offset width : Int) =
      (-(m : Int)) / 2 ^ offset % 2 ^ width := by
  unfold extendedSlice
  rw [bitLength_spread hm, Bool.true_and, Word.add_eq hsize]
  by_cases hlong : bitLength m + 1 < offset + width
  · rw [if_pos (decide_eq_true hlong)]
    exact extendedSlice_neg_filled hm (by omega)
  · rw [if_neg (by simpa using hlong)]
    exact bitSlice_neg (by omega)

end Negative

/-- The slice of a spread number is the slice of the number itself. -/
theorem extendedSlice_spreadSource (v : Int) {offset width : Nat}
    (hsize : v < 0 → offset + width < Word.modulus) :
    (extendedSlice (decide (v < 0)) (spreadSource v) offset width : Int) =
      v / 2 ^ offset % 2 ^ width := by
  by_cases hv : v < 0
  · obtain ⟨m, rfl⟩ : ∃ m : Nat, v = -m := ⟨v.natAbs, by omega⟩
    rw [decide_eq_true hv, spreadSource, if_pos hv, Int.natAbs_neg, Int.natAbs_natCast]
    exact extendedSlice_neg (by omega) (hsize hv)
  · unfold spreadSource extendedSlice
    rw [if_neg hv, decide_eq_false hv, Bool.false_and, if_neg Bool.false_ne_true, bitSlice_eq]
    push_cast
    rw [abs_of_nonneg (by omega)]

/-- Seen from a residue that covers it, the slice is a digit. -/
theorem extendedSlice_residue (v : Int) {offset width k : Nat}
    (hsize : offset + width < Word.modulus) (hk : offset + width ≤ k) :
    extendedSlice (decide (v < 0)) (spreadSource v) offset width =
      (v % 2 ^ k).toNat / 2 ^ offset % 2 ^ width := by
  obtain ⟨j, hj⟩ := Nat.exists_eq_add_of_le hk
  have hsplit : v = v % 2 ^ k + 2 ^ width * (2 ^ j * (v / 2 ^ k)) * 2 ^ offset := by
    conv_lhs => rw [← Int.emod_add_mul_ediv v (2 ^ k)]
    rw [show (2 : Int) ^ k = 2 ^ width * 2 ^ j * 2 ^ offset by rw [hj]; ring]
    ring
  have hmod : v / 2 ^ offset % 2 ^ width = v % 2 ^ k / 2 ^ offset % 2 ^ width := by
    conv_lhs => rw [hsplit]
    rw [Int.add_mul_ediv_right _ _ (by positivity), Int.add_mul_emod_self_left]
  have h := extendedSlice_spreadSource v fun _ => hsize
  rw [hmod,
    ← Int.toNat_of_nonneg (Int.emod_nonneg v (show (2 : Int) ^ k ≠ 0 by positivity))] at h
  exact_mod_cast h

end LimbMachine
