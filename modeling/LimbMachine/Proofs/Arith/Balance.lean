import LimbMachine.Program.Pivot
import Mathlib.Tactic.Ring

/-!
# Subtraction with borrows

A difference and a borrow account for a subtraction when the difference stays below `2 ^ width` and
both sides agree once the borrow is added to the minuend. There is one such pair
(`Balances.unique`), and it is the one that is stored (`balances_borrowsFor`), so a chain of small
subtractions is compared with one large subtraction by adding up.
-/

namespace LimbMachine

variable {minuend subtracted width low low' borrow borrow' : Nat}

/-- The difference `low` and the borrow account for a subtraction. -/
structure Balances (minuend subtracted width low borrow : Nat) : Prop where
  low_lt : low < 2 ^ width
  sum_eq : low + subtracted = minuend + 2 ^ width * borrow

/-- What a subtraction stores: the difference below `2 ^ width`, the borrow above. -/
def balance (minuend subtracted width : Nat) : Nat :=
  ((minuend - subtracted : Int) % 2 ^ width).toNat +
    2 ^ width * borrowsFor (subtracted - minuend) width

theorem borrowsFor_pos {deficit : Nat} (h : 0 < deficit) :
    borrowsFor deficit width = (deficit - 1) / 2 ^ width + 1 := by
  rw [borrowsFor, if_neg (by omega), Nat.shiftRight_eq_div_pow]

theorem borrowsFor_mono {deficit deficit' : Nat} (h : deficit ≤ deficit') :
    borrowsFor deficit width ≤ borrowsFor deficit' width := by
  rcases Nat.eq_zero_or_pos deficit with rfl | hpos
  · exact Nat.zero_le _
  · rw [borrowsFor_pos hpos, borrowsFor_pos (by omega)]
    have := Nat.div_le_div_right (c := 2 ^ width) (Nat.sub_le_sub_right h 1)
    omega

theorem le_mul_borrowsFor (deficit width : Nat) :
    deficit ≤ 2 ^ width * borrowsFor deficit width := by
  rcases Nat.eq_zero_or_pos deficit with rfl | hpos
  · exact Nat.zero_le _
  · rw [borrowsFor_pos hpos]
    have := Nat.lt_mul_div_succ (deficit - 1) (Nat.two_pow_pos width)
    omega

theorem Balances.unique (h : Balances minuend subtracted width low borrow)
    (h' : Balances minuend subtracted width low' borrow') : low = low' ∧ borrow = borrow' := by
  have hlow : low % 2 ^ width = low' % 2 ^ width := by
    have heq : low + 2 ^ width * borrow' = low' + 2 ^ width * borrow := by
      have := h.sum_eq
      have := h'.sum_eq
      omega
    have := congrArg (· % 2 ^ width) heq
    simpa [Nat.add_mul_mod_self_left] using this
  rw [Nat.mod_eq_of_lt h.low_lt, Nat.mod_eq_of_lt h'.low_lt] at hlow
  subst hlow
  refine ⟨rfl, Nat.eq_of_mul_eq_mul_left (Nat.two_pow_pos width) ?_⟩
  have := h.sum_eq
  have := h'.sum_eq
  omega

/-- Nothing is borrowed where the minuend is large enough. -/
theorem balances_of_le (h : subtracted ≤ minuend) (hm : minuend < 2 ^ width) :
    Balances minuend subtracted width (minuend - subtracted) 0 :=
  ⟨by omega, by omega⟩

/-- A deficit is made up for by the least number of borrows. -/
theorem balances_of_lt (h : minuend < subtracted) :
    Balances minuend subtracted width
      (2 ^ width * borrowsFor (subtracted - minuend) width - (subtracted - minuend))
      (borrowsFor (subtracted - minuend) width) := by
  rw [borrowsFor_pos (by omega)]
  have hpos := Nat.two_pow_pos width
  have hdiv := Nat.div_add_mod (subtracted - minuend - 1) (2 ^ width)
  have hmod := Nat.mod_lt (subtracted - minuend - 1) hpos
  have hmul : 2 ^ width * ((subtracted - minuend - 1) / 2 ^ width + 1) =
      2 ^ width * ((subtracted - minuend - 1) / 2 ^ width) + 2 ^ width := by ring
  exact ⟨by omega, by omega⟩

/-- The pair that is stored accounts for the subtraction. -/
theorem balances_borrowsFor (hm : minuend < 2 ^ width) :
    Balances minuend subtracted width ((minuend - subtracted : Int) % 2 ^ width).toNat
      (borrowsFor (subtracted - minuend) width) := by
  -- the residue is the difference of any pair that balances
  have hres : ∀ {low borrow}, Balances minuend subtracted width low borrow →
      ((minuend - subtracted : Int) % 2 ^ width).toNat = low := by
    intro low borrow h
    have hlow : (low : Int) < 2 ^ width := by exact_mod_cast h.low_lt
    have hsum : (low : Int) + subtracted = minuend + 2 ^ width * borrow := by
      exact_mod_cast h.sum_eq
    have hdiff : (minuend - subtracted : Int) = low + 2 ^ width * (-borrow) := by
      rw [Int.mul_neg]
      omega
    rw [hdiff, Int.add_mul_emod_self_left, Int.emod_eq_of_lt (by omega) hlow]
    exact Int.toNat_natCast low
  rcases Nat.lt_or_ge minuend subtracted with h | h
  · rw [hres (balances_of_lt h)]
    exact balances_of_lt h
  · rw [hres (balances_of_le h hm), Nat.sub_eq_zero_of_le h]
    exact balances_of_le h hm

theorem Balances.balance_eq (h : Balances minuend subtracted width low borrow)
    (hm : minuend < 2 ^ width) : balance minuend subtracted width = low + 2 ^ width * borrow := by
  have hstored : Balances minuend subtracted width _ _ := balances_borrowsFor hm
  obtain ⟨hlow, hborrow⟩ := hstored.unique h
  rw [balance, hlow, hborrow]

/-- A borrow is repaid by the next subtraction. -/
theorem Balances.chain {minuend' subtracted' width' : Nat}
    (h : Balances minuend subtracted width low borrow)
    (h' : Balances minuend' (subtracted' + borrow) width' low' borrow') :
    Balances (minuend + 2 ^ width * minuend') (subtracted + 2 ^ width * subtracted')
      (width + width') (low + 2 ^ width * low') borrow' := by
  constructor
  · have hle : 2 ^ width * (low' + 1) ≤ 2 ^ width * 2 ^ width' :=
      Nat.mul_le_mul_left _ h'.low_lt
    have := h.low_lt
    rw [Nat.pow_add]
    rw [Nat.mul_succ] at hle
    omega
  · calc low + 2 ^ width * low' + (subtracted + 2 ^ width * subtracted')
        = (low + subtracted) + 2 ^ width * (low' + subtracted') := by ring
      _ = minuend + 2 ^ width * (low' + (subtracted' + borrow)) := by
          rw [h.sum_eq]
          ring
      _ = minuend + 2 ^ width * minuend' + 2 ^ (width + width') * borrow' := by
          rw [h'.sum_eq]
          ring

end LimbMachine
