import LimbMachine.Arith.Bits
import Mathlib.Data.List.Forall2
import Mathlib.Tactic.Ring

/-!
# Digits of mixed widths

A list of widths cuts a number into digits, least significant first: `Digits.cut`. A list of
digits, each below `2 ^ width`, makes up a number again: `Digits.join`. Registers packed side by
side, bit slices stored across targets and limbs of a register are all read through this pair.

* On digits that fit the two are inverse (`join_cut`, `cut_join`), so packed numbers are equal
  exactly when their digits are (`join_inj`).
* Both follow the concatenation of widths (`join_append`, `cut_append`).
-/

namespace LimbMachine.Digits

/-- The digits of a number, one for each width, least significant first. -/
def cut : List Nat → Nat → List Nat
  | [], _ => []
  | w :: ws, n => n % 2 ^ w :: cut ws (n / 2 ^ w)

/-- The number that digits of the given widths make up. -/
def join : List Nat → List Nat → Nat
  | w :: ws, d :: ds => d + 2 ^ w * join ws ds
  | _, _ => 0

/-- Every digit is below `2 ^ width`, and there is one digit for each width. -/
abbrev Fit (ws ds : List Nat) : Prop := List.Forall₂ (fun w d => d < 2 ^ w) ws ds

variable {ws ws' ds ds' es : List Nat} {n k : Nat}

@[simp] theorem cut_nil (n : Nat) : cut [] n = [] := rfl

@[simp] theorem cut_cons (w : Nat) (ws : List Nat) (n : Nat) :
    cut (w :: ws) n = n % 2 ^ w :: cut ws (n / 2 ^ w) := rfl

@[simp] theorem join_nil (ds : List Nat) : join [] ds = 0 := by cases ds <;> rfl

@[simp] theorem join_nil_right (ws : List Nat) : join ws [] = 0 := by cases ws <;> rfl

@[simp] theorem join_cons (w : Nat) (ws : List Nat) (d : Nat) (ds : List Nat) :
    join (w :: ws) (d :: ds) = d + 2 ^ w * join ws ds := rfl

@[simp] theorem length_cut (ws : List Nat) (n : Nat) : (cut ws n).length = ws.length := by
  induction ws generalizing n with
  | nil => rfl
  | cons w ws ih => simp [ih]

theorem fit_cut (ws : List Nat) (n : Nat) : Fit ws (cut ws n) := by
  induction ws generalizing n with
  | nil => exact .nil
  | cons w ws ih => exact .cons (Nat.mod_lt _ (Nat.two_pow_pos w)) (ih _)

/-! ## The two directions -/

/-- Digits that fit make up a number below `2 ^` their total width. -/
theorem join_lt (h : Fit ws ds) : join ws ds < 2 ^ ws.sum := by
  induction h with
  | nil => simp
  | @cons w d ws ds hd _ ih =>
    rw [join_cons, List.sum_cons, Nat.pow_add]
    calc d + 2 ^ w * join ws ds < 2 ^ w + 2 ^ w * join ws ds := by omega
      _ = 2 ^ w * (join ws ds + 1) := by ring
      _ ≤ 2 ^ w * 2 ^ ws.sum := Nat.mul_le_mul_left _ ih

/-- Cutting and joining keeps the bits below the total width. -/
theorem join_cut (ws : List Nat) (n : Nat) : join ws (cut ws n) = n % 2 ^ ws.sum := by
  induction ws generalizing n with
  | nil => simp [Nat.mod_one]
  | cons w ws ih => rw [cut_cons, join_cons, ih, List.sum_cons, Nat.pow_add, Nat.mod_mul]

theorem join_cut_of_lt (h : n < 2 ^ ws.sum) : join ws (cut ws n) = n := by
  rw [join_cut, Nat.mod_eq_of_lt h]

/-- Joining and cutting gives digits that fit back. -/
theorem cut_join (h : Fit ws ds) : cut ws (join ws ds) = ds := by
  induction h with
  | nil => rfl
  | @cons w d ws ds hd _ ih =>
    rw [join_cons, cut_cons, Nat.add_mul_mod_self_left, Nat.mod_eq_of_lt hd,
      Nat.add_mul_div_left _ _ (Nat.two_pow_pos w), Nat.div_eq_of_lt hd, Nat.zero_add, ih]

/-- Numbers are equal exactly when their digits are. -/
theorem join_inj (h : Fit ws ds) (h' : Fit ws ds') : join ws ds = join ws ds' ↔ ds = ds' := by
  refine ⟨fun e => ?_, fun e => by rw [e]⟩
  rw [← cut_join h, ← cut_join h', e]

/-- Cutting looks only at the bits below the total width. -/
theorem cut_mod (h : ws.sum ≤ k) : cut ws (n % 2 ^ k) = cut ws n := by
  induction ws generalizing n k with
  | nil => rfl
  | cons w ws ih =>
    rw [List.sum_cons] at h
    obtain ⟨j, rfl⟩ := Nat.exists_eq_add_of_le (show w ≤ k by omega)
    rw [cut_cons, cut_cons, Nat.pow_add, Nat.mod_mul_right_mod, Nat.mod_mul_right_div_self,
      ih (by omega)]

/-- The digit of no width is zero. -/
theorem cut_zero_right (ws : List Nat) : cut ws 0 = ws.map fun _ => 0 := by
  induction ws with
  | nil => rfl
  | cons w ws ih => simp [ih]

theorem join_map_zero (ws : List Nat) : join ws (ws.map fun _ => 0) = 0 := by
  rw [← cut_zero_right, join_cut, Nat.zero_mod]

/-! ## Concatenation -/

theorem join_append (h : ws.length = ds.length) :
    join (ws ++ ws') (ds ++ ds') = join ws ds + 2 ^ ws.sum * join ws' ds' := by
  induction ws generalizing ds with
  | nil =>
    have : ds = [] := List.length_eq_zero_iff.mp h.symm
    simp [this]
  | cons w ws ih =>
    cases ds with
    | nil => simp at h
    | cons d ds =>
      simp only [List.length_cons, Nat.add_right_cancel_iff] at h
      rw [List.cons_append, List.cons_append, join_cons, join_cons, ih h, List.sum_cons,
        Nat.pow_add]
      ring

theorem cut_append (ws ws' : List Nat) (n : Nat) :
    cut (ws ++ ws') n = cut ws n ++ cut ws' (n / 2 ^ ws.sum) := by
  induction ws generalizing n with
  | nil => simp
  | cons w ws ih =>
    rw [List.cons_append, cut_cons, cut_cons, ih, List.sum_cons, Nat.pow_add,
      Nat.div_div_eq_div_mul, List.cons_append]

/-- A number below the low widths and a multiple of them are cut apart. -/
theorem cut_append_add {a : Nat} (ha : a < 2 ^ ws.sum) (b : Nat) :
    cut (ws ++ ws') (a + 2 ^ ws.sum * b) = cut ws a ++ cut ws' b := by
  have hlow : cut ws (a + 2 ^ ws.sum * b) = cut ws a := by
    rw [← cut_mod (Nat.le_refl ws.sum), Nat.add_mul_mod_self_left, cut_mod (Nat.le_refl _)]
  have hhigh : (a + 2 ^ ws.sum * b) / 2 ^ ws.sum = b := by
    rw [Nat.add_mul_div_left _ _ (Nat.two_pow_pos _), Nat.div_eq_of_lt ha, Nat.zero_add]
  rw [cut_append, hlow, hhigh]

end LimbMachine.Digits
