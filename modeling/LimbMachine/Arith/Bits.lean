/-!
  Bits of natural numbers: how many a number needs, and which number a run of
  them stands for. Bit zero is the least significant one.
-/

namespace LimbMachine

-- Powers and sums of numbers are those of the core library, whatever algebra is in scope.
attribute [scoped instance (high)] instPowNat Zero.ofOfNat0

/-- The number of bits needed to write `n`; zero needs none. -/
def bitLength (n : Nat) : Nat := if n = 0 then 0 else n.log2 + 1

/-- The number made of the `width` bits of `n` that start at bit `offset`. -/
def bitSlice (n offset width : Nat) : Nat := (n >>> offset) % 2 ^ width

/-- The largest number of `width` bits. -/
def bitMask (width : Nat) : Nat := 2 ^ width - 1

/-- A number needs at most `width` bits exactly when it is below `2 ^ width`. -/
theorem bitLength_le_iff {n width : Nat} : bitLength n ≤ width ↔ n < 2 ^ width := by
  unfold bitLength
  split
  · rename_i hn
    subst hn
    exact ⟨fun _ => Nat.two_pow_pos width, fun _ => Nat.zero_le width⟩
  · rename_i hn
    rw [Nat.add_one_le_iff, Nat.log2_lt hn]

@[simp] theorem bitLength_zero : bitLength 0 = 0 := rfl

theorem bitSlice_lt (n offset width : Nat) : bitSlice n offset width < 2 ^ width :=
  Nat.mod_lt _ (Nat.two_pow_pos width)

theorem bitMask_lt (width : Nat) : bitMask width < 2 ^ width :=
  Nat.sub_lt (Nat.two_pow_pos width) Nat.one_pos

end LimbMachine
