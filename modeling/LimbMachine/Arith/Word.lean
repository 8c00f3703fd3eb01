import LimbMachine.Arith.Bits

/-!
  Machine sizes: bit widths, offsets and distances are 64-bit numbers.

  A size is kept as a natural number. Where two sizes are added the result is
  taken modulo `Word.modulus`, so a sum that runs past the largest size starts
  over at zero. `Word.top`, the largest size, marks an absent register and the
  program counter of a finished call.

  A machine that checks its sums gives up instead: it has no answer once a sum
  overruns. Beside each function `f` that adds sizes there is `f?`, its answer
  on such a machine, and where it takes more than one sum, `overruns` says
  whether one that it comes to runs past the largest size. As long as no sum
  does, both machines agree, so the sums may be looked for along the way that
  `f` itself takes.
-/

namespace LimbMachine.Word

/-- The number of sizes. -/
def modulus : Nat := 2 ^ (64 : Nat)

/-- The largest size. -/
def top : Nat := modulus - 1

/-- The sum of two sizes, starting over at zero past the largest size. -/
def add (a b : Nat) : Nat := (a + b) % modulus

/-- The sum of a list of sizes, starting over at zero past the largest size. -/
def sum (sizes : List Nat) : Nat := sizes.sum % modulus

/-- The sum of two sizes, staying at the largest size once it is reached. -/
def capped (a b : Nat) : Nat := min (a + b) top

/-- Whether an exact sum runs past the largest size. -/
def overruns (total : Nat) : Bool := modulus ≤ total

/-- An answer on a machine that checks its sums: none once a sum `overran`. -/
def checked {α : Type} (overran : Bool) (answer : α) : Option α :=
  if overran then none else some answer

/-- The items that a pass comes to which ends at the first one that is not `ok`. -/
def passed {α : Type} (ok : α → Bool) : List α → List α
  | [] => []
  | a :: rest => a :: if ok a then passed ok rest else []

theorem modulus_pos : 0 < modulus := by decide

theorem add_lt (a b : Nat) : add a b < modulus := Nat.mod_lt _ modulus_pos

theorem sum_lt (sizes : List Nat) : sum sizes < modulus := Nat.mod_lt _ modulus_pos

/-- A sum that stays below the modulus is exact. -/
theorem add_eq {a b : Nat} (h : a + b < modulus) : add a b = a + b := Nat.mod_eq_of_lt h

/-- A total that stays below the modulus is exact. -/
theorem sum_eq {sizes : List Nat} (h : sizes.sum < modulus) : sum sizes = sizes.sum :=
  Nat.mod_eq_of_lt h

theorem overruns_eq_false {total : Nat} : overruns total = false ↔ total < modulus := by
  simp [overruns]

theorem overruns_eq_true {total : Nat} : overruns total = true ↔ modulus ≤ total := by
  simp [overruns]

theorem checked_eq_some {α : Type} {overran : Bool} {answer result : α} :
    checked overran answer = some result ↔ overran = false ∧ answer = result := by
  cases overran <;> simp [checked]

/-- A pass comes to every item if all are `ok`. -/
theorem passed_eq_self {α : Type} {ok : α → Bool} {items : List α}
    (h : ∀ a ∈ items, ok a = true) : passed ok items = items := by
  induction items with
  | nil => rfl
  | cons a rest ih =>
    rw [List.forall_mem_cons] at h
    rw [passed, if_pos h.1, ih h.2]

end LimbMachine.Word
