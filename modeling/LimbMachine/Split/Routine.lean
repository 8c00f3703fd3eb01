import LimbMachine.Check.Routine
import LimbMachine.Split.Expansion

/-!
  Routines over limbs.

  A routine is split for a field: its registers become limbs no wider than the
  field's registers, its instructions and bus lines go over to the limbs, and
  the outcome is checked against the field. The pool tells how values of the
  routine and of its split form correspond.
-/

namespace LimbMachine

/-- A split routine together with the map from registers to limbs. -/
structure SplitRoutine where
  routine : Routine
  pool : Pool

/-- The bus with every line replaced by its limbs, all of which have to be known. -/
def Pool.splitBus (pool : Pool) (bus : Bus) : Except SplitError Bus := do
  let _ ← pool.flatten bus.lines
  return bus.expand fun line => (pool.limbs? line).getD []

namespace Routine

/-- Splits a routine for a field, keeping the map from registers to limbs. -/
def splitWithLimbs (f : Routine) (field : FieldParams) : Except SplitError SplitRoutine := do
  field.validate.mapError fun e => .invalid (.invalidField e)
  match Instruction.splitAll f.registers f.code
      (Pool.ofRegisters f.registers field.registerWidth) with
  | .error e _ => throw e
  | .ok code pool =>
    let buses ← f.buses.mapM pool.splitBus
    let split ← (make? f.name pool.registers buses code).mapError .invalid
    (split.validate field).mapError .invalid
    return ⟨split, pool⟩

/-- Whether a sum overruns that splitting a routine comes to, the check of the outcome included. -/
def splitOverruns (f : Routine) (field : FieldParams) : Bool :=
  let pool := Pool.ofRegisters f.registers field.registerWidth
  field.validate.isOk &&
    (Instruction.splitAllOverruns f.registers f.code pool ||
      match Instruction.splitAll f.registers f.code pool with
      | .error _ _ => false
      | .ok code pool =>
        match f.buses.mapM pool.splitBus with
        | .error _ => false
        | .ok buses =>
          match make? f.name pool.registers buses code with
          | .error _ => false
          | .ok split => split.checkOverruns field)

def splitWithLimbs? (f : Routine) (field : FieldParams) : Option (Except SplitError SplitRoutine) :=
  Word.checked (f.splitOverruns field) (f.splitWithLimbs field)

/-- Splits a routine for a field. -/
def split (f : Routine) (field : FieldParams) : Except SplitError Routine :=
  (f.splitWithLimbs field).map SplitRoutine.routine

def split? (f : Routine) (field : FieldParams) : Option (Except SplitError Routine) :=
  Word.checked (f.splitOverruns field) (f.split field)

end Routine

end LimbMachine
