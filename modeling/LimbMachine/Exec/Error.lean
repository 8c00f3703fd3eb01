/-!
  Why a run is given up. A routine that rejects its inputs is not given up: it
  ends with a failure, which is an answer.
-/

namespace LimbMachine

/-- Why a run is given up. -/
inductive RunError where
  | widthViolation (register : String) (width value : Nat)
  | inputArity (routine : String) (expected found : Nat)
  | unknownBus (bus : Nat)
  | unlinkedBus (name : String)
  | stepLimit (limit : Nat)
  | callDepth (limit : Nat)
  | invalidPc (pc microcode : Nat)
  | badResponse (bus expected found : Nat)
deriving DecidableEq

/-- The text reported when a run is given up. -/
def RunError.message : RunError → String
  | widthViolation register width value => s!"Value {value} does not fit {register} ({width} bits)"
  | inputArity routine expected found => s!"{routine} expects {expected} inputs, got {found}"
  | unknownBus bus => s!"Unknown bus {bus}"
  | unlinkedBus name => s!"Bus {name} has no identifier"
  | stepLimit limit => s!"Step limit exceeded: {limit}"
  | callDepth limit => s!"Call depth limit exceeded: {limit}"
  | invalidPc pc microcode => s!"Invalid program counter: instruction {pc}, microcode {microcode}"
  | badResponse bus expected found =>
    s!"Bus {bus} answered {found} data lines, expected {expected}"

end LimbMachine
