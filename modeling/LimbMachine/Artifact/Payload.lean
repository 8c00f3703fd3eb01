import LimbMachine.Artifact.Bytes
import LimbMachine.Program.Routine

/-!
  A routine as bytes: its parts in the order of their declaration, a case of an
  inductive type by its number. The number of the largest size stands for a
  left-out operand.
-/

namespace LimbMachine.Artifact

/-! ## Operands and registers -/

def putRegId (id : RegId) : Bytes := putSize id.index

def getRegId : Reader RegId := do
  return RegId.ofIndex (← getSize)

def putRegIds (ids : List RegId) : Bytes := putList putRegId ids

def getRegIds : Reader (List RegId) := getList getRegId

def putKind : RegKind → Bytes
  | .input => putTag 0
  | .output => putTag 1
  | .temp => putTag 2
  | .const => putTag 3

def getKind : Reader RegKind := do
  match ← getTag with
  | 0 => return .input
  | 1 => return .output
  | 2 => return .temp
  | 3 => return .const
  | _ => failure

def putRegister (r : Register) : Bytes :=
  putKind r.kind ++ putText r.name ++ putSize r.width ++ putNat r.pad

/-- A register; whether its initial value fits is not asked. -/
def getRegister : Reader Register := do
  let kind ← getKind
  let name ← getText
  let width ← getSize
  let pad ← getNat
  return { kind := kind, name := name, width := width, pad := pad }

def putBus (bus : Bus) : Bytes :=
  putText bus.name ++ putOption putSize bus.id ++ putRegIds bus.address ++ putRegIds bus.data

def getBus : Reader Bus := do
  let name ← getText
  let id ← getOption getSize
  let address ← getRegIds
  let data ← getRegIds
  return ⟨name, id, address, data⟩

/-! ## Microcodes -/

def putMonomial (m : Monomial) : Bytes := putNat m.coefficient ++ putRegIds m.vars

def getMonomial : Reader Monomial := do
  let coefficient ← getNat
  let vars ← getRegIds
  return ⟨coefficient, vars⟩

def putPolynomial (p : Polynomial) : Bytes := putList putMonomial p.terms

def getPolynomial : Reader Polynomial := do
  return ⟨← getList getMonomial⟩

/-- The common parts of sums, differences and products. -/
def putChain (targets sources : List RegId) (constant : Nat) : Bytes :=
  putRegIds targets ++ putRegIds sources ++ putNat constant

def getChain (make : List RegId → List RegId → Nat → Microcode) : Reader Microcode := do
  let targets ← getRegIds
  let sources ← getRegIds
  let constant ← getNat
  return make targets sources constant

def putMicrocode : Microcode → Bytes
  | .assign targets rhs => putTag 0 ++ putRegIds targets ++ putPolynomial rhs
  | .add targets sources constant => putTag 1 ++ putChain targets sources constant
  | .sub targets sources constant => putTag 2 ++ putChain targets sources constant
  | .mul targets sources constant => putTag 3 ++ putChain targets sources constant
  | .cast targets source width => putTag 4 ++ putRegIds targets ++ putRegId source ++ putSize width
  | .div quotient remainder witness dividend divisor =>
    putTag 5 ++ putRegId quotient ++ putRegId remainder ++ putRegId witness ++ putRegId dividend
      ++ putRegId divisor
  | .skip left right constant distance =>
    putTag 6 ++ putRegId left ++ putRegId right ++ putNat constant ++ putSize distance
  | .skipIf left right constant distance =>
    putTag 7 ++ putRegIds left ++ putRegIds right ++ putNat constant ++ putSize distance
  | .call bus targets sources => putTag 8 ++ putSize bus ++ putRegIds targets ++ putRegIds sources
  | .jmp target => putTag 9 ++ putSize target
  | .ret => putTag 10
  | .fail => putTag 11

def getMicrocode : Reader Microcode := do
  match ← getTag with
  | 0 =>
    let targets ← getRegIds
    let rhs ← getPolynomial
    return .assign targets rhs
  | 1 => getChain .add
  | 2 => getChain .sub
  | 3 => getChain .mul
  | 4 =>
    let targets ← getRegIds
    let source ← getRegId
    let width ← getSize
    return .cast targets source width
  | 5 =>
    let quotient ← getRegId
    let remainder ← getRegId
    let witness ← getRegId
    let dividend ← getRegId
    let divisor ← getRegId
    return .div quotient remainder witness dividend divisor
  | 6 =>
    let left ← getRegId
    let right ← getRegId
    let constant ← getNat
    let distance ← getSize
    return .skip left right constant distance
  | 7 =>
    let left ← getRegIds
    let right ← getRegIds
    let constant ← getNat
    let distance ← getSize
    return .skipIf left right constant distance
  | 8 =>
    let bus ← getSize
    let targets ← getRegIds
    let sources ← getRegIds
    return .call bus targets sources
  | 9 => return .jmp (← getSize)
  | 10 => return .ret
  | 11 => return .fail
  | _ => failure

/-! ## Routines -/

def putInstruction (instruction : Instruction) : Bytes := putList putMicrocode instruction

def getInstruction : Reader Instruction := getList getMicrocode

def putRoutine (f : Routine) : Bytes :=
  putText f.name ++ putList putRegister f.registers ++ putList putBus f.buses
    ++ putList putInstruction f.code

def getRoutine : Reader Routine := do
  let name ← getText
  let registers ← getList getRegister
  let buses ← getList getBus
  let code ← getList getInstruction
  return ⟨name, registers, buses, code⟩

end LimbMachine.Artifact
