import LimbMachine.Program.Bus
import LimbMachine.Program.Error

/-!
  Instructions and routines.

  An instruction is a list of microcodes that run as one step of the routine.
  A routine is a list of registers, buses and instructions. Its registers come
  in the order inputs, outputs, others, so the inputs are the first ids and the
  outputs the ids after them.
-/

namespace LimbMachine

/-- The microcodes of one instruction. -/
abbrev Instruction := List Microcode

/-- The instruction as text. -/
def Instruction.render (rs : RegisterFile) (instruction : Instruction) : String :=
  "; ".intercalate (instruction.map (Microcode.render rs))

/-- The register with another initial value, which has to fit. -/
def Register.withPad (r : Register) (pad : Nat) : Except RoutineError Register :=
  if r.width < bitLength pad then
    .error (.invalidPadding r.name pad r.width)
  else
    .ok { r with pad := pad }

/-- The place of a role in the order of registers. -/
def RegKind.rank : RegKind → Nat
  | .input => 0
  | .output => 1
  | .temp | .const => 2

/-- Whether the roles come in order: inputs, outputs, others. -/
def RegisterFile.isOrdered : RegisterFile → Bool
  | a :: b :: rest => a.kind.rank ≤ b.kind.rank && isOrdered (b :: rest)
  | _ => true

/-- A routine. -/
structure Routine where
  name : String
  registers : RegisterFile
  buses : List Bus
  code : List Instruction
deriving DecidableEq

namespace Routine

def checkOrder (f : Routine) : Except RoutineError Unit :=
  if f.registers.isOrdered then .ok () else .error (.registerOrder f.name)

/-- The routine with these parts, if its registers are in order. -/
def make? (name : String) (registers : RegisterFile) (buses : List Bus)
    (code : List Instruction) : Except RoutineError Routine :=
  let f : Routine := ⟨name, registers, buses, code⟩
  f.checkOrder.map fun _ => f

def inputs (f : Routine) : List Register := f.registers.takeWhile Register.isInput

def outputs (f : Routine) : List Register :=
  (f.registers.dropWhile Register.isInput).takeWhile Register.isOutput

def numInputs (f : Routine) : Nat := f.inputs.length

def numOutputs (f : Routine) : Nat := f.outputs.length

/-- The ids of the outputs, in the order of declaration. -/
def outputIds (f : Routine) : List RegId :=
  (List.range f.numOutputs).map fun i => .reg (f.numInputs + i)

/-- Whether there is exactly one instruction. -/
def isAtomic (f : Routine) : Bool := f.code.length == 1

/-- The first register of a name. -/
def register? (f : Routine) (name : String) : Option RegId :=
  (f.registers.findIdx? fun r => r.name == name).map .reg

/-- The first bus of a number. -/
def bus? (f : Routine) (id : Nat) : Option Bus := f.buses.find? fun b => b.id == some id

/-- The routine as text, one line per part. -/
def render (f : Routine) : String :=
  let registers := f.registers.map fun r => "  " ++ r.render
  let buses := f.buses.map fun b =>
    "  bus " ++ b.name ++ " #" ++ (b.id.map toString).getD "?"
  let code := f.code.zipIdx.map fun (instruction, pc) =>
    s!"  {pc}: " ++ Instruction.render f.registers instruction
  String.join ((("fn " ++ f.name) :: (registers ++ buses ++ code)).map (· ++ "\n"))

end Routine

end LimbMachine
