import LimbMachine.Check.Microcode
import LimbMachine.Check.WriteMap
import LimbMachine.Program.Routine

/-!
  Which instructions and routines are accepted.

  Control enters an instruction at its first microcode and has to leave it
  through a jump, a return or a failure. No register may be written twice on one
  way through, and where a register is read, either every way there has written
  it or none has, so a reader sees one well-determined value. A routine is
  accepted when its field, the order of its registers and all its instructions
  are.
-/

namespace LimbMachine

namespace Instruction

/-- A successor of the microcode at `offset` lies within an instruction of `length` microcodes. -/
def checkSuccessor (scope : Scope) (length : Nat) (code : Microcode) (offset next : Nat) :
    Except ValidationError Unit :=
  if next = length ∧ next = Word.add offset 1 then
    .error (.fallsThrough offset)
  else if length ≤ next then
    .error (.branchOutOfBounds (scope.site code) offset next)
  else
    .ok ()

/-- What the microcode at `offset` reads and writes agrees with what was written before it. -/
def checkConflicts (scope : Scope) (code : Microcode) (offset : Nat) (entry : WriteState) :
    Except ValidationError Unit :=
  match code.reads.find? entry.isAmbiguous with
  | some id => .error (.conflictingRead (scope.site code) id offset)
  | none =>
    match code.writes.find? entry.mayWrite with
    | some id => .error (.conflictingWrite (scope.site code) id offset)
    | none => .ok ()

/-- Every successor of every microcode lies within the instruction. -/
def checkFlow (scope : Scope) (instruction : Instruction) : Except ValidationError Unit :=
  instruction.zipIdx.forM fun (code, offset) =>
    (code.successors offset).forM (checkSuccessor scope instruction.length code offset)

/-- No microcode that can be reached conflicts with those before it. -/
def checkWrites (scope : Scope) (instruction : Instruction) : Except ValidationError Unit :=
  (instruction.zip (WriteMap.ofCodes instruction)).zipIdx.forM fun ((code, entry), offset) =>
    match entry with
    | some s => checkConflicts scope code offset s
    | none => .ok ()

/-- Checks an instruction: each microcode, then where control goes, then what is written. -/
def validate (scope : Scope) (instruction : Instruction) : Except ValidationError Unit := do
  if instruction = [] then
    throw .emptyInstruction
  instruction.forM (Microcode.validate scope)
  checkFlow scope instruction
  checkWrites scope instruction

/-- Whether a sum overruns that the check of an instruction comes to: a total width of a microcode,
or, once all microcodes are accepted, an offset that control may reach. -/
def checkOverruns (scope : Scope) (instruction : Instruction) : Bool :=
  let accepts (code : Microcode) : Bool := (code.validate scope).isOk
  let flows : Microcode × Nat → Bool := fun (code, offset) =>
    ((code.successors offset).forM (checkSuccessor scope instruction.length code offset)).isOk
  (Word.passed accepts instruction).any (Microcode.checkOverruns scope) ||
    (instruction.all accepts &&
      (Word.passed flows instruction.zipIdx).any fun (code, offset) => code.offsetOverruns offset)

def validate? (scope : Scope) (instruction : Instruction) : Option (Except ValidationError Unit) :=
  Word.checked (instruction.checkOverruns scope) (instruction.validate scope)

end Instruction

namespace Routine

/-- What the microcodes of the routine are checked against. -/
def scope (f : Routine) (field : FieldParams) : Scope :=
  ⟨field, f.registers, f.buses, f.code.length⟩

/-- Checks a routine: the field, the order of the registers, then each instruction. -/
def validate (f : Routine) (field : FieldParams) : Except RoutineError Unit := do
  field.validate.mapError .invalidField
  f.checkOrder
  f.code.zipIdx.forM fun (instruction, pc) =>
    (instruction.validate (f.scope field)).mapError (.validation f.name pc)

/-- Whether a sum overruns that the check of a routine comes to. -/
def checkOverruns (f : Routine) (field : FieldParams) : Bool :=
  let accepts (instruction : Instruction) : Bool := (instruction.validate (f.scope field)).isOk
  field.validate.isOk && f.checkOrder.isOk &&
    (Word.passed accepts f.code).any (Instruction.checkOverruns (f.scope field))

def validate? (f : Routine) (field : FieldParams) : Option (Except RoutineError Unit) :=
  Word.checked (f.checkOverruns field) (f.validate field)

end Routine

end LimbMachine
