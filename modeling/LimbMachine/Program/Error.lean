import LimbMachine.Program.FieldParams
import LimbMachine.Program.Microcode

/-!
  Why a routine is refused. Every refusal is a cause; the wording stands in the
  `message` functions alone.
-/

namespace LimbMachine

/-- Why the lines of a call do not match those of a bus. -/
inductive LineMismatch where
  | count (declared actual : Nat)
  | width (line actual declared : Nat)

def LineMismatch.message : LineMismatch → String
  | .count declared actual => s!"expected {declared} lines, found {actual}"
  | .width line actual declared => s!"line {line} is {actual} bits, bus expects {declared}"

/-- Why a microcode or an instruction is refused. -/
inductive ValidationError where
  | rhsWiderThanLhs (site : Site) (lhs rhs : Nat)
  | rhsWiderThanField (site : Site) (field rhs : Nat)
  | inputRegisterWrite (site : Site) (register : RegId)
  | duplicateTarget (site : Site) (register : RegId)
  | conflictingWrite (site : Site) (register : RegId) (offset : Nat)
  | conflictingRead (site : Site) (register : RegId) (offset : Nat)
  | misalignedPivot (site : Site)
  | widthMismatch (site : Site) (left right : Nat)
  | constantTooWide (site : Site) (constant width : Nat)
  | unknownBus (site : Site) (bus : Nat)
  | argumentMismatch (site : Site) (reason : LineMismatch)
  | returnMismatch (site : Site) (reason : LineMismatch)
  | branchOutOfBounds (site : Site) (offset target : Nat)
  | jumpOutOfBounds (site : Site) (target : Nat)
  | fallsThrough (offset : Nat)
  | emptyInstruction
  | unknownRegister (site : Site) (register : RegId)
  | invalidCastWidth (site : Site) (width : Nat)

/-- The text reported for a refusal. -/
def ValidationError.message : ValidationError → String
  | rhsWiderThanLhs site lhs rhs =>
    s!"rhs wider than lhs ({rhs} > {lhs} bits) in \"" ++ site.text ++ "\""
  | rhsWiderThanField site field rhs =>
    s!"rhs wider than field ({rhs} > {field} bits) in \"" ++ site.text ++ "\""
  | inputRegisterWrite site register =>
    "write to input register " ++ site.registers.nameOf register ++ " in \"" ++ site.text ++ "\""
  | duplicateTarget site register =>
    "register " ++ site.registers.nameOf register ++ " written more than once in \"" ++ site.text
      ++ "\""
  | conflictingWrite site register offset =>
    "conflicting write to " ++ site.registers.nameOf register ++ s!" at microcode {offset} (\""
      ++ site.text ++ "\")"
  | conflictingRead site register offset =>
    "ambiguous read of " ++ site.registers.nameOf register ++ s!" at microcode {offset} (\""
      ++ site.text ++ "\")"
  | misalignedPivot site => "minuend does not align with targets in \"" ++ site.text ++ "\""
  | widthMismatch site left right =>
    s!"operand widths differ ({left} vs {right} bits) in \"" ++ site.text ++ "\""
  | constantTooWide site constant width =>
    s!"constant {constant} wider than {width} bits in \"" ++ site.text ++ "\""
  | unknownBus site bus => s!"unknown bus {bus} in \"" ++ site.text ++ "\""
  | argumentMismatch site reason =>
    "argument mismatch in \"" ++ site.text ++ "\": " ++ reason.message
  | returnMismatch site reason => "return mismatch in \"" ++ site.text ++ "\": " ++ reason.message
  | branchOutOfBounds site offset target =>
    s!"branch at microcode {offset} targets {target} beyond instruction end (\"" ++ site.text
      ++ "\")"
  | jumpOutOfBounds site target =>
    s!"jump to instruction {target} out of bounds in \"" ++ site.text ++ "\""
  | fallsThrough offset =>
    s!"control falls through the end of the instruction after microcode {offset}"
  | emptyInstruction => "empty instruction"
  | unknownRegister site register =>
    let index := register.index
    s!"unknown register {index} in \"" ++ site.text ++ "\""
  | invalidCastWidth site width => s!"invalid cast width {width} in \"" ++ site.text ++ "\""

/-- Why a routine, or a part of one, is refused. -/
inductive RoutineError where
  | invalidField (reason : FieldError)
  | invalidPadding (register : String) (pad width : Nat)
  | registerOrder (routine : String)
  | validation (routine : String) (instruction : Nat) (reason : ValidationError)

/-- The text reported for a refusal. -/
def RoutineError.message : RoutineError → String
  | invalidField reason => "Invalid configuration: " ++ reason.message
  | invalidPadding register pad width =>
    s!"Padding {pad} of register {register} does not fit in {width} bits"
  | registerOrder routine => s!"Registers of {routine} are not ordered inputs, outputs, others"
  | validation routine instruction reason =>
    s!"{routine}: instruction {instruction}: " ++ reason.message

end LimbMachine
