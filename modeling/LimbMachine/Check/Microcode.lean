import LimbMachine.Program.Bus
import LimbMachine.Program.Error
import LimbMachine.Program.Pivot

/-!
  Which microcodes a routine may contain.

  A microcode is checked against a `Scope`: the field, the registers and buses
  it may refer to, and how many instructions there are to jump to. The heart of
  the check is bit accounting: the largest value of a right-hand side must fit
  the targets and one field element. Every rule is a function of its own, and
  `Microcode.validate` says which rules a microcode is under and in which
  order: the first rule that is broken is the one reported.
-/

namespace LimbMachine

/-- What a microcode is checked against. -/
structure Scope where
  field : FieldParams
  registers : RegisterFile
  buses : List Bus
  /-- How many instructions there are to jump to. -/
  instructions : Nat

namespace Scope

def site (scope : Scope) (code : Microcode) : Site := ⟨code, scope.registers⟩

/-- Every register read or written is declared. -/
def checkKnown (scope : Scope) (code : Microcode) : Except ValidationError Unit :=
  match (code.reads ++ code.writes).find? fun id => !scope.registers.declares id with
  | some id => .error (.unknownRegister (scope.site code) id)
  | none => .ok ()

/-- No target is an input, and none occurs twice; `seen` are the targets before these. -/
def checkTargets (scope : Scope) (code : Microcode) (seen : List RegId) :
    List RegId → Except ValidationError Unit
  | [] => .ok ()
  | target :: rest =>
    if scope.registers.isInput target then
      .error (.inputRegisterWrite (scope.site code) target)
    else if target ∈ seen then
      .error (.duplicateTarget (scope.site code) target)
    else
      scope.checkTargets code (target :: seen) rest

/-- A right-hand side of `rhs` bits fits one field element. -/
def checkField (scope : Scope) (code : Microcode) (rhs : Nat) : Except ValidationError Unit :=
  if scope.field.bandwidth < rhs then
    .error (.rhsWiderThanField (scope.site code) scope.field.bandwidth rhs)
  else
    .ok ()

/-- A right-hand side of `rhs` bits fits targets of `lhs` bits. -/
def checkCapacity (scope : Scope) (code : Microcode) (lhs rhs : Nat) :
    Except ValidationError Unit :=
  if lhs < rhs then .error (.rhsWiderThanLhs (scope.site code) lhs rhs) else .ok ()

/-- A right-hand side of `rhs` bits fits its targets and one field element. -/
def checkRhs (scope : Scope) (code : Microcode) (lhs rhs : Nat) : Except ValidationError Unit := do
  scope.checkCapacity code lhs rhs
  scope.checkField code rhs

/-- A constant compared with `width` bits has at most that many. -/
def checkConstant (scope : Scope) (code : Microcode) (constant width : Nat) :
    Except ValidationError Unit :=
  if width < bitLength constant then
    .error (.constantTooWide (scope.site code) constant width)
  else
    .ok ()

/-- Both sides of a comparison have the same width. -/
def checkSides (scope : Scope) (code : Microcode) (left right : Nat) :
    Except ValidationError Unit :=
  if left ≠ right then .error (.widthMismatch (scope.site code) left right) else .ok ()

/-- The first of two lists of equal length that differ in width, from line `line` on. -/
def mismatchFrom (rs : RegisterFile) (line : Nat) :
    List RegId → List RegId → Option LineMismatch
  | a :: actual, d :: declared =>
    if rs.widthOf a ≠ rs.widthOf d then
      some (.width line (rs.widthOf a) (rs.widthOf d))
    else
      mismatchFrom rs (line + 1) actual declared
  | _, _ => none

/-- How the lines of a call differ from the declared ones, if they do. -/
def lineMismatch (rs : RegisterFile) (actual declared : List RegId) : Option LineMismatch :=
  if actual.length ≠ declared.length then
    some (.count declared.length actual.length)
  else
    mismatchFrom rs 0 actual declared

/-- The difference fits the low targets by their width; the most that can be borrowed fits the
others, and minuend and borrow together fit one field element. -/
def checkSub (scope : Scope) (code : Microcode) (targets sources : List RegId) (constant : Nat) :
    Except ValidationError Unit :=
  match sources with
  | [] => .error (.misalignedPivot (scope.site code))
  | minuend :: subtrahends =>
    let width := scope.registers.widthOf minuend
    match subPivot targets scope.registers width with
    | none => .error (.misalignedPivot (scope.site code))
    | some pivot => do
      let subtracted := constant + (subtrahends.map scope.registers.maxOf).sum
      let borrow := borrowsFor subtracted width
      scope.checkCapacity code (scope.registers.totalWidth (targets.drop pivot)) (bitLength borrow)
      scope.checkField code (bitLength (scope.registers.maxOf minuend + borrow <<< width))

/-- The value kept by a cast is no wider than its source, its targets and one field element. -/
def checkCast (scope : Scope) (code : Microcode) (targets : List RegId) (source : RegId)
    (width : Nat) : Except ValidationError Unit := do
  if scope.registers.widthOf source < width then
    throw (.invalidCastWidth (scope.site code) width)
  scope.checkRhs code (scope.registers.totalWidth targets) width

/-- The lines of a call match those of the first bus with the called number. -/
def checkCall (scope : Scope) (code : Microcode) (bus : Nat) (targets sources : List RegId) :
    Except ValidationError Unit :=
  match scope.buses.find? fun b => b.id == some bus with
  | none => .error (.unknownBus (scope.site code) bus)
  | some declared =>
    match lineMismatch scope.registers sources declared.address with
    | some reason => .error (.argumentMismatch (scope.site code) reason)
    | none =>
      match lineMismatch scope.registers targets declared.data with
      | some reason => .error (.returnMismatch (scope.site code) reason)
      | none => .ok ()

end Scope

/-- Checks one microcode. -/
def Microcode.validate (scope : Scope) (code : Microcode) : Except ValidationError Unit := do
  let rs := scope.registers
  scope.checkKnown code
  match code with
  | assign targets _ | add targets _ _ | mul targets _ _ =>
    scope.checkTargets code [] targets
    scope.checkRhs code (rs.totalWidth targets) ((code.polynomial?.getD .zero).width rs)
  | sub targets sources constant =>
    scope.checkTargets code [] targets
    scope.checkSub code targets sources constant
  | cast targets source width =>
    scope.checkTargets code [] targets
    scope.checkCast code targets source width
  | div quotient remainder witness dividend divisor =>
    scope.checkTargets code [] code.writes
    scope.checkRhs code (rs.widthOf quotient) (rs.widthOf dividend)
    scope.checkRhs code (rs.widthOf remainder) (rs.widthOf divisor)
    if witness.isUsed then
      scope.checkRhs code (rs.widthOf witness) (rs.widthOf divisor)
  | skip left right constant _ =>
    if right.isUsed then
      scope.checkSides code (rs.widthOf left) (rs.widthOf right)
    else
      scope.checkConstant code constant (rs.widthOf left)
    scope.checkField code (rs.widthOf left)
  | skipIf left right constant _ =>
    if right ≠ [] then
      scope.checkSides code (rs.totalWidth left) (rs.totalWidth right)
    else
      scope.checkConstant code constant (rs.totalWidth left)
    scope.checkField code (rs.totalWidth left)
  | call bus targets sources =>
    scope.checkTargets code [] targets
    scope.checkCall code bus targets sources
  | jmp target =>
    if scope.instructions ≤ target then
      throw (.jumpOutOfBounds (scope.site code) target)
  | ret | fail => return

/-- Whether a total width overruns that the check of a microcode comes to. -/
def Microcode.checkOverruns (scope : Scope) (code : Microcode) : Bool :=
  let rs := scope.registers
  let stores (targets : List RegId) : Bool := (scope.checkTargets code [] targets).isOk
  (scope.checkKnown code).isOk &&
    match code with
    | assign targets _ | add targets _ _ | mul targets _ _ => stores targets && rs.overruns targets
    | sub targets sources _ =>
      stores targets &&
        match sources with
        | [] => false
        | minuend :: _ =>
          let width := rs.widthOf minuend
          subPivotOverruns targets rs width ||
            (subPivot targets rs width).any fun pivot => rs.overruns (targets.drop pivot)
    | cast targets source width =>
      stores targets && width ≤ rs.widthOf source && rs.overruns targets
    | skipIf left right _ _ => rs.overruns left || rs.overruns right
    | div .. | skip .. | call .. | jmp _ | ret | fail => false

def Microcode.validate? (scope : Scope) (code : Microcode) :
    Option (Except ValidationError Unit) :=
  Word.checked (code.checkOverruns scope) (code.validate scope)

end LimbMachine
