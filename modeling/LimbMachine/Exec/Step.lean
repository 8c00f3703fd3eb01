import LimbMachine.Exec.Boundary
import LimbMachine.Program.Microcode
import LimbMachine.Program.Pivot

/-!
  What one microcode does.

  `Microcode.execute` reads and stores registers and says where control goes.
  A cast that does not fit, a division by zero and a rejected call make the
  routine fail; they are no errors.
-/

namespace LimbMachine

/-- Where control goes after a microcode. -/
inductive Step where
  /-- On by some microcodes of the same instruction. -/
  | skip (distance : Nat)
  /-- To another instruction. -/
  | jump (pc : Nat)
  | ret
  | fail
deriving DecidableEq

/-- On by one microcode if both sides agree, else past the skipped ones too. -/
def Step.compare (left right distance : Nat) : Step :=
  if left ≠ right then .skip (Word.add 1 distance) else .skip 1

/-- Whether the offset overruns that control moves to from `offset`. -/
def Step.overruns (offset : Nat) : Step → Bool
  | skip distance => Word.overruns (offset + distance)
  | jump _ | ret | fail => false

namespace State

/-- Stores a difference: the low targets take it up to the minuend's width, the others take how
often that width had to be borrowed. Without a source the minuend is zero and has no width. -/
def subtract (targets sources : List RegId) (constant : Nat) : Update Unit := do
  let s ← get
  let minuend := ((sources.head?).map s.load).getD 0
  let width := ((sources.head?).map s.registers.widthOf).getD 0
  let subtracted := constant + (sources.tail.map s.load).sum
  let pivot := (subPivot targets s.registers width).getD targets.length
  storeAcross (minuend - subtracted) (targets.take pivot)
  storeAcross (borrowsFor (subtracted - minuend) width) (targets.drop pivot)

/-- Whether a sum overruns that storing a difference comes to. -/
def subtractOverruns (targets sources : List RegId) (constant : Nat) (s : State) : Bool :=
  let minuend := ((sources.head?).map s.load).getD 0
  let width := ((sources.head?).map s.registers.widthOf).getD 0
  let subtracted := constant + (sources.tail.map s.load).sum
  let pivot := (subPivot targets s.registers width).getD targets.length
  subPivotOverruns targets s.registers width ||
    storeOverruns s.registers 0 (targets.take pivot) ||
    match storeAcross (minuend - subtracted) (targets.take pivot) s with
    | .ok _ _ => storeOverruns s.registers 0 (targets.drop pivot)
    | .error _ _ => false

/-- Stores quotient, remainder and witness of a division by a number other than zero. -/
def divide (quotient remainder witness : RegId) (dividend divisor : Nat) : Update Unit := do
  store quotient (dividend / divisor)
  store remainder (dividend % divisor)
  store witness (divisor - dividend % divisor - 1)

end State

namespace Microcode

variable {σ : Type}

/-- Executes one microcode. -/
def execute (io : Boundary σ) (code : Microcode) : Exec σ Step := do
  let s := (← get).state
  match code with
  | assign targets rhs =>
    Frame.onState (State.storeAcross (rhs.eval s.load) targets)
    return .skip 1
  | add targets sources constant =>
    Frame.onState (State.storeAcross (constant + (sources.map s.load).sum : Nat) targets)
    return .skip 1
  | mul targets sources constant =>
    let product := sources.foldl (fun acc id => acc * s.load id) constant
    Frame.onState (State.storeAcross product targets)
    return .skip 1
  | sub targets sources constant =>
    Frame.onState (State.subtract targets sources constant)
    return .skip 1
  | cast targets source width =>
    let value := s.load source
    if width < bitLength value then
      return .fail
    Frame.onState (State.storeAcross value targets)
    return .skip 1
  | div quotient remainder witness dividend divisor =>
    if s.load divisor = 0 then
      return .fail
    Frame.onState (State.divide quotient remainder witness (s.load dividend) (s.load divisor))
    return .skip 1
  | skip left right constant distance =>
    let other := if right.isUsed then s.load right else constant
    return .compare (s.load left) other distance
  | skipIf left right constant distance =>
    let other := if right = [] then constant else s.pack right
    return .compare (s.pack left) other distance
  | call bus targets sources =>
    if ← Frame.transact io bus sources targets then
      return .skip 1
    return .fail
  | jmp target => return .jump target
  | ret => return .ret
  | fail => return .fail

/-- Whether a sum overruns that executing a microcode comes to by itself. -/
def executeOverruns (s : State) : Microcode → Bool
  | assign targets _ | add targets _ _ | mul targets _ _ =>
    State.storeOverruns s.registers 0 targets
  | sub targets sources constant => s.subtractOverruns targets sources constant
  | cast targets source width =>
    bitLength (s.load source) ≤ width && State.storeOverruns s.registers 0 targets
  | skip left right constant distance =>
    let other := if right.isUsed then s.load right else constant
    s.load left ≠ other && Word.overruns (1 + distance)
  | skipIf left right constant distance =>
    let other := if right = [] then constant else s.pack right
    s.registers.overruns left || s.registers.overruns right ||
      (s.pack left ≠ other && Word.overruns (1 + distance))
  | call .. | div .. | jmp _ | ret | fail => false

def execute? (reads : Boundary.Reads σ) (code : Microcode) (frame : Frame σ) :
    Option (EStateM.Result RunError (Frame σ) Step) :=
  let result := match code with
    | call bus _ sources => reads bus (sources.map frame.state.load) frame.memory
    -- Nothing else is read.
    | _ => Word.checked (code.executeOverruns frame.state) (.ok none frame.memory)
  result.map fun result => code.execute (.answering result) frame

end Microcode

end LimbMachine
