import LimbMachine.Exec.Error
import LimbMachine.Program.Register

/-!
  The values of the registers of a running routine, and where it runs.

  Everything that stores is a state transformer that may fail; what was stored
  before the failure stays (`EStateM` keeps the state of a failed run). A value
  is spread over several targets bit slice by bit slice, least significant
  first. A negative value is spread in two's complement: it never runs out of
  ones. A value that is not negative has to fit.
-/

namespace LimbMachine

/-- The program counter of a routine that has returned. -/
def returnPc : Nat := Word.top

/-- The program counter of a routine that has failed. -/
def failPc : Nat := Word.top - 1

/-- The state of a running routine. -/
structure State where
  registers : RegisterFile
  /-- One value per register. -/
  values : List Nat
  pc : Nat := 0
deriving DecidableEq

/-- A change of state that may fail part of the way. -/
abbrev Update := EStateM RunError State

/-- The bits of `n` from `offset` on; past the length of a negative number all bits are ones. -/
def extendedSlice (negative : Bool) (n offset width : Nat) : Nat :=
  let slice := bitSlice n offset width
  if negative && bitLength n < Word.add offset width then
    slice ||| (bitMask width ^^^ bitMask (bitLength n - offset))
  else
    slice

def extendedSlice? (negative : Bool) (n offset width : Nat) : Option Nat :=
  Word.checked (negative && Word.overruns (offset + width)) (extendedSlice negative n offset width)

/-- The bits to spread for a value; for a negative value, up to its leading ones. -/
def spreadSource (value : Int) : Nat :=
  if value < 0 then 2 ^ (bitLength value.natAbs + 1) - value.natAbs else value.natAbs

namespace State

/-- Every register holds its initial value. -/
def fresh (registers : RegisterFile) : State := ⟨registers, registers.map Register.pad, 0⟩

/-- Whether the routine has returned or failed. -/
def isTerminated (s : State) : Bool := s.pc == returnPc || s.pc == failPc

/-- The value behind an id; an id without a register reads as zero. -/
def load (s : State) : RegId → Nat
  | .unused => 0
  | .reg i => (s.values[i]?).getD 0

/-- The number packed into a list of ids, least significant first, from bit `offset` on. -/
def packFrom (s : State) : Nat → List RegId → Nat
  | _, [] => 0
  | offset, id :: rest =>
    (s.load id <<< offset) + s.packFrom (Word.add offset (s.registers.widthOf id)) rest

/-- The number packed into a list of ids, least significant first. -/
def pack (s : State) (ids : List RegId) : Nat := s.packFrom 0 ids

/-- The state with one value replaced. -/
def write (s : State) (i value : Nat) : State := { s with values := s.values.set i value }

/-- Stores a value that has to fit; a left-out target takes anything. -/
def store (id : RegId) (value : Nat) : Update Unit := fun s =>
  match id with
  | .unused => .ok () s
  | .reg i =>
    match s.registers[i]? with
    | none => .error (.widthViolation (s.registers.nameOf (.reg i)) 0 value) s
    | some r =>
      if r.fits value then
        .ok () (s.write i value)
      else
        .error (.widthViolation r.name r.width value) s

/-- Stores one value per id. -/
def storeEach : List (RegId × Nat) → Update Unit
  | [] => pure ()
  | (id, value) :: rest => do
    store id value
    storeEach rest

/-- Stores consecutive slices of `source`, from bit `offset` on, and gives the bit reached. -/
def storeSlices (negative : Bool) (source : Nat) : Nat → List RegId → Update Nat
  | offset, [] => pure offset
  | offset, target :: rest => do
    let width := (← get).registers.widthOf target
    store target (extendedSlice negative source offset width)
    storeSlices negative source (Word.add offset width) rest

/-- Spreads a value over targets, least significant first. -/
def storeAcross (value : Int) (targets : List RegId) : Update Unit := do
  let negative := decide (value < 0)
  let source := spreadSource value
  let width ← storeSlices negative source 0 targets
  if !negative && source >>> width ≠ 0 then
    let names := targets.reverse.map (← get).registers.nameOf
    throw (.widthViolation (", ".intercalate names) width source)

/-- Whether the end of a slice overruns, from bit `offset` on, before a target is refused. -/
def storeOverruns (rs : RegisterFile) : Nat → List RegId → Bool
  | _, [] => false
  | offset, target :: rest =>
    let reached := offset + rs.widthOf target
    Word.overruns reached ||
      ((!target.isUsed || rs.declares target) && storeOverruns rs reached rest)

def storeAcross? (value : Int) (targets : List RegId) (s : State) :
    Option (EStateM.Result RunError State Unit) :=
  Word.checked (storeOverruns s.registers 0 targets) (storeAcross value targets s)

end State

end LimbMachine
