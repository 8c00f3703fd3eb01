import LimbMachine.Split.Error

/-!
  The registers of a split routine: the limbs of the registers it started from,
  followed by registers allocated along the way.

  A register wider than the limb width is cut into limbs of that width, least
  significant first, the last one taking what is left. A register that is
  narrow enough is its own only limb. The limbs of all registers stand in the
  order of the registers, so ids never move, and allocated registers come after
  them.
-/

namespace LimbMachine

/-- One limb of a packed list of registers. -/
structure Limb where
  id : RegId
  /-- Where its least significant bit lies in the packed list. -/
  offset : Nat
  width : Nat
deriving DecidableEq

/-- The number of bits in a list of limbs. -/
def Limb.total (limbs : List Limb) : Nat := Word.sum (limbs.map Limb.width)

/-- A value cut along the limbs of a list; the last limb takes all bits that remain. -/
def Limb.cutAt (value : Nat) : List Limb → List Nat
  | [] => []
  | [limb] => [value >>> limb.offset]
  | limb :: rest => bitSlice value limb.offset limb.width :: cutAt value rest

/-- The number of limbs of at most `width` bits that a register needs. -/
def Register.limbCount (r : Register) (width : Nat) : Nat :=
  if r.width ≤ width then 1 else (r.width + width - 1) / width

/-- One limb of a register that is cut into `count` limbs of `width` bits. -/
def Register.limb (r : Register) (width count i : Nat) : Register :=
  let limbWidth := min width (r.width - i * width)
  { kind := r.kind
    name := if count = 1 then r.name else r.name ++ "'" ++ toString i
    width := limbWidth
    pad := bitSlice r.pad (i * width) limbWidth }

/-- The limbs of a register, least significant first. -/
def Register.limbs (width : Nat) (r : Register) : List Register :=
  (List.range (r.limbCount width)).map (r.limb width (r.limbCount width))

/-- The registers of a split routine and how the registers before splitting map to them. -/
structure Pool where
  /-- The largest width of a limb. -/
  width : Nat
  /-- The limbs of each register, least significant first. -/
  limbs : List (List RegId)
  registers : RegisterFile
  /-- How many of the registers are limbs; the others were allocated. -/
  base : Nat

/-- Work on a pool that may fail; what was allocated before the failure stays. -/
abbrev SplitM := EStateM SplitError Pool

namespace Pool

/-- The ids of consecutive groups of registers, counted from `start`. -/
def number : Nat → List (List Register) → List (List RegId)
  | _, [] => []
  | start, group :: rest =>
    (List.range' start group.length).map RegId.reg :: number (start + group.length) rest

/-- The limbs of all registers, none wider than `width`; a width of zero counts as one. -/
def ofRegisters (registers : RegisterFile) (width : Nat) : Pool :=
  let width := max width 1
  let groups := registers.map (Register.limbs width)
  { width := width
    limbs := number 0 groups
    registers := groups.flatten
    base := groups.flatten.length }

/-- The limbs of a register, least significant first. -/
def limbs? (pool : Pool) : RegId → Option (List RegId)
  | .unused => none
  | .reg i => pool.limbs[i]?

/-- The limbs of a register that has to be known. -/
def tryLimbs (pool : Pool) (id : RegId) : Except SplitError (List RegId) :=
  match pool.limbs? id with
  | some limbs => .ok limbs
  | none => .error (.unknownRegister id)

/-- How many registers were allocated. -/
def allocated (pool : Pool) : Nat := pool.registers.length - pool.base

/-- Appends a register of the given width; of no width, none is needed. -/
def allocate (label : String) (width : Nat) : SplitM RegId := fun pool =>
  if width = 0 then
    .ok .unused pool
  else
    let r : Register :=
      { kind := .temp, name := "$" ++ label ++ toString pool.allocated, width := width }
    .ok (.reg pool.registers.length) { pool with registers := pool.registers ++ [r] }

/-- A question about the pool, which it leaves as it is. -/
def asking {α : Type} (question : Pool → Except SplitError α) : SplitM α := fun pool =>
  match question pool with
  | .ok a => .ok a pool
  | .error e => .error e pool

/-- The limbs of a list of registers, one after the other. -/
def flatten (pool : Pool) (ids : List RegId) : Except SplitError (List RegId) :=
  (ids.mapM pool.tryLimbs).map List.flatten

/-- Places registers side by side from bit `offset` on. -/
def place (pool : Pool) : Nat → List RegId → List Limb
  | _, [] => []
  | offset, id :: rest =>
    let width := pool.registers.widthOf id
    ⟨id, offset, width⟩ :: pool.place (Word.add offset width) rest

/-- The limbs of a packed list of registers, least significant first. -/
def layout (pool : Pool) (ids : List RegId) : Except SplitError (List Limb) :=
  (pool.flatten ids).map (pool.place 0)

/-- Whether the end of a limb overruns, from bit `offset` on, before a register is unknown. -/
def placeOverruns (pool : Pool) : Nat → List RegId → Bool
  | _, [] => false
  | offset, id :: rest =>
    match pool.limbs? id with
    | none => false
    | some limbs =>
      let reached := offset + (limbs.map pool.registers.widthOf).sum
      Word.overruns reached || pool.placeOverruns reached rest

def layoutOverruns (pool : Pool) (ids : List RegId) : Bool := pool.placeOverruns 0 ids

def layout? (pool : Pool) (ids : List RegId) : Option (Except SplitError (List Limb)) :=
  Word.checked (pool.layoutOverruns ids) (pool.layout ids)

/-- The values of a register's limbs that make up a value. -/
def splitValue (pool : Pool) (id : RegId) (value : Nat) : Option (List Nat) :=
  match pool.layout [id] with
  | .ok limbs => some (limbs.map fun limb => bitSlice value limb.offset limb.width)
  | .error _ => none

/-- The value that one value for each limb of a register makes up. -/
def joinValues (pool : Pool) (id : RegId) (values : List Nat) : Option Nat :=
  match pool.layout [id] with
  | .ok limbs =>
    if limbs.length = values.length then
      some ((limbs.zip values).map fun (limb, value) => value <<< limb.offset).sum
    else
      none
  | .error _ => none

end Pool

end LimbMachine
