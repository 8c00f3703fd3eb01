import LimbMachine.Exec.State
import LimbMachine.Program.Bus

/-!
  The boundary between a running routine and whatever answers its buses.

  A boundary may remember: reading and writing transform a memory `σ`, which a
  failed transaction keeps. A read is answered by data lines or rejected; a
  rejection is no error but makes the routine fail. `Boundary.closed` has
  nothing attached, `Boundary.table` answers from a list of rows and records
  what is written, and `Boundary.ofFn` has no memory at all.

  Answering may add sizes, so a machine that checks its sums reads through
  `Boundary.Reads`, which may have no answer. What it does with an answer is what
  it would do attached to `Boundary.answering` that answer.
-/

namespace LimbMachine

/-- What a routine can be attached to. -/
structure Boundary (σ : Type) where
  /-- The data lines answered to an address on a bus, or `none` for a rejection. -/
  read : Nat → List Nat → EStateM RunError σ (Option (List Nat))
  write : Nat → List Nat → List Nat → EStateM RunError σ Unit

/-- One transfer on a bus. -/
structure Transaction where
  bus : Nat
  address : List Nat
  data : List Nat
deriving DecidableEq

namespace Boundary

/-- Nothing is attached. -/
def closed : Boundary Unit where
  read bus _ := throw (.unknownBus bus)
  write bus _ _ := throw (.unknownBus bus)

/-- Reads are answered by a function, whatever was asked before; nothing can be written. -/
def ofFn (answer : Nat → List Nat → Except RunError (Option (List Nat))) : Boundary Unit where
  read bus address := fun s =>
    match answer bus address with
    | .ok lines => .ok lines s
    | .error e => .error e s
  write bus _ _ := throw (.unknownBus bus)

/-- Everything read is answered alike; nothing can be written. -/
def answering {σ : Type} (result : EStateM.Result RunError σ (Option (List Nat))) :
    Boundary σ where
  read _ _ := fun _ => result
  write bus _ _ := throw (.unknownBus bus)

/-- Reads on a machine that checks its sums. -/
abbrev Reads (σ : Type) :=
  Nat → List Nat → σ → Option (EStateM.Result RunError σ (Option (List Nat)))

/-- The reads of a boundary that adds no sizes. -/
def reads {σ : Type} (io : Boundary σ) : Reads σ :=
  fun bus address memory => some (io.read bus address memory)

/-- The answer of the last row for an address. -/
def lookup (rows : List Transaction) (bus : Nat) (address : List Nat) : Option (List Nat) :=
  (rows.reverse.find? fun row => row.bus == bus && row.address == address).map Transaction.data

/-- Reads are answered from rows, and writes are appended to the memory. -/
def table (rows : List Transaction) : Boundary (List Transaction) where
  read bus address := return lookup rows bus address
  write bus address data := modify (· ++ [⟨bus, address, data⟩])

end Boundary

/-- A running routine together with the memory of its boundary. -/
structure Frame (σ : Type) where
  state : State
  memory : σ

/-- A step that uses the boundary. -/
abbrev Exec (σ : Type) := EStateM RunError (Frame σ)

namespace Frame

variable {σ α : Type}

/-- A change of the routine's state alone. -/
def onState (x : Update α) : Exec σ α := fun frame =>
  match x frame.state with
  | .ok a s => .ok a { frame with state := s }
  | .error e s => .error e { frame with state := s }

/-- A change of the boundary's memory alone. -/
def onMemory (x : EStateM RunError σ α) : Exec σ α := fun frame =>
  match x frame.memory with
  | .ok a m => .ok a { frame with memory := m }
  | .error e m => .error e { frame with memory := m }

/-- Reads a bus at the values of `address` and stores the answer into `data`; `false` if the
request was rejected. -/
def transact (io : Boundary σ) (bus : Nat) (address data : List RegId) : Exec σ Bool := do
  let request := address.map (← get).state.load
  match ← onMemory (io.read bus request) with
  | none => return false
  | some response =>
    if response.length ≠ data.length then
      throw (.badResponse bus data.length response.length)
    onState (State.storeEach (data.zip response))
    return true

/-- The number of a linked bus. -/
def linked (bus : Bus) : Exec σ Nat :=
  match bus.id with
  | some id => pure id
  | none => throw (.unlinkedBus bus.name)

/-- One read on a declared bus. -/
def busIn (io : Boundary σ) (bus : Bus) : Exec σ Bool := do
  transact io (← linked bus) bus.address bus.data

def transact? (reads : Boundary.Reads σ) (bus : Nat) (address data : List RegId)
    (frame : Frame σ) : Option (EStateM.Result RunError (Frame σ) Bool) :=
  (reads bus (address.map frame.state.load) frame.memory).map fun result =>
    transact (.answering result) bus address data frame

def busIn? (reads : Boundary.Reads σ) (bus : Bus) (frame : Frame σ) :
    Option (EStateM.Result RunError (Frame σ) Bool) :=
  match bus.id with
  | some id => transact? reads id bus.address bus.data frame
  | none => some (.error (.unlinkedBus bus.name) frame)

/-- One write on a declared bus. -/
def busOut (io : Boundary σ) (bus : Bus) : Exec σ Unit := do
  let id ← linked bus
  let s := (← get).state
  onMemory (io.write id (bus.address.map s.load) (bus.data.map s.load))

end Frame

end LimbMachine
