import LimbMachine.Exec.Run
import LimbMachine.Split.Routine

/-!
  Machines: routines that answer each other's calls, bus `i` being routine `i`.

  Answers to nested calls are kept in a `Cache`, so equal calls run once; the
  call from outside is always run. A nested call one level below the depth limit
  may still be answered from the cache, but runs nothing and ends the whole call
  otherwise. What was cached before an error stays.
-/

namespace LimbMachine

/-- A routine of a machine and the inputs it is called on. -/
structure Call where
  routine : Nat
  inputs : List Nat
deriving DecidableEq

/-- The answers to calls, each call at most once. -/
abbrev Cache := List (Call × Option (List Nat))

namespace Cache

def find? (cache : Cache) (call : Call) : Option (Option (List Nat)) := cache.lookup call

/-- The cache with the answer to a call set. -/
def insert (cache : Cache) (call : Call) (answer : Option (List Nat)) : Cache :=
  if (cache.find? call).isSome then
    (call, answer) :: cache.filter fun entry => entry.1 ≠ call
  else
    (call, answer) :: cache

/-- How many calls of a routine have an answer. -/
def count (cache : Cache) (routine : Nat) : Nat :=
  cache.countP fun entry => entry.1.routine == routine

end Cache

/-- Routines that answer each other's calls. -/
structure Machine where
  routines : List Routine
  config : RunConfig := {}

/-- Why a machine is refused. -/
inductive MachineError where
  | routine (reason : RoutineError)
  | split (reason : SplitError)

/-- The text reported for a machine that is refused. -/
def MachineError.message : MachineError → String
  | .routine reason => "Spec error: " ++ reason.message
  | .split reason => "Split error: " ++ reason.message

namespace Machine

/-- Checks every routine against a field. -/
def validate (m : Machine) (field : FieldParams) : Except MachineError Unit :=
  m.routines.forM fun f => (f.validate field).mapError .routine

/-- The machine of all routines split for a field. -/
def split (m : Machine) (field : FieldParams) : Except MachineError Machine := do
  let routines ← m.routines.mapM fun f => (f.split field).mapError .split
  return { m with routines := routines }

/-- Answers a call from the cache, or else by `evaluate`, whose answer is cached. -/
def serve (m : Machine)
    (evaluate : Routine → List Nat → EStateM RunError Cache (Option (List Nat)))
    (id : Nat) (inputs : List Nat) : EStateM RunError Cache (Option (List Nat)) := fun cache =>
  match m.routines[id]? with
  | none => .error (.unknownBus id) cache
  | some f =>
    match cache.find? ⟨id, inputs⟩ with
    | some answer => .ok answer cache
    | none =>
      match evaluate f inputs cache with
      | .ok answer cache => .ok answer (cache.insert ⟨id, inputs⟩ answer)
      | .error e cache => .error e cache

/-- A boundary whose reads are answered and which takes no writes. -/
def attach (read : Nat → List Nat → EStateM RunError Cache (Option (List Nat))) :
    Boundary Cache where
  read := read
  write bus _ _ := throw (.unknownBus bus)

/-- Answers a nested call where calls may still be nested `room` deep. -/
def answer (m : Machine) : Nat → Nat → List Nat → EStateM RunError Cache (Option (List Nat))
  | 0 => m.serve fun _ _ => throw (.callDepth m.config.maxDepth)
  | room + 1 => m.serve fun f inputs => do
    let execution ← f.run { m.config with trace := false } (attach (m.answer room)) inputs
    return execution.answer

/-- The machine as the boundary of a routine that is called from outside. -/
def boundary (m : Machine) : Boundary Cache := attach (m.answer m.config.maxDepth)

/-- Runs a routine of the machine. -/
def call (m : Machine) (id : Nat) (inputs : List Nat) : EStateM RunError Cache Execution :=
  match m.routines[id]? with
  | none => throw (.unknownBus id)
  | some f => f.run m.config m.boundary inputs

/-- Runs a routine of the machine on rows of inputs, in order, up to the first error. -/
def callRows (m : Machine) (id : Nat) : List (List Nat) → EStateM RunError Cache (List Execution)
  | [] => pure []
  | row :: rest => do
    let first ← m.call id row
    return first :: (← m.callRows id rest)

/-! ## Sums that overrun -/

def validate? (m : Machine) (field : FieldParams) : Option (Except MachineError Unit) :=
  let accepts (f : Routine) : Bool := (f.validate field).isOk
  Word.checked ((Word.passed accepts m.routines).any fun f =>
    f.checkOverruns field) (m.validate field)

def split? (m : Machine) (field : FieldParams) : Option (Except MachineError Machine) :=
  let splits (f : Routine) : Bool := (f.split field).isOk
  Word.checked ((Word.passed splits m.routines).any fun f => f.splitOverruns field) (m.split field)

def answer? (m : Machine) : Nat → Boundary.Reads Cache
  | 0, id, inputs, cache => some (m.answer 0 id inputs cache)
  | room + 1, id, inputs, cache =>
    match m.routines[id]?, cache.find? ⟨id, inputs⟩ with
    | some f, none =>
      (f.run? { m.config with trace := false } (m.answer? room) inputs cache).map fun result =>
        m.serve (fun _ _ => do return (← fun _ => result).answer) id inputs cache
    -- Nothing is run.
    | _, _ => some (m.answer 0 id inputs cache)

/-- The reads of a routine that is called from outside. -/
def reads (m : Machine) : Boundary.Reads Cache := m.answer? m.config.maxDepth

def call? (m : Machine) (id : Nat) (inputs : List Nat) (cache : Cache) :
    Option (EStateM.Result RunError Cache Execution) :=
  match m.routines[id]? with
  | none => some (.error (.unknownBus id) cache)
  | some f => f.run? m.config m.reads inputs cache

def callRows? (m : Machine) (id : Nat) :
    List (List Nat) → Cache → Option (EStateM.Result RunError Cache (List Execution))
  | [], cache => some (.ok [] cache)
  | row :: rest, cache =>
    match m.call? id row cache with
    | none => none
    | some (.error e cache) => some (.error e cache)
    | some (.ok first cache) =>
      (m.callRows? id rest cache).map fun
        | .ok others cache => .ok (first :: others) cache
        | .error e cache => .error e cache

end Machine

end LimbMachine
