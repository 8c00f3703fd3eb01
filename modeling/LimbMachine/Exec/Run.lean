import LimbMachine.Exec.Step
import LimbMachine.Program.Routine

/-!
  Running a routine on inputs until it returns or fails.

  A run is a `Thread` that executes one microcode after the other. It ends when
  the program counter says so; a place without a microcode, a failing microcode
  and an exhausted step limit end it with an error. The memory of the boundary
  outlives the run, also when it ends with an error.
-/

namespace LimbMachine

/-- Limits of a run, and whether it is recorded. -/
structure RunConfig where
  /-- How many microcodes may be executed. -/
  maxSteps : Nat := 1000000
  /-- How deep calls may be nested. -/
  maxDepth : Nat := 128
  /-- Whether a trace is kept. -/
  trace : Bool := false

/-- How a run ended. -/
inductive Outcome where
  | returned
  | failed
deriving DecidableEq

/-- The values right after one microcode. -/
structure TraceRow where
  instruction : Nat
  microcode : Nat
  values : List Nat
deriving DecidableEq

/-- The result of a run. -/
structure Execution where
  outcome : Outcome
  /-- The outputs in the order of declaration; none after a failure. -/
  outputs : List Nat
  /-- How many microcodes were executed. -/
  steps : Nat
  trace : List TraceRow
deriving DecidableEq

/-- Whether the run returned. -/
def Execution.isReturned (e : Execution) : Bool := e.outcome == .returned

/-- Whether the run failed. -/
def Execution.isFailed (e : Execution) : Bool := e.outcome == .failed

/-- What a caller gets: the outputs, or nothing after a failure. -/
def Execution.answer (e : Execution) : Option (List Nat) :=
  if e.isReturned then some e.outputs else none

/-- A run on its way. -/
structure Thread (σ : Type) where
  frame : Frame σ
  /-- The microcode that comes next, within the instruction of the program counter. -/
  offset : Nat := 0
  steps : Nat := 0
  /-- The rows recorded so far, the latest first. -/
  trace : List TraceRow := []

namespace Thread

variable {σ : Type}

def pc (t : Thread σ) : Nat := t.frame.state.pc

/-- The thread at the start of another instruction. -/
def enter (t : Thread σ) (pc : Nat) : Thread σ :=
  { t with frame.state.pc := pc, offset := 0 }

/-- The thread after control moved. -/
def move (t : Thread σ) : Step → Thread σ
  | .skip distance => { t with offset := Word.add t.offset distance }
  | .jump pc => t.enter pc
  | .ret => t.enter returnPc
  | .fail => t.enter failPc

/-- The thread after a microcode left `frame`, before control moves. -/
def record (t : Thread σ) (trace : Bool) (frame : Frame σ) : Thread σ where
  frame := frame
  offset := t.offset
  steps := t.steps + 1
  trace := if trace then ⟨t.pc, t.offset, frame.state.values⟩ :: t.trace else t.trace

end Thread

namespace Routine

variable {σ : Type}

/-- The microcode at a place. -/
def fetch (f : Routine) (pc offset : Nat) : Option Microcode := (f.code[pc]?).bind (·[offset]?)

/-- The state in which a run starts: the inputs are stored, all else is initial. -/
def start (f : Routine) (inputs : List Nat) : Except RunError State :=
  if inputs.length ≠ f.numInputs then
    .error (.inputArity f.name f.numInputs inputs.length)
  else
    let lines := inputs.zipIdx.map fun (value, i) => (RegId.reg i, value)
    match State.storeEach lines (State.fresh f.registers) with
    | .ok _ s => .ok s
    | .error e _ => .error e

/-- Goes on until the thread has terminated, for `fuel` more microcodes at most. -/
def resume (f : Routine) (config : RunConfig) (io : Boundary σ) (fuel : Nat) (t : Thread σ) :
    EStateM.Result RunError σ (Thread σ) :=
  if t.frame.state.isTerminated then
    .ok t t.frame.memory
  else
    match f.fetch t.pc t.offset with
    | none => .error (.invalidPc t.pc t.offset) t.frame.memory
    | some code =>
      match fuel with
      | 0 => .error (.stepLimit config.maxSteps) t.frame.memory
      | fuel + 1 =>
        match code.execute io t.frame with
        | .error e frame => .error e frame.memory
        | .ok step frame => f.resume config io fuel ((t.record config.trace frame).move step)

/-- The result of a thread that has terminated. -/
def conclude (f : Routine) (t : Thread σ) : Execution :=
  let returned := t.pc == returnPc
  { outcome := if returned then .returned else .failed
    outputs := if returned then f.outputIds.map t.frame.state.load else []
    steps := t.steps
    trace := t.trace.reverse }

/-- Runs a routine on one value per input. -/
def run (f : Routine) (config : RunConfig) (io : Boundary σ) (inputs : List Nat) :
    EStateM RunError σ Execution := fun memory =>
  match f.start inputs with
  | .error e => .error e memory
  | .ok s =>
    match f.resume config io config.maxSteps { frame := ⟨s, memory⟩ } with
    | .ok t memory => .ok (f.conclude t) memory
    | .error e memory => .error e memory

def resume? (f : Routine) (config : RunConfig) (reads : Boundary.Reads σ) (fuel : Nat)
    (t : Thread σ) : Option (EStateM.Result RunError σ (Thread σ)) :=
  if t.frame.state.isTerminated then
    some (.ok t t.frame.memory)
  else
    match f.fetch t.pc t.offset with
    | none => some (.error (.invalidPc t.pc t.offset) t.frame.memory)
    | some code =>
      match fuel with
      | 0 => some (.error (.stepLimit config.maxSteps) t.frame.memory)
      | fuel + 1 =>
        match code.execute? reads t.frame with
        | none => none
        | some (.error e frame) => some (.error e frame.memory)
        | some (.ok step frame) =>
          if step.overruns t.offset then
            none
          else
            f.resume? config reads fuel ((t.record config.trace frame).move step)

def run? (f : Routine) (config : RunConfig) (reads : Boundary.Reads σ) (inputs : List Nat)
    (memory : σ) : Option (EStateM.Result RunError σ Execution) :=
  match f.start inputs with
  | .error e => some (.error e memory)
  | .ok s =>
    (f.resume? config reads config.maxSteps { frame := ⟨s, memory⟩ }).map fun
      | .ok t memory => .ok (f.conclude t) memory
      | .error e memory => .error e memory

end Routine

end LimbMachine
