import Mathlib.Logic.Function.Iterate
import LimbMachine.Proofs.Exec.Limits
import LimbMachine.Proofs.Machine.Transparency

/-!
# Nested calls

A call of a machine is a run whose nested calls are runs again, and these may nest further. Here the
runs are unfolded into a machine with a stack: `Machine.advance` does one thing at a time, to the
innermost activation. It knows nothing of how much may still be done; it only compares the steps
with their limit and the height of the stack with the depth limit. Nothing but these comparisons
stops a machine whose routines call each other without end.

Such a machine always gets to an end, which is the result of the call (`Machine.initial_gets`), and
the stack is never higher than the depth limit (`Machine.initial_nested`). Where the limit is
reached a call enters nothing (`Machine.advance_at_limit`).
-/

namespace LimbMachine

/-- The call that a microcode makes. -/
def Microcode.callIn (s : State) : Microcode → Option Call
  | call bus _ sources => some ⟨bus, sources.map s.load⟩
  | _ => none

theorem Microcode.callIn_eq_some {s : State} {code : Microcode} {made : Call}
    (h : code.callIn s = some made) : ∃ bus targets sources, code = .call bus targets sources ∧
      made = ⟨bus, sources.map s.load⟩ := by
  cases code with
  | call bus targets sources =>
    cases h
    exact ⟨bus, targets, sources, rfl, rfl⟩
  | _ => cases h

namespace Frame

variable {σ τ α : Type}

/-- The same result with another memory at the boundary. -/
def replaceMemory (m : τ) :
    EStateM.Result RunError (Frame σ) α → EStateM.Result RunError (Frame τ) α
  | .ok a frame => .ok a ⟨frame.state, m⟩
  | .error e frame => .error e ⟨frame.state, m⟩

end Frame

/-- A microcode depends on its boundary only through the answer to its request, if it makes one. -/
theorem Microcode.execute_replaceMemory {σ τ : Type} {io : Boundary σ} {io' : Boundary τ}
    {m m₁ : σ} {m' : τ} {s : State} {code : Microcode}
    (hlocal : code.isLocal = true → m = m₁)
    (hread : ∀ bus targets sources, code = .call bus targets sources → ∃ answer m₁',
      io.read bus (sources.map s.load) m = .ok answer m₁ ∧
        io'.read bus (sources.map s.load) m' = .ok answer m₁') :
    code.execute io ⟨s, m⟩ = Frame.replaceMemory m₁ (code.execute io' ⟨s, m'⟩) := by
  have halike : Alike (fun _ => False) (fun _ => False) (Frame.Joins fun a _ => a = m₁)
      (code.execute io ⟨s, m⟩) (code.execute io' ⟨s, m'⟩) := by
    refine execute_alike (fun bus targets sources hcode => ?_) hlocal
    obtain ⟨answer, m₁', hanswer, hanswer'⟩ := hread bus targets sources hcode
    rw [hanswer, hanswer']
    exact .ok rfl
  generalize code.execute io ⟨s, m⟩ = x at halike ⊢
  generalize code.execute io' ⟨s, m'⟩ = x' at halike ⊢
  cases halike with
  | @ok step frame step' frame' h =>
    obtain ⟨_, _⟩ := frame
    obtain ⟨rfl, rfl, rfl⟩ := h
    rfl
  | @both e e' frame frame' hsame hjoins =>
    obtain ⟨_, _⟩ := frame
    obtain rfl : e = e' := hsame
    obtain ⟨rfl, rfl⟩ := hjoins
    rfl
  | left h => exact h.elim
  | right h => exact h.elim

namespace Machine

/-- A run of a routine, and the call that it answers. -/
structure Activation where
  call : Call
  routine : Routine
  thread : Thread Unit

/-- An activation that waits for the answer to a call. -/
structure Caller where
  activation : Activation
  /-- The microcode that made the call. -/
  code : Microcode

/-- A machine that evaluates a call from outside. -/
inductive Status where
  /-- The innermost activation is running, and each of the callers waits for the one before it. -/
  | active (cache : Cache) (inner : Activation) (callers : List Caller)
  | ended (cache : Cache) (result : Except RunError Execution)

/-- A routine is started on the inputs of a call. -/
def enter (f : Routine) (call : Call) (callers : List Caller) (cache : Cache) : Status :=
  match f.start call.inputs with
  | .error e => .ended cache (.error e)
  | .ok s => .active cache ⟨call, f, { frame := ⟨s, ()⟩ }⟩ callers

/-- Whether the innermost run is recorded: only the one for the call from outside may be. -/
def records (m : Machine) : List Caller → Bool
  | [] => m.config.trace
  | _ :: _ => false

/-- The innermost activation executes a microcode. -/
def perform (m : Machine) (io : Boundary Unit) (code : Microcode) (inner : Activation)
    (callers : List Caller) (cache : Cache) : Status :=
  match code.execute io inner.thread.frame with
  | .error e _ => .ended cache (.error e)
  | .ok step frame =>
    .active cache { inner with thread := (inner.thread.record (m.records callers) frame).move step }
      callers

/-- The innermost activation executes a microcode whose call has been answered. -/
def deliver (m : Machine) (answer : Option (List Nat)) (code : Microcode) (inner : Activation)
    (callers : List Caller) (cache : Cache) : Status :=
  m.perform (.ofFn fun _ _ => .ok answer) code inner callers cache

/-- The innermost activation makes a call. -/
def request (m : Machine) (call : Call) (code : Microcode) (inner : Activation)
    (callers : List Caller) (cache : Cache) : Status :=
  match m.routines[call.routine]? with
  | none => .ended cache (.error (.unknownBus call.routine))
  | some f =>
    match cache.find? call with
    | some answer => m.deliver answer code inner callers cache
    | none =>
      if m.config.maxDepth < callers.length + 1 then
        .ended cache (.error (.callDepth m.config.maxDepth))
      else
        enter f call (⟨inner, code⟩ :: callers) cache

/-- The innermost activation is over; its caller gets the answer, which is cached. -/
def leave (m : Machine) (execution : Execution) (call : Call) (cache : Cache) :
    List Caller → Status
  | [] => .ended cache (.ok execution)
  | caller :: callers =>
    m.deliver execution.answer caller.code caller.activation callers
      (cache.insert call execution.answer)

/-- One thing is done: a microcode is executed, a call is made or an activation is left. -/
def advance (m : Machine) : Status → Status
  | .ended cache result => .ended cache result
  | .active cache inner callers =>
    let t := inner.thread
    if t.frame.state.isTerminated then
      m.leave (inner.routine.conclude t) inner.call cache callers
    else
      match inner.routine.fetch t.pc t.offset with
      | none => .ended cache (.error (.invalidPc t.pc t.offset))
      | some code =>
        if t.steps = m.config.maxSteps then
          .ended cache (.error (.stepLimit m.config.maxSteps))
        else
          match code.callIn t.frame.state with
          | some call => m.request call code inner callers cache
          | none => m.perform .closed code inner callers cache

/-- A call from outside. -/
def initial (m : Machine) (id : Nat) (inputs : List Nat) (cache : Cache) : Status :=
  match m.routines[id]? with
  | none => .ended cache (.error (.unknownBus id))
  | some f => enter f ⟨id, inputs⟩ [] cache

variable {m : Machine} {s s₁ s₂ : Status} {cache : Cache} {inner : Activation}
    {callers : List Caller}
  {code : Microcode} {n k room fuel : Nat}

/-- The machine gets there by doing no more than a number of things. -/
def Gets (m : Machine) (n : Nat) (s s₁ : Status) : Prop := ∃ k ≤ n, m.advance^[k] s = s₁

theorem Gets.refl (m : Machine) (n : Nat) (s : Status) : m.Gets n s s := ⟨0, Nat.zero_le n, rfl⟩

theorem Gets.trans (h : m.Gets n s s₁) (h' : m.Gets k s₁ s₂) : m.Gets (n + k) s s₂ := by
  obtain ⟨i, hi, rfl⟩ := h
  obtain ⟨j, hj, rfl⟩ := h'
  exact ⟨j + i, by omega, Function.iterate_add_apply m.advance j i s⟩

theorem Gets.mono (h : m.Gets n s s₁) (hle : n ≤ k) : m.Gets k s s₁ := by
  obtain ⟨i, hi, heq⟩ := h
  exact ⟨i, by omega, heq⟩

theorem Gets.step (h : m.Gets n (m.advance s) s₁) : m.Gets (n + 1) s s₁ := by
  obtain ⟨i, hi, heq⟩ := h
  exact ⟨i + 1, by omega, heq⟩

/-! ## One thing at a time -/

theorem advance_terminated (h : inner.thread.frame.state.isTerminated = true) :
    m.advance (.active cache inner callers) =
      m.leave (inner.routine.conclude inner.thread) inner.call cache callers := by
  simp [advance, h]

theorem advance_lost (hrun : inner.thread.frame.state.isTerminated = false)
    (hfetch : inner.routine.fetch inner.thread.pc inner.thread.offset = none) :
    m.advance (.active cache inner callers) =
      .ended cache (.error (.invalidPc inner.thread.pc inner.thread.offset)) := by
  simp [advance, hrun, hfetch]

theorem advance_exhausted (hrun : inner.thread.frame.state.isTerminated = false)
    (hfetch : inner.routine.fetch inner.thread.pc inner.thread.offset = some code)
    (hsteps : inner.thread.steps = m.config.maxSteps) :
    m.advance (.active cache inner callers) =
      .ended cache (.error (.stepLimit m.config.maxSteps)) := by
  simp [advance, hrun, hfetch, hsteps]

theorem advance_call {call : Call} (hrun : inner.thread.frame.state.isTerminated = false)
    (hfetch : inner.routine.fetch inner.thread.pc inner.thread.offset = some code)
    (hsteps : inner.thread.steps ≠ m.config.maxSteps)
    (hcall : code.callIn inner.thread.frame.state = some call) :
    m.advance (.active cache inner callers) = m.request call code inner callers cache := by
  simp [advance, hrun, hfetch, hsteps, hcall]

theorem advance_local (hrun : inner.thread.frame.state.isTerminated = false)
    (hfetch : inner.routine.fetch inner.thread.pc inner.thread.offset = some code)
    (hsteps : inner.thread.steps ≠ m.config.maxSteps)
    (hcall : code.callIn inner.thread.frame.state = none) :
    m.advance (.active cache inner callers) = m.perform .closed code inner callers cache := by
  simp [advance, hrun, hfetch, hsteps, hcall]

/-! ## Runs -/

/-- What answering a call takes where calls may still be nested `room` deep: every microcode of its
run may make a call again. -/
def span (m : Machine) : Nat → Nat
  | 0 => 0
  | room + 1 => m.config.maxSteps * (m.span room + 1) + 2

/-- How the innermost run is run. -/
abbrev runConfig (m : Machine) (callers : List Caller) : RunConfig :=
  { m.config with trace := m.records callers }

/-- Where the innermost activation gets by itself. -/
def settle (inner : Activation) (callers : List Caller) :
    EStateM.Result RunError Cache (Thread Cache) → Status
  | .ok t cache => .active cache { inner with thread := t.withMemory () } callers
  | .error e cache => .ended cache (.error e)

/-- What becomes of the result of the innermost run. -/
def conclude (m : Machine) (call : Call) (callers : List Caller) :
    EStateM.Result RunError Cache Execution → Status
  | .ok execution cache => m.leave execution call cache callers
  | .error e cache => .ended cache (.error e)

/-- The innermost activation gets the answer to its call, or the whole call ends with the error. -/
def receive (m : Machine) (code : Microcode) (inner : Activation) (callers : List Caller) :
    EStateM.Result RunError Cache (Option (List Nat)) → Status
  | .ok answer cache => m.deliver answer code inner callers cache
  | .error e cache => .ended cache (.error e)

theorem receive_keep (call : Call) (result : EStateM.Result RunError Cache Execution) :
    m.receive code inner callers (keep call result) =
      m.conclude call (⟨inner, code⟩ :: callers) result := by
  cases result <;> rfl

theorem conclude_nil (call : Call) (result : EStateM.Result RunError Cache Execution) :
    m.conclude call [] result = .ended (finalState result) (given result) := by
  cases result <;> rfl

/-- After a microcode the machine gets where the rest of the run leads. -/
theorem perform_gets {io : Boundary Cache} {io' : Boundary Unit} {cache₁ : Cache}
    (hrun : inner.thread.frame.state.isTerminated = false)
    (hfetch : inner.routine.fetch inner.thread.pc inner.thread.offset = some code)
    (hexec : code.execute io ⟨inner.thread.frame.state, cache⟩ =
      Frame.replaceMemory cache₁ (code.execute io' inner.thread.frame))
    (hrest : ∀ inner₁ : Activation, inner₁.thread.steps = inner.thread.steps + 1 → m.Gets n
      (.active cache₁ inner₁ callers)
        (settle inner₁ callers (inner₁.routine.resume (m.runConfig callers) io
        fuel (inner₁.thread.withMemory cache₁)))) :
    m.Gets n (m.perform io' code inner callers cache₁) (settle inner callers
      (inner.routine.resume (m.runConfig callers) io (fuel + 1)
        (inner.thread.withMemory cache))) := by
  unfold perform
  cases hx : code.execute io' inner.thread.frame with
  | error e frame =>
    rw [hx] at hexec
    rw [Routine.resume_aborts (t := inner.thread.withMemory cache)
      ⟨hrun, .inr ⟨code, _, hfetch, hexec, rfl⟩⟩]
    exact .refl m n _
  | ok step frame =>
    rw [hx] at hexec
    have hadv :
        inner.routine.Advances (m.runConfig callers).trace io (inner.thread.withMemory cache)
          (((inner.thread.record (m.records callers) frame).move step).withMemory cache₁) :=
      ⟨hrun, code, step, _, hfetch, hexec,
        Routine.move_withMemory inner.thread frame.state frame.memory cache cache₁ step⟩
    rw [Routine.resume_advances hadv]
    exact hrest { inner with thread := (inner.thread.record (m.records callers) frame).move step }
      (by cases step <;> rfl)

/-- An activation that is over, has no microcode to execute or may not execute one does not go
on. -/
theorem stopped_gets {io : Boundary Cache} (h : inner.thread.frame.state.isTerminated = true ∨
      inner.routine.fetch inner.thread.pc inner.thread.offset = none ∨ fuel = 0)
    (hsteps : inner.thread.steps + fuel = m.config.maxSteps) :
    m.Gets 1 (.active cache inner callers) (settle inner callers
      (inner.routine.resume (m.runConfig callers) io fuel (inner.thread.withMemory cache))) := by
  cases hrun : inner.thread.frame.state.isTerminated with
  | true =>
    rw [Routine.resume_terminated (t := inner.thread.withMemory cache) hrun]
    exact .refl m 1 _
  | false =>
    refine .step ?_
    cases hfetch : inner.routine.fetch inner.thread.pc inner.thread.offset with
    | none =>
      rw [Routine.resume_lost (t := inner.thread.withMemory cache) hrun hfetch,
        advance_lost hrun hfetch]
      exact .refl m 0 _
    | some code =>
      obtain rfl : fuel = 0 := by simpa [hrun, hfetch] using h
      rw [Routine.resume_exhausted (t := inner.thread.withMemory cache) hrun hfetch,
        advance_exhausted hrun hfetch hsteps]
      exact .refl m 0 _

/-- The innermost activation gets where its run leads, if its calls are answered as they are in a
run. The induction is on the steps that are left. -/
theorem resume_gets (hanswer : ∀ (inner : Activation) code call cache, m.Gets (m.span room)
      (m.request call code inner callers cache)
      (m.receive code inner callers (m.answer room call.routine call.inputs cache)))
    (inner : Activation) (cache : Cache) (hsteps : inner.thread.steps + fuel = m.config.maxSteps) :
    m.Gets (fuel * (m.span room + 1) + 1) (.active cache inner callers) (settle inner callers
      (inner.routine.resume (m.runConfig callers) (attach (m.answer room)) fuel
        (inner.thread.withMemory cache))) := by
  induction fuel generalizing inner cache with
  | zero => exact (stopped_gets (.inr (.inr rfl)) hsteps).mono (by omega)
  | succ fuel ih =>
    cases hrun : inner.thread.frame.state.isTerminated with
    | true => exact (stopped_gets (.inl hrun) hsteps).mono (by omega)
    | false =>
      cases hfetch : inner.routine.fetch inner.thread.pc inner.thread.offset with
      | none => exact (stopped_gets (.inr (.inl hfetch)) hsteps).mono (by omega)
      | some code =>
        have hne : inner.thread.steps ≠ m.config.maxSteps := by omega
        have hrest : ∀ (cache₁ : Cache) (inner₁ : Activation), inner₁.thread.steps =
          inner.thread.steps + 1 →
            m.Gets (fuel * (m.span room + 1) + 1) (.active cache₁ inner₁ callers)
            (settle inner₁ callers
              (inner₁.routine.resume (m.runConfig callers) (attach (m.answer room)) fuel
                (inner₁.thread.withMemory cache₁))) := fun cache₁ inner₁ hsucc =>
                  ih inner₁ cache₁ (by omega)
        have hspan : m.span room + (fuel * (m.span room + 1) + 1) + 1 =
            (fuel + 1) * (m.span room + 1) + 1 := by
          rw [Nat.succ_mul]
          omega
        rw [← hspan]
        refine .step ?_
        cases hcall : code.callIn inner.thread.frame.state with
        | none =>
          rw [advance_local hrun hfetch hne hcall]
          refine (perform_gets hrun hfetch ?_ (hrest cache)).mono (Nat.le_add_left _ _)
          refine Microcode.execute_replaceMemory (fun _ => rfl) fun bus targets sources hcode => ?_
          rw [hcode] at hcall
          cases hcall
        | some call =>
          rw [advance_call hrun hfetch hne hcall]
          refine (hanswer inner code call cache).trans ?_
          obtain ⟨bus, targets, sources, rfl, rfl⟩ := Microcode.callIn_eq_some hcall
          cases hread : m.answer room bus (sources.map inner.thread.frame.state.load) cache with
          | error e cache₁ =>
            have hexec : (Microcode.call bus targets sources).execute (attach (m.answer room))
                (inner.thread.withMemory cache).frame =
                .error e ⟨inner.thread.frame.state, cache₁⟩ :=
              Microcode.execute_call_error hread
            rw [Routine.resume_aborts (t := inner.thread.withMemory cache)
              ⟨hrun, .inr ⟨_, _, hfetch, hexec, rfl⟩⟩]
            exact .refl m _ _
          | ok answer cache₁ =>
            refine perform_gets hrun hfetch ?_ (hrest cache₁)
            refine Microcode.execute_replaceMemory (fun hlocal => ?_)
              fun bus' targets' sources' hcode => ?_
            · cases hlocal
            · cases hcode
              exact ⟨answer, (), hread, rfl⟩

/-- The machine gets through a run to where its result is used. -/
theorem enter_gets {f : Routine} {call : Call} (hanswer : ∀ (inner : Activation) code call cache,
      m.Gets (m.span room) (m.request call code inner callers cache)
      (m.receive code inner callers (m.answer room call.routine call.inputs cache))) :
    m.Gets (m.config.maxSteps * (m.span room + 1) + 2) (enter f call callers cache)
      (m.conclude call callers (f.run (m.runConfig callers) (attach (m.answer room)) call.inputs
        cache)) := by
  unfold enter
  cases hstart : f.start call.inputs with
  | error e =>
    unfold Routine.run
    rw [hstart]
    exact .refl m _ _
  | ok s =>
    have hgets : m.Gets (m.config.maxSteps * (m.span room + 1) + 1)
        (.active cache ⟨call, f, { frame := ⟨s, ()⟩ }⟩ callers)
        (settle ⟨call, f, { frame := ⟨s, ()⟩ }⟩ callers (f.resume (m.runConfig callers)
          (attach (m.answer room)) m.config.maxSteps { frame := ⟨s, cache⟩ })) :=
      resume_gets hanswer _ cache (Nat.zero_add m.config.maxSteps)
    rw [Routine.run_eq_finish hstart]
    refine hgets.trans (k := 1) ?_
    cases hresume : f.resume (m.runConfig callers) (attach (m.answer room)) m.config.maxSteps
        { frame := ⟨s, cache⟩ } with
    | error e cache₁ => exact .refl m 1 _
    | ok t cache₁ =>
      obtain ⟨-, -, -, hterm⟩ := Routine.reaches_of_resume_ok hresume
      have hleave : m.advance (.active cache₁ ⟨call, f, t.withMemory ()⟩ callers) =
          m.leave (f.conclude t) call cache₁ callers := advance_terminated hterm
      exact .step (hleave ▸ .refl m 0 _)

/-- Calls that are unknown or cached are answered as they are in a run. -/
theorem request_gets_of_miss {call : Call}
    (hmiss : ∀ f, m.routines[call.routine]? = some f → cache.find? call = none → m.Gets n
      (m.request call code inner callers cache)
      (m.receive code inner callers (m.answer room call.routine call.inputs cache))) :
    m.Gets n (m.request call code inner callers cache)
      (m.receive code inner callers (m.answer room call.routine call.inputs cache)) := by
  cases hf : m.routines[call.routine]? with
  | none =>
    rw [answer_unknown hf]
    simp only [request, hf]
    exact .refl m _ _
  | some f =>
    cases hfind : cache.find? call with
    | none => exact hmiss f hf hfind
    | some answer =>
      rw [answer_hit hf hfind]
      simp only [request, hf, hfind]
      exact .refl m _ _

/-- A call is answered as it is in a run. The induction is on how deep calls may still be nested. -/
theorem request_gets (hroom : callers.length + room = m.config.maxDepth) (inner : Activation)
    (code : Microcode) (call : Call) (cache : Cache) : m.Gets (m.span room)
      (m.request call code inner callers cache)
      (m.receive code inner callers (m.answer room call.routine call.inputs cache)) := by
  induction room generalizing callers inner code call cache with
  | zero =>
    refine request_gets_of_miss fun f hf hfind => ?_
    rw [answer_zero_miss hf hfind]
    simp only [request, hf, hfind]
    rw [if_pos (by omega)]
    exact .refl m _ _
  | succ room ih =>
    refine request_gets_of_miss fun f hf hfind => ?_
    rw [answer_succ_miss hf hfind]
    simp only [request, hf, hfind]
    rw [if_neg (by omega)]
    have hanswer : ∀ (inner' : Activation) code' call' cache', m.Gets (m.span room)
        (m.request call' code' inner' (⟨inner, code⟩ :: callers) cache')
        (m.receive code' inner' (⟨inner, code⟩ :: callers)
          (m.answer room call'.routine call'.inputs cache')) :=
      ih (by rw [List.length_cons]; omega)
    rw [receive_keep]
    exact enter_gets hanswer

/-! ## Whole calls -/

theorem advance_ended (cache : Cache) (result : Except RunError Execution) (n : Nat) :
    m.advance^[n] (.ended cache result) = .ended cache result :=
  Function.iterate_fixed rfl n

/-- A machine has one end. -/
theorem ended_unique {cache' : Cache} {result result' : Except RunError Execution}
    (h : m.advance^[n] s = .ended cache result) (h' : m.advance^[k] s = .ended cache' result') :
    cache = cache' ∧ result = result' := by
  have hboth : Status.ended cache result = Status.ended cache' result' := by
    rw [← advance_ended cache result k, ← h, ← Function.iterate_add_apply, Nat.add_comm,
      Function.iterate_add_apply, h', advance_ended]
  cases hboth
  exact ⟨rfl, rfl⟩

/-- The machine gets to the result of the call. -/
theorem initial_gets (m : Machine) (id : Nat) (inputs : List Nat) (cache : Cache) :
    m.Gets (m.config.maxSteps * (m.span m.config.maxDepth + 1) + 2) (m.initial id inputs cache)
      (.ended (finalState (m.call id inputs cache)) (given (m.call id inputs cache))) := by
  unfold initial
  cases hf : m.routines[id]? with
  | none =>
    rw [call_unknown hf]
    exact .refl m _ _
  | some f =>
    rw [call_eq_run hf]
    have hgets : m.Gets (m.config.maxSteps * (m.span m.config.maxDepth + 1) + 2)
        (enter f ⟨id, inputs⟩ [] cache)
        (m.conclude ⟨id, inputs⟩ [] (f.run m.config m.boundary inputs cache)) :=
      enter_gets (request_gets (Nat.zero_add m.config.maxDepth))
    rw [conclude_nil] at hgets
    exact hgets

/-- No activation is nested deeper than the limit. -/
def Status.Nested (m : Machine) : Status → Prop
  | .active _ _ callers => callers.length ≤ m.config.maxDepth
  | .ended _ _ => True

theorem enter_nested {f : Routine} {call : Call} (h : callers.length ≤ m.config.maxDepth) :
    (enter f call callers cache).Nested m := by
  unfold enter
  split
  · trivial
  · exact h

theorem perform_nested {io : Boundary Unit} (h : callers.length ≤ m.config.maxDepth) :
    (m.perform io code inner callers cache).Nested m := by
  unfold perform
  split
  · trivial
  · exact h

theorem request_nested {call : Call} (h : callers.length ≤ m.config.maxDepth) :
    (m.request call code inner callers cache).Nested m := by
  unfold request
  split
  · trivial
  · split
    · exact perform_nested h
    · split
      · trivial
      · exact enter_nested (by rw [List.length_cons]; omega)

theorem leave_nested {execution : Execution} {call : Call}
    (h : callers.length ≤ m.config.maxDepth) :
    (m.leave execution call cache callers).Nested m := by
  cases callers with
  | nil => trivial
  | cons caller callers => exact perform_nested (Nat.le_of_succ_le h)

theorem advance_nested (h : s.Nested m) : (m.advance s).Nested m := by
  cases s with
  | ended cache result => trivial
  | active cache inner callers =>
    unfold advance
    dsimp only
    split
    · exact leave_nested h
    · split
      · trivial
      · split
        · trivial
        · split
          · exact request_nested h
          · exact perform_nested h

theorem initial_nested (m : Machine) (id : Nat) (inputs : List Nat) (cache : Cache) (n : Nat) :
    (m.advance^[n] (m.initial id inputs cache)).Nested m := by
  induction n with
  | zero =>
    show (m.initial id inputs cache).Nested m
    unfold initial
    split
    · trivial
    · exact enter_nested (Nat.zero_le _)
  | succ n ih =>
    rw [Function.iterate_succ_apply']
    exact advance_nested ih

/-- The innermost activation is about to make a call. -/
structure Makes (m : Machine) (inner : Activation) (code : Microcode) (call : Call) : Prop where
  running : inner.thread.frame.state.isTerminated = false
  fetched : inner.routine.fetch inner.thread.pc inner.thread.offset = some code
  allowed : inner.thread.steps ≠ m.config.maxSteps
  calls : code.callIn inner.thread.frame.state = some call

/-- Where calls are nested as deep as they may be, a call enters nothing. -/
theorem advance_at_limit (cache : Cache) {call : Call} (h : m.Makes inner code call)
    (hdeep : callers.length = m.config.maxDepth) :
    (m.routines[call.routine]? = none ∧
      m.advance (.active cache inner callers) =
        .ended cache (.error (.unknownBus call.routine))) ∨
    (∃ answer, cache.find? call = some answer ∧
      m.advance (.active cache inner callers) = m.deliver answer code inner callers cache) ∨
    (cache.find? call = none ∧
      m.advance (.active cache inner callers) =
        .ended cache (.error (.callDepth m.config.maxDepth))) := by
  rw [advance_call h.running h.fetched h.allowed h.calls]
  cases hf : m.routines[call.routine]? with
  | none =>
    refine .inl ⟨rfl, ?_⟩
    simp only [request, hf]
  | some f =>
    cases hfind : cache.find? call with
    | some answer =>
      refine .inr (.inl ⟨answer, rfl, ?_⟩)
      simp only [request, hf, hfind]
    | none =>
      refine .inr (.inr ⟨rfl, ?_⟩)
      simp only [request, hf, hfind]
      rw [if_pos (by omega)]

/-- If the machine gets to an error, the call ends with it. -/
theorem call_eq_of_ended {id : Nat} {inputs : List Nat} {cache₁ : Cache} {e : RunError}
    (h : m.advance^[n] (m.initial id inputs cache) = .ended cache₁ (.error e)) :
    m.call id inputs cache = .error e cache₁ := by
  obtain ⟨k, -, hend⟩ := m.initial_gets id inputs cache
  obtain ⟨hleaves, hgiven⟩ := ended_unique hend h
  cases hcall : m.call id inputs cache with
  | ok execution cache₂ =>
    rw [hcall] at hgiven
    cases hgiven
  | error e' cache₂ =>
    rw [hcall] at hleaves hgiven
    cases hleaves
    cases hgiven
    rfl

/-- **Nesting is bounded.** Whatever the routines of a machine are and whatever is cached, a call
gets to its end, by no more than a number of things that depends on the limits alone. On the way no
activation is nested deeper than the depth limit. Where this is reached, a further call enters
nothing: if it names no routine it ends the whole call with that; else it is answered from the cache
or ends the whole call with the limit. -/
theorem call_nests (m : Machine) (id : Nat) (inputs : List Nat) (cache : Cache) :
    (∃ n ≤ m.config.maxSteps * (m.span m.config.maxDepth + 1) + 2,
      m.advance^[n] (m.initial id inputs cache) =
        .ended (finalState (m.call id inputs cache)) (given (m.call id inputs cache))) ∧
    ∀ n cache₁ inner callers,
      m.advance^[n] (m.initial id inputs cache) = .active cache₁ inner callers →
      callers.length ≤ m.config.maxDepth ∧
      ∀ code call, m.Makes inner code call → callers.length = m.config.maxDepth →
        (m.routines[call.routine]? = none ∧
          m.call id inputs cache = .error (.unknownBus call.routine) cache₁) ∨
        (∃ answer, cache₁.find? call = some answer ∧
          m.advance (.active cache₁ inner callers) =
            m.deliver answer code inner callers cache₁) ∨
        (cache₁.find? call = none ∧
          m.call id inputs cache = .error (.callDepth m.config.maxDepth) cache₁) := by
  refine ⟨m.initial_gets id inputs cache, fun n cache₁ inner callers hn => ⟨?_, ?_⟩⟩
  · have hnested := m.initial_nested id inputs cache n
    rw [hn] at hnested
    exact hnested
  · intro code call hmakes hdeep
    have hended : ∀ e, m.advance (.active cache₁ inner callers) = .ended cache₁ (.error e) →
        m.call id inputs cache = .error e cache₁ := by
      intro e he
      refine call_eq_of_ended (n := n + 1) ?_
      rw [Function.iterate_succ_apply', hn, he]
    rcases advance_at_limit cache₁ hmakes hdeep with ⟨hf, hnext⟩ | hhit | ⟨hfind, hnext⟩
    · exact .inl ⟨hf, hended _ hnext⟩
    · exact .inr (.inl hhit)
    · exact .inr (.inr ⟨hfind, hended _ hnext⟩)

/-- Counts down by calling itself, with one call nested. -/
def descent : Machine where
  routines := [{
    name := "down"
    registers := [⟨.input, "x", 8, 0⟩, ⟨.output, "y", 8, 0⟩, ⟨.temp, "t", 8, 0⟩]
    buses := []
    code := [[.skip (.reg 0) .unused 0 1, .ret, .sub [.reg 2] [.reg 0] 1,
      .call 0 [.reg 1] [.reg 2], .ret]] }]
  config := { maxSteps := 9, maxDepth := 1 }

/-- The second nested call would be too deep. If it is cached, the machine goes on with its
answer. -/
theorem call_nests_descent :
    (∃ inner code caller,
      descent.advance^[5] (descent.initial 0 [2] []) = .active [] inner [caller] ∧
      descent.Makes inner code ⟨0, [0]⟩) ∧
    descent.call 0 [2] [] = .error (.callDepth 1) [] ∧
    given (descent.call 0 [2] [(⟨0, [0]⟩, some [7])]) = .ok ⟨.returned, [7], 4, []⟩ := by
  have hmakes : ∃ inner code caller,
      descent.advance^[5] (descent.initial 0 [2] []) = .active [] inner [caller] ∧
        descent.Makes inner code ⟨0, [0]⟩ := ⟨_, _, _, rfl, rfl, rfl, by decide, rfl⟩
  refine ⟨hmakes, ?_, by decide +kernel⟩
  obtain ⟨inner, code, caller, hn, hmakes⟩ := hmakes
  rcases ((call_nests descent 0 [2] []).2 5 [] inner [caller] hn).2 code
    ⟨0, [0]⟩ hmakes rfl with
    ⟨hf, -⟩ | ⟨answer, hfind, -⟩ | ⟨-, hcall⟩
  · cases hf
  · cases hfind
  · exact hcall

/-- Calls what is not there, where nothing may be nested. -/
def stray : Machine where
  routines := [⟨"stray", [], [], [[.call 7 [] [], .ret]]⟩]
  config := { maxSteps := 2, maxDepth := 0 }

/-- A call that would be too deep and is not cached may end the whole call with another error: that
there is no such routine is found out first. -/
theorem stray_unknown :
    ∃ inner code, stray.initial 0 [] [] = .active [] inner [] ∧
      stray.Makes inner code ⟨7, []⟩ ∧ stray.config.maxDepth = 0 ∧
        Cache.find? [] ⟨7, []⟩ = none ∧
      stray.call 0 [] [] = .error (.unknownBus 7) [] :=
  ⟨_, _, rfl, ⟨rfl, rfl, by decide, rfl⟩, rfl, rfl, rfl⟩

end Machine

end LimbMachine
