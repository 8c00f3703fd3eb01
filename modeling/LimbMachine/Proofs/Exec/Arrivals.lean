import LimbMachine.Proofs.Exec.Threads

/-!
# Instructions on the way of a thread

The trace of a thread tells which instructions it has entered: an instruction is entered with its
first microcode. `Thread.arrived` counts the instruction at which a thread has just arrived as well,
so it changes only where control enters an instruction. Microcodes that go on within an instruction
(`Routine.Passes`) leave it alone.

What a run does when no step limit stops it is told by `Routine.Yields`, the execution it ends with,
and `Routine.Enters`, the instructions it enters on its way.
-/

namespace LimbMachine

/-- The instructions entered, in the order of entry. -/
def Execution.entered (e : Execution) : List Nat :=
  (e.trace.filter fun row => row.microcode == 0).map TraceRow.instruction

namespace Thread

variable {σ : Type} {t : Thread σ}

/-- The instructions whose first microcode was executed, the latest first. -/
def entered (t : Thread σ) : List Nat :=
  (t.trace.filter fun row => row.microcode == 0).map TraceRow.instruction

/-- The instructions entered, and the one that is entered next. -/
def arrived (t : Thread σ) : List Nat :=
  if t.offset = 0 ∧ t.frame.state.isTerminated = false then t.pc :: t.entered else t.entered

theorem arrived_of_terminated (h : t.frame.state.isTerminated = true) : t.arrived = t.entered := by
  simp [arrived, h]

theorem entered_conclude (f : Routine) (h : t.frame.state.isTerminated = true) :
    (f.conclude t).entered = t.arrived.reverse := by
  rw [arrived_of_terminated h, Execution.entered, entered, Routine.conclude, List.filter_reverse,
    List.map_reverse]

end Thread

namespace Routine

variable {σ : Type} {f : Routine} {trace : Bool} {io : Boundary σ} {t t₁ t₂ u : Thread σ}
    {j k : Nat}

theorem Advances.entered_eq (h : f.Advances true io t t₁) : t₁.entered = t.arrived := by
  obtain ⟨hrun, code, step, frame, -, -, rfl⟩ := h
  have hmove : ((t.record true frame).move step).entered = (t.record true frame).entered := by
    cases step <;> rfl
  rw [hmove, Thread.arrived, hrun]
  by_cases hzero : t.offset = 0
  · simp [Thread.entered, Thread.record, hzero]
  · simp [Thread.entered, Thread.record, hzero]

/-- Going on within an instruction is no arrival. -/
theorem Advances.arrived_later (h : f.Advances true io t t₁) (hlater : t.offset < t₁.offset) :
    t₁.arrived = t.arrived := by
  rw [← h.entered_eq, Thread.arrived, if_neg]
  omega

/-- Where control enters an instruction, it arrives there, unless the run is over. -/
theorem Advances.arrived_enter (h : f.Advances true io t t₁) (hzero : t₁.offset = 0) :
    t₁.arrived = if t₁.frame.state.isTerminated then t.arrived else t₁.pc :: t.arrived := by
  rw [← h.entered_eq, Thread.arrived]
  cases t₁.frame.state.isTerminated with
  | true => simp
  | false => simp [hzero]

/-- The thread goes on within its instruction, by a number of microcodes. -/
inductive Passes (f : Routine) (trace : Bool) (io : Boundary σ) :
    Nat → Thread σ → Thread σ → Prop
  | refl (t : Thread σ) : Passes f trace io 0 t t
  | step {k : Nat} {t t₁ t₂ : Thread σ} (first : f.Advances trace io t t₁)
    (pc_eq : t₁.pc = t.pc) (later : t.offset < t₁.offset)
    (rest : Passes f trace io k t₁ t₂) : Passes f trace io (k + 1) t t₂

namespace Passes

theorem reaches (h : f.Passes trace io k t t₁) : f.Reaches trace io k t t₁ := by
  induction h with
  | refl t => exact .refl t
  | step first _ _ _ ih => exact .step first ih

theorem pc_eq (h : f.Passes trace io k t t₁) : t₁.pc = t.pc := by
  induction h with
  | refl t => rfl
  | step _ hpc _ _ ih => exact ih.trans hpc

theorem arrived_eq (h : f.Passes true io k t t₁) : t₁.arrived = t.arrived := by
  induction h with
  | refl t => rfl
  | step first _ hlater _ ih => rw [ih, first.arrived_later hlater]

/-- What is reached on the way is on the way. -/
theorem of_reaches (h : f.Passes trace io k t t₁) (hj : j ≤ k) (hu : f.Reaches trace io j t u) :
    f.Passes trace io j t u := by
  induction h generalizing j u with
  | refl t =>
    obtain rfl := Nat.le_zero.1 hj
    cases hu
    exact .refl t
  | step first hpc hlater _ ih =>
    cases hu with
    | refl => exact .refl _
    | step first' rest =>
      obtain rfl := first.unique first'
      exact .step first hpc hlater (ih (by omega) rest)

end Passes

/-- A run passes every thread on its way. -/
theorem Reaches.rest (h : f.Reaches trace io k t t₁) (hu : f.Reaches trace io j t u)
    (hj : j ≤ k) : f.Reaches trace io (k - j) u t₁ := by
  induction hu generalizing k with
  | refl t => exact h
  | step first _ ih =>
    cases h with
    | refl => omega
    | step first' rest =>
      obtain rfl := first.unique first'
      rw [Nat.add_sub_add_right]
      exact ih rest (by omega)

theorem Reaches.eq_of_terminated (h : f.Reaches trace io k t t₁)
    (hterm : t.frame.state.isTerminated = true) : t₁ = t := by
  cases h with
  | refl => rfl
  | step first _ =>
    rw [first.running] at hterm
    cases hterm

/-- A run has one end. -/
theorem Reaches.end_unique (h : f.Reaches trace io k t t₁) (h' : f.Reaches trace io j t t₂)
    (hterm : t₁.frame.state.isTerminated = true) (hterm' : t₂.frame.state.isTerminated = true) :
    t₁ = t₂ := by
  rcases Nat.le_total j k with hle | hle
  · exact (h.rest h' hle).eq_of_terminated hterm'
  · exact ((h'.rest h hle).eq_of_terminated hterm).symm

/-! ## Runs without a step limit -/

/-- A run that no step limit stops ends with this execution. -/
def Yields (f : Routine) (io : Boundary σ) (inputs : List Nat) (m : σ) (e : Execution) : Prop :=
  ∃ n m₁, f.run { maxSteps := n, trace := true } io inputs m = .ok e m₁

/-- A run that no step limit stops enters these instructions, one after the other, and may go on. -/
def Enters (f : Routine) (io : Boundary σ) (inputs : List Nat) (m : σ) (pcs : List Nat) : Prop :=
  ∃ s k t, f.start inputs = .ok s ∧ f.Reaches true io k { frame := ⟨s, m⟩ } t ∧
    t.arrived.reverse = pcs

/-- A run ends with an execution if it reaches a terminated thread that gives it. -/
theorem yields_iff {inputs : List Nat} {m : σ} {e : Execution} {s : State}
    (hstart : f.start inputs = .ok s) : f.Yields io inputs m e ↔
      ∃ k t, f.Reaches true io k { frame := ⟨s, m⟩ } t ∧
        t.frame.state.isTerminated = true ∧ f.conclude t = e := by
  constructor
  · rintro ⟨n, m₁, hrun⟩
    unfold run at hrun
    rw [hstart] at hrun
    simp only at hrun
    rcases resume_cases f { maxSteps := n, trace := true } io n { frame := ⟨s, m⟩ } with
      ⟨k, t, -, hreach, hterm, heq⟩ | ⟨t, -, heq⟩ | ⟨k, t, e', m', -, -, heq⟩
    · rw [heq] at hrun
      cases hrun
      exact ⟨k, t, hreach, hterm, rfl⟩
    · rw [heq] at hrun
      cases hrun
    · rw [heq] at hrun
      cases hrun
  · rintro ⟨k, t, hreach, hterm, rfl⟩
    have hresume : f.resume { maxSteps := k, trace := true } io k { frame := ⟨s, m⟩ } =
        .ok t t.frame.memory := by
      have hreach : f.Reaches (RunConfig.trace { maxSteps := k, trace := true }) io k
          { frame := ⟨s, m⟩ } t := hreach
      rw [← resume_terminated hterm, ← hreach.resume 0, Nat.add_zero]
    refine ⟨k, t.frame.memory, ?_⟩
    unfold run
    rw [hstart]
    simp only [hresume]

theorem enters_iff {inputs : List Nat} {m : σ} {pcs : List Nat} {s : State}
    (hstart : f.start inputs = .ok s) : f.Enters io inputs m pcs ↔
      ∃ k t, f.Reaches true io k { frame := ⟨s, m⟩ } t ∧ t.arrived.reverse = pcs := by
  constructor
  · rintro ⟨s', k, t, hstart', hreach, harrived⟩
    rw [hstart] at hstart'
    cases hstart'
    exact ⟨k, t, hreach, harrived⟩
  · rintro ⟨k, t, hreach, harrived⟩
    exact ⟨s, k, t, hstart, hreach, harrived⟩

end Routine

end LimbMachine
