import LimbMachine.Proofs.Exec.Counter
import LimbMachine.Proofs.Exec.Limits

/-!
# Traces

A trace is a run written down: one row for each microcode, with the values it left.
`Routine.Retraces` says that rows can be followed from a place and from values, microcode by
microcode, without the run that they were recorded from. Every trace can be followed like this from
the first microcode, with the inputs and the pads, to the end of its run
(`Routine.Reaches.retraces`); recording it changes nothing else (`Routine.Reaches.untraced`).
-/

namespace LimbMachine

/-- Where control goes with a step that is taken at a place. -/
def Step.leadsTo (pc offset : Nat) : Step → Nat × Nat
  | .skip distance => (pc, Word.add offset distance)
  | .jump target => (target, 0)
  | .ret => (returnPc, 0)
  | .fail => (failPc, 0)

/-- The place of the microcode that a row is about. -/
def TraceRow.place (row : TraceRow) : Nat × Nat := (row.instruction, row.microcode)

/-- Where control is at the end of a run. -/
def Outcome.place : Outcome → Nat × Nat
  | .returned => (returnPc, 0)
  | .failed => (failPc, 0)

namespace Thread

variable {σ : Type}

/-- The place of the microcode that comes next. -/
def place (t : Thread σ) : Nat × Nat := (t.pc, t.offset)

/-- The thread without its trace. -/
def untraced (t : Thread σ) : Thread σ := { t with trace := [] }

theorem place_move {t : Thread σ} {trace : Bool} {frame : Frame σ} (h : frame.state.pc = t.pc)
    (step : Step) : ((t.record trace frame).move step).place = step.leadsTo t.pc t.offset := by
  cases step with
  | skip distance => exact Prod.ext h rfl
  | jump target => rfl
  | ret => rfl
  | fail => rfl

end Thread

/-! ## The values at the start -/

namespace State

theorem store_inv {i v : Nat} {s s₁ : State} (h : store (.reg i) v s = .ok () s₁) :
    i < s.registers.length ∧ s₁ = s.write i v := by
  unfold store at h
  dsimp only at h
  split at h
  · cases h
  · rename_i r hr
    split at h
    · cases h
      exact ⟨(List.getElem?_eq_some_iff.1 hr).1, rfl⟩
    · cases h

/-- Values stored into consecutive registers replace those that were there. -/
theorem storeEach_consecutive {vs : List Nat} {n : Nat} {s s₁ : State}
    (hlen : s.values.length = s.registers.length)
    (h : storeEach ((vs.zipIdx n).map fun (v, i) => (.reg i, v)) s = .ok () s₁) :
    s₁ = { s with values := s.values.take n ++ vs ++ s.values.drop (n + vs.length) } := by
  induction vs generalizing n s with
  | nil =>
    cases h
    simp
  | cons v vs ih =>
    obtain ⟨⟨⟩, s₂, hstore, h⟩ := estate_bind_ok.1 h
    obtain ⟨hn, rfl⟩ := store_inv hstore
    have hn : n < s.values.length := by omega
    have htake : (s.values.set n v).take (n + 1) = s.values.take n ++ [v] := by
      rw [List.take_succ_eq_append_getElem (by simpa using hn), List.take_set_of_le (Nat.le_refl n),
        List.getElem_set_self]
    have hdrop : (s.values.set n v).drop (n + 1 + vs.length) =
        s.values.drop (n + (v :: vs).length) := by
      rw [List.drop_set_of_lt (by omega), List.length_cons, Nat.add_right_comm, Nat.add_assoc]
    rw [ih (by simpa [write] using hlen) h]
    simp only [write, htake, hdrop, List.append_assoc, List.singleton_append]

end State

namespace Routine

variable {σ : Type} {f : Routine} {io : Boundary σ} {t t₁ : Thread σ} {k : Nat}
    {inputs : List Nat}
  {config : RunConfig} {m : σ} {e : Execution}

/-- The values with which a run starts: the inputs, and the pads of the other registers. -/
def loaded (f : Routine) (inputs : List Nat) : List Nat :=
  inputs ++ (f.registers.drop inputs.length).map Register.pad

theorem start_eq {s : State} (h : f.start inputs = .ok s) :
    s = ⟨f.registers, f.loaded inputs, 0⟩ := by
  unfold start at h
  split at h
  · cases h
  · dsimp only at h
    split at h
    · rename_i hstore
      cases h
      rw [State.storeEach_consecutive (by simp [State.fresh]) hstore]
      simp [State.fresh, loaded]
    · cases h

/-! ## Rows that can be followed -/

/-- The rows lead from a place, with values, to another place, with other values: each row is about
the microcode at the place reached, its values are those that executing this microcode leaves,
whatever the memory of the boundary is, and the place after it is where its step leads. -/
inductive Retraces (f : Routine) (io : Boundary σ) :
    Nat × Nat → List Nat → List TraceRow → Nat × Nat → List Nat → Prop
  | nil (place : Nat × Nat) (values : List Nat) : Retraces f io place values [] place values
  | row {pc offset : Nat} {before after final : List Nat} {code : Microcode} {step : Step}
    {rows : List TraceRow} {last : Nat × Nat} (fetched : f.fetch pc offset = some code)
    (executed : ∀ m, ∃ m₁, code.execute io ⟨⟨f.registers, before, pc⟩, m⟩ =
      .ok step ⟨⟨f.registers, after, pc⟩, m₁⟩)
    (rest : Retraces f io (step.leadsTo pc offset) after rows last final) :
    Retraces f io (pc, offset) before (⟨pc, offset, after⟩ :: rows) last final

namespace Retraces

variable {place last : Nat × Nat} {values final : List Nat} {rows : List TraceRow}

theorem head_place (h : f.Retraces io place values rows last final) (hne : rows ≠ []) :
    ∃ first, rows.head? = some first ∧ first.place = place := by
  cases h with
  | nil => exact absurd rfl hne
  | row _ _ _ => exact ⟨_, rfl, rfl⟩

theorem values_of_nil (h : f.Retraces io place values rows last final) (hnil : rows = []) :
    final = values := by
  cases h with
  | nil => rfl
  | row _ _ _ => cases hnil

theorem getLast_values (h : f.Retraces io place values rows last final) (hne : rows ≠ []) :
    ∃ row, rows.getLast? = some row ∧ row.values = final := by
  induction h with
  | nil => exact absurd rfl hne
  | @row pc offset before after final code step rows last _ _ rest ih =>
    cases rows with
    | nil => exact ⟨_, rfl, (rest.values_of_nil rfl).symm⟩
    | cons next rows =>
      obtain ⟨row, hlast, hvalues⟩ := ih (by simp)
      exact ⟨row, by simpa using hlast, hvalues⟩

end Retraces

/-- The registers of the running routine, with a value for each. -/
def Holds (f : Routine) (s : State) : Prop :=
  s.registers = f.registers ∧ s.values.length = f.registers.length

theorem Advances.holds {trace : Bool} (h : f.Advances trace io t t₁)
    (ht : f.Holds t.frame.state) : f.Holds t₁.frame.state := by
  obtain ⟨-, code, step, frame, -, hexec, rfl⟩ := h
  have hshape := Microcode.execute_shape hexec
  have hmoved : f.Holds frame.state :=
    ⟨hshape.registers_eq.trans ht.1, hshape.length_eq.trans ht.2⟩
  cases step <;> exact hmoved

theorem Reaches.holds {trace : Bool} (h : f.Reaches trace io k t t₁)
    (ht : f.Holds t.frame.state) : f.Holds t₁.frame.state :=
  h.invariant (I := fun t => f.Holds t.frame.state) (fun ht hadv => hadv.holds ht) ht

/-- One microcode records one row, which can be followed. -/
theorem Advances.retraces (hio : io.Steady) (h : f.Advances true io t t₁)
    (ht : f.Holds t.frame.state) : ∃ row, t₁.trace = row :: t.trace ∧ ∀ {rows last final},
      f.Retraces io t₁.place t₁.frame.state.values rows last final →
        f.Retraces io t.place t.frame.state.values (row :: rows) last final := by
  obtain ⟨-, code, step, ⟨s₁, m₁⟩, hfetch, hexec, rfl⟩ := h
  have hshape := Microcode.execute_shape hexec
  have hbefore : t.frame.state = ⟨f.registers, t.frame.state.values, t.pc⟩ := by
    rw [← ht.1]
    rfl
  have hafter : s₁ = ⟨f.registers, s₁.values, t.pc⟩ := by
    rw [← ht.1, ← hshape.registers_eq, Thread.pc, ← hshape.pc_eq]
  have hvalues : ((t.record true ⟨s₁, m₁⟩).move step).frame.state.values = s₁.values := by
    cases step <;> rfl
  refine ⟨⟨t.pc, t.offset, s₁.values⟩, by cases step <;> rfl, fun rest => ?_⟩
  rw [Thread.place_move hshape.pc_eq, hvalues] at rest
  refine .row hfetch (fun m => ?_) rest
  obtain ⟨m₁', hagain⟩ := Microcode.execute_steady hio hexec m
  rw [hbefore, hafter] at hagain
  exact ⟨m₁', hagain⟩

/-- A run records one row for each microcode, and the rows can be followed. -/
theorem Reaches.retraces (hio : io.Steady) (h : f.Reaches true io k t t₁)
    (ht : f.Holds t.frame.state) :
    ∃ rows, t₁.trace = rows.reverse ++ t.trace ∧ rows.length = k ∧
      f.Retraces io t.place t.frame.state.values rows t₁.place t₁.frame.state.values := by
  induction h with
  | refl t => exact ⟨[], rfl, rfl, .nil _ _⟩
  | step first _ ih =>
    obtain ⟨row, htrace, hrow⟩ := first.retraces hio ht
    obtain ⟨rows, hrows, hlength, hrest⟩ := ih (first.holds ht)
    refine ⟨row :: rows, ?_, by rw [List.length_cons, hlength], hrow hrest⟩
    rw [hrows, htrace, List.reverse_cons, List.append_assoc, List.singleton_append]

/-! ## Runs without a trace -/

theorem Advances.untraced (h : f.Advances true io t t₁) :
    f.Advances false io t.untraced t₁.untraced := by
  obtain ⟨hrun, code, step, frame, hfetch, hexec, rfl⟩ := h
  exact ⟨hrun, code, step, frame, hfetch, hexec, by cases step <;> rfl⟩

theorem Reaches.untraced (h : f.Reaches true io k t t₁) :
    f.Reaches false io k t.untraced t₁.untraced := by
  induction h with
  | refl t => exact .refl _
  | step first _ ih => exact .step first.untraced ih

/-! ## The end of a run -/

theorem Reaches.resume_ends {n : Nat} (h : f.Reaches config.trace io k t t₁) (hk : k ≤ n)
    (hterm : t₁.frame.state.isTerminated = true) :
    f.resume config io n t = .ok t₁ t₁.frame.memory := by
  rw [← Nat.add_sub_cancel' hk, h.resume, resume_terminated hterm]

/-- Control enters the end of a run like an instruction. -/
theorem Advances.offset_of_terminated {trace : Bool} (h : f.Advances trace io t t₁)
    (hterm : t₁.frame.state.isTerminated = true) : t₁.offset = 0 := by
  obtain ⟨hrun, code, step, frame, -, hexec, rfl⟩ := h
  cases step with
  | skip distance =>
    -- the program counter is the one from before, and the run was not over there
    have hpc := Microcode.execute_pc hexec
    have hsame : frame.state.isTerminated = t.frame.state.isTerminated := by
      rw [State.isTerminated, State.isTerminated, hpc]
    rw [← hsame] at hrun
    exact absurd hterm (by rw [Thread.move]; simp [Thread.record, hrun])
  | jump target => rfl
  | ret => rfl
  | fail => rfl

theorem Reaches.offset_of_terminated {trace : Bool} (h : f.Reaches trace io k t t₁)
    (hne : k ≠ 0) (hterm : t₁.frame.state.isTerminated = true) : t₁.offset = 0 := by
  induction h with
  | refl t => exact absurd rfl hne
  | @step k t t₁ t₂ first rest ih =>
    cases k with
    | zero =>
      cases rest
      exact first.offset_of_terminated hterm
    | succ k => exact ih (by omega) hterm

theorem conclude_place (hterm : t.frame.state.isTerminated = true) (hzero : t.offset = 0) :
    (f.conclude t).outcome.place = t.place := by
  rw [State.isTerminated, Bool.or_eq_true, beq_iff_eq, beq_iff_eq] at hterm
  by_cases hret : t.pc = returnPc
  · simp [conclude, hret, Outcome.place, Thread.place, hzero]
  · have hfail : t.pc = failPc := hterm.resolve_left hret
    have hne : failPc ≠ returnPc := by decide
    simp [conclude, hfail, hne, Outcome.place, Thread.place, hzero]

theorem numInputs_add_numOutputs_le (f : Routine) :
    f.numInputs + f.numOutputs ≤ f.registers.length := by
  have hsplit : f.inputs.length + (f.registers.dropWhile Register.isInput).length =
      f.registers.length := by
    rw [inputs, ← List.length_append, List.takeWhile_append_dropWhile]
  have hle : f.outputs.length ≤ (f.registers.dropWhile Register.isInput).length :=
    (List.takeWhile_prefix _).length_le
  unfold numInputs numOutputs
  omega

theorem conclude_outputs (hs : f.Holds t.frame.state) (hret : (f.conclude t).outcome = .returned) :
    (f.conclude t).outputs = (t.frame.state.values.drop f.numInputs).take f.numOutputs := by
  have hpc : t.pc = returnPc := by
    by_contra hne
    simp [conclude, hne] at hret
  have hle := f.numInputs_add_numOutputs_le
  have hlength := hs.2
  simp only [conclude, hpc, beq_self_eq_true, if_true, outputIds, List.map_map]
  refine List.ext_getElem (by simp; omega) fun i hi hi' => ?_
  have hi : i < f.numOutputs := by simpa using hi
  simp [State.load,
    List.getElem?_eq_getElem (show f.numInputs + i < t.frame.state.values.length by omega)]

theorem holds_loaded {s : State} (h : f.start inputs = .ok s) : f.Holds s := by
  obtain rfl := start_eq h
  have hfit : inputs.length = f.numInputs := by
    unfold start at h
    split at h
    · cases h
    · rename_i hfit
      exact Decidable.not_not.1 hfit
  have hle := f.numInputs_add_numOutputs_le
  refine ⟨rfl, ?_⟩
  rw [loaded, List.length_append, List.length_map, List.length_drop]
  omega

/-- A run has to execute something before it ends. -/
theorem Reaches.pos_of_start {trace : Bool} {s : State} (hstart : f.start inputs = .ok s)
    (h : f.Reaches trace io k { frame := ⟨s, m⟩ } t)
    (hterm : t.frame.state.isTerminated = true) : k ≠ 0 := by
  obtain rfl := start_eq hstart
  rintro rfl
  cases h
  cases hterm

/-- **Traces retrace their runs.** A run at a steady boundary that is recorded and ends gives the
same without being recorded. It has recorded one row for each step, and the first of them is about
the first microcode. The rows can be followed from there, with the inputs and the pads, each row
from the values of the one before, to the end of the run; and if the run returned, its outputs are
the values of the outputs in the last row. -/
theorem trace_retraces (hio : io.Steady) (config : RunConfig)
    (h : given (f.run { config with trace := true } io inputs m) = .ok e) (m' : σ) :
    given (f.run { config with trace := false } io inputs m') = .ok { e with trace := [] } ∧
    e.trace.length = e.steps ∧
    (∃ first, e.trace.head? = some first ∧ first.place = (0, 0)) ∧
    ∃ last, e.trace.getLast? = some last ∧
      f.Retraces io (0, 0) (f.loaded inputs) e.trace e.outcome.place last.values ∧
      (e.outcome = .returned → e.outputs = (last.values.drop f.numInputs).take f.numOutputs) := by
  obtain ⟨s, k, t, hstart, hk, hreach, hterm, rfl⟩ := reaches_of_run_ok h
  have hne := hreach.pos_of_start hstart hterm
  have hholds := hreach.holds (holds_loaded hstart)
  obtain ⟨rows, htrace, hlength, hrows⟩ := hreach.retraces hio (holds_loaded hstart)
  have hnil : rows ≠ [] := by
    rintro rfl
    exact hne hlength.symm
  have heq : (f.conclude t).trace = rows := by
    rw [conclude, htrace]
    simp
  obtain ⟨last, hlast, hvalues⟩ := hrows.getLast_values hnil
  have hplace : (f.conclude t).outcome.place = t.place :=
    conclude_place hterm (hreach.offset_of_terminated hne hterm)
  obtain rfl := start_eq hstart
  rw [heq, hplace]
  refine ⟨?_, ?_, hrows.head_place hnil, last, hlast, hvalues ▸ hrows, fun hret => ?_⟩
  · rw [run_steady hio f { config with trace := false } inputs m' m, given_run_of_start hstart]
    have hresume : f.resume { config with trace := false } io config.maxSteps
        { frame := ⟨⟨f.registers, f.loaded inputs, 0⟩, m⟩ } =
        .ok t.untraced t.frame.memory :=
      hreach.untraced.resume_ends hk hterm
    rw [hresume]
    rfl
  · rw [hlength, conclude, hreach.steps_eq]
    simp
  · rw [conclude_outputs hholds hret, hvalues]

/-- Adds one to what a bus says about its input; fails on zero. -/
def relay : Routine where
  name := "relay"
  registers := [⟨.input, "x", 8, 0⟩, ⟨.output, "y", 9, 0⟩, ⟨.temp, "t", 8, 4⟩]
  buses := [⟨"double", some 0, [.reg 0], [.reg 2]⟩]
  code := [[.skip (.reg 0) .unused 0 1, .fail, .call 0 [.reg 2] [.reg 0], .jmp 1],
    [.add [.reg 1] [.reg 2] 1, .ret]]

/-- A boundary that doubles what it is asked about. -/
def doubling : Boundary Unit := .ofFn fun _ address => .ok (some (address.map (2 * ·)))

theorem trace_retraces_relay :
    doubling.Steady ∧
    given (relay.run { maxSteps := 5, trace := true } doubling [3] ()) = .ok ⟨.returned, [7], 5,
      [⟨0, 0, [3, 0, 4]⟩, ⟨0, 2, [3, 0, 6]⟩, ⟨0, 3, [3, 0, 6]⟩, ⟨1, 0, [3, 7, 6]⟩,
        ⟨1, 1, [3, 7, 6]⟩]⟩ ∧
    given (relay.run { maxSteps := 5 } doubling [3] ()) = .ok ⟨.returned, [7], 5, []⟩ ∧
    ∃ final, relay.Retraces doubling (0, 0) [3, 0, 4]
      [⟨0, 0, [3, 0, 4]⟩, ⟨0, 2, [3, 0, 6]⟩, ⟨0, 3, [3, 0, 6]⟩, ⟨1, 0, [3, 7, 6]⟩,
        ⟨1, 1, [3, 7, 6]⟩]
      (returnPc, 0) final := by
  have hio : doubling.Steady := fun _ _ _ _ => rfl
  have hrun : given (relay.run { maxSteps := 5, trace := true } doubling [3] ()) =
    .ok ⟨.returned, [7], 5,
      [⟨0, 0, [3, 0, 4]⟩, ⟨0, 2, [3, 0, 6]⟩, ⟨0, 3, [3, 0, 6]⟩, ⟨1, 0, [3, 7, 6]⟩,
        ⟨1, 1, [3, 7, 6]⟩]⟩ := by
    decide +kernel
  obtain ⟨huntraced, -, -, last, -, hretraces, -⟩ :=
    trace_retraces hio { maxSteps := 5 } hrun ()
  exact ⟨hio, hrun, huntraced, last.values, hretraces⟩

end Routine

end LimbMachine
