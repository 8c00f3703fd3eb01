import LimbMachine.Proofs.Split.Interface

/-!
# Splitting keeps what a routine computes

A routine and its split form, attached to boundaries without a memory that say the same thing, one
of them limb by limb (`Pool.Carries`), do the same on the same inputs: both runs end or neither
does, they enter the same instructions in the same order, and the outputs of the one are the limbs
of the outputs of the other (`Routine.split_equivalent`).
-/

namespace LimbMachine

/-- `io'` says limb by limb what `io` says: on a bus of the routine, the limbs of an address are
answered by the limbs of the answer, which has to fit the data lines; they are rejected, or end with
an error, if the address is or does. -/
def Pool.Carries (pool : Pool) (f : Routine)
    (io io' : Nat → List Nat → Except RunError (Option (List Nat))) : Prop :=
  ∀ id bus, f.bus? id = some bus →
    ∀ address, Digits.Fit (f.registers.widths bus.address) address →
    ∀ address', pool.splitValues bus.address address = some address' →
      match io id address with
      | .ok (some data) => Digits.Fit (f.registers.widths bus.data) data ∧
        ∃ data', pool.splitValues bus.data data = some data' ∧
        io' id address' = .ok (some data')
      | .ok none => io' id address' = .ok none
      | .error _ => ∃ e, io' id address' = .error e

/-- The executions end the same way and enter the same instructions, and outputs of the second make
up the outputs of the first. -/
structure SplitRoutine.Agrees (split : SplitRoutine) (f : Routine) (e e' : Execution) : Prop where
  outcome_eq : e'.outcome = e.outcome
  entered_eq : e'.entered = e.entered
  outputs_join : e.outcome = .returned →
    split.pool.joinRuns f.outputIds e'.outputs = some e.outputs

/-- Errors are answered by errors, and nothing is excused. -/
def Faults.alike : Faults := ⟨fun _ _ => True, fun _ => False, fun _ => False⟩

namespace Routine

variable {f : Routine} {field field' : FieldParams} {split : SplitRoutine} {inputs : List Nat}
  {io io' : Nat → List Nat → Except RunError (Option (List Nat))}

/-- The lines of a bus of a routine that was split are registers. -/
theorem declares_lines (hsplit : split.Of f) (h : f.splitWithLimbs field = .ok split) {bus : Bus}
    (hbus : bus ∈ f.buses) : ∀ line ∈ bus.lines, f.registers.declares line = true := by
  obtain ⟨code, buses, -, hbuses, -, -⟩ := splitWithLimbs_ok h
  obtain ⟨i, hi, rfl⟩ := List.getElem_of_mem hbus
  obtain ⟨hlen, hall⟩ := List.forall₂_iff_get.1 (except_mapM_ok.1 hbuses)
  obtain ⟨limbIds, hflat, -⟩ := except_bind_ok.1 (hall i hi (hlen ▸ hi))
  exact hsplit.splits.declares_of_flatten hflat

/-- An accepted call asks a bus of the routine, over lines as wide as those of the bus. -/
theorem WellFormed.bus_of_call (hf : f.WellFormed field) {instruction : Instruction}
    (hi : instruction ∈ f.code) {id : Nat} {targets sources : List RegId}
    (hc : Microcode.call id targets sources ∈ instruction) :
    ∃ bus, f.bus? id = some bus ∧
      f.registers.widths sources = f.registers.widths bus.address ∧
        f.registers.widths targets = f.registers.widths bus.data := by
  have hvalid := (Microcode.validate_ok_iff.1 (hf.validate_code hi hc)).2
  exact hvalid.2

/-- Boundaries that say the same thing do so for every call of the routine. -/
theorem WellFormed.boundary_splits (hf : f.WellFormed field) (hsplit : split.Of f)
    (h : f.splitWithLimbs field' = .ok split) (hio : split.pool.Carries f io io') :
    (Boundary.ofFn io).Splits (Boundary.ofFn io') f split.pool.width (fun _ _ => True)
      Faults.alike := by
  intro instruction hi id targets sources hc address m m' hfit _
  obtain ⟨bus, hbus, hsources, htargets⟩ := hf.bus_of_call hi hc
  have hlines := declares_lines hsplit h (List.mem_of_find?_eq_some hbus)
  have haddress : ∀ line ∈ bus.address, f.registers.declares line = true := fun line hline =>
    hlines line (List.mem_append_left _ hline)
  have hdata : ∀ line ∈ bus.data, f.registers.declares line = true := fun line hline =>
    hlines line (List.mem_append_right _ hline)
  rw [hsources] at hfit ⊢
  rw [htargets]
  have hsplitAddress := Pool.splitValues_eq hsplit.splits haddress hf.widthOf_lt
    (by simpa using hfit.length_eq.symm)
  have hanswer := hio id bus hbus address hfit _ hsplitAddress
  unfold Boundary.ofFn
  cases hread : io id address with
  | error e =>
    rw [hread] at hanswer
    obtain ⟨e', hread'⟩ := hanswer
    simp only [hread, hread']
    exact Related.both trivial trivial
  | ok answer =>
    rw [hread] at hanswer
    cases answer with
    | none =>
      simp only [hread, hanswer]
      apply Related.ok
      exact ⟨trivial, rfl, by simp⟩
    | some data =>
      obtain ⟨hfits, data', hsplitData, hread'⟩ := hanswer
      rw [Pool.splitValues_eq hsplit.splits hdata hf.widthOf_lt
        (by simpa using hfits.length_eq.symm)] at hsplitData
      cases hsplitData
      simp only [hread, hread']
      apply Related.ok
      refine ⟨trivial, rfl, fun vs hvs => ?_⟩
      cases hvs
      exact hfits

/-- Threads in lockstep that have terminated give executions that agree. -/
theorem Mirrors.agrees {σ σ' : Type} {R : σ → σ' → Prop} {t : Thread σ} {t' : Thread σ'}
    (hm : f.Mirrors split true R t t') (hf : f.WellFormed field) (hsplit : split.Of f)
    (hterm : t.frame.state.isTerminated = true) :
    split.Agrees f (f.conclude t) (split.routine.conclude t') := by
  refine ⟨hm.outcome_eq, ?_, fun hret => ?_⟩
  · rw [Thread.entered_conclude _ (hm.isTerminated_eq.trans hterm),
      Thread.entered_conclude _ hterm, hm.arrived_eq rfl]
  · obtain ⟨hfit, houtputs⟩ := hm.outputs_eq hsplit hret
    rw [houtputs]
    exact Pool.joinRuns_splitLines hsplit.splits declares_outputIds hf.widthOf_lt hfit

/-- **Splitting keeps what a routine computes.** On inputs that fit, under boundaries that say the
same thing, a routine ends if and only if its split form ends on the limbs of the inputs; then the
executions agree, and whether they end or not, both enter the same instructions in the same order.
The offsets of microcodes in the split form have to be sizes. -/
theorem split_equivalent (hf : f.WellFormed .unbounded) (h : f.splitWithLimbs field = .ok split)
    (haddr : ∀ instruction ∈ split.routine.code, instruction.length < Word.modulus)
    (hin : f.Accepts inputs) (hio : split.pool.Carries f io io') :
    ∃ inputs', split.pool.splitValues f.inputIds inputs = some inputs' ∧
      ((∃ e, f.Yields (Boundary.ofFn io) inputs () e) ↔
        ∃ e', split.routine.Yields (Boundary.ofFn io') inputs' () e') ∧
      (∀ e e', f.Yields (Boundary.ofFn io) inputs () e →
        split.routine.Yields (Boundary.ofFn io') inputs' () e' → split.Agrees f e e') ∧
      ∀ pcs, f.Enters (Boundary.ofFn io) inputs () pcs ↔
        split.routine.Enters (Boundary.ofFn io') inputs' () pcs := by
  have hsplit := hf.splitOf h
  have hbound := hf.boundary_splits hsplit h hio
  have hnone : ∀ e, ¬ Faults.alike.left e := fun _ => not_false
  have hsize : inputs.length = f.inputIds.length := by simpa using hin.fit.length_eq.symm
  have hstarts := fun m m' : Unit =>
    @WellFormed.start_mirrors _ _ f split .unbounded inputs (fun _ _ =>
      True) hf hsplit hin true m m'
  obtain ⟨s, s', hstart, hstart', hm⟩ := hstarts () () trivial
  refine ⟨_, Pool.splitValues_eq hsplit.splits declares_inputIds hf.widthOf_lt hsize,
    ?_, ?_, ?_⟩
  · simp only [yields_iff hstart, yields_iff hstart']
    constructor
    · rintro ⟨e, k, t, hreach, hterm, -⟩
      obtain ⟨k', t', hreach', hm₁⟩ := hm.reaches hf hsplit haddr hbound hnone hreach
      exact ⟨_, k', t', hreach', hm₁.isTerminated_eq.trans hterm, rfl⟩
    · rintro ⟨e', k', u', hreach', hterm', -⟩
      obtain ⟨k, t, j, t', hreach, hm₁, hpass⟩ :=
        hm.reached hf hsplit haddr hbound hnone hnone hreach'
      have hterm : t.frame.state.isTerminated = true := by
        rw [← hm₁.isTerminated_eq, ← State.isTerminated_congr hpass.pc_eq]
        exact hterm'
      exact ⟨_, k, t, hreach, hterm, rfl⟩
  · intro e e' he he'
    obtain ⟨k, t, hreach, hterm, rfl⟩ := (yields_iff hstart).1 he
    obtain ⟨k', u', hreach', hterm', rfl⟩ := (yields_iff hstart').1 he'
    obtain ⟨j, t', hreach₁, hm₁⟩ := hm.reaches hf hsplit haddr hbound hnone hreach
    obtain rfl := hreach₁.end_unique hreach' (hm₁.isTerminated_eq.trans hterm) hterm'
    exact hm₁.agrees hf hsplit hterm
  · intro pcs
    simp only [enters_iff hstart, enters_iff hstart']
    constructor
    · rintro ⟨k, t, hreach, rfl⟩
      obtain ⟨k', t', hreach', hm₁⟩ := hm.reaches hf hsplit haddr hbound hnone hreach
      exact ⟨k', t', hreach', by rw [hm₁.arrived_eq rfl]⟩
    · rintro ⟨k', u', hreach', rfl⟩
      obtain ⟨k, t, j, t', hreach, hm₁, hpass⟩ :=
        hm.reached hf hsplit haddr hbound hnone hnone hreach'
      exact ⟨k, t, hreach, by rw [hpass.arrived_eq, hm₁.arrived_eq rfl]⟩

/-- Told twenty, the tally of nine returns ten, and over limbs of four bits it returns the limbs. -/
theorem split_equivalent_tally :
    ∃ split e e', tally.splitWithLimbs ⟨"small", 12, 4⟩ = .ok split ∧
      split.pool.splitValues tally.inputIds [9] = some [9, 0] ∧
      tally.Yields (Boundary.ofFn fun _ _ => .ok (some [20])) [9] () e ∧
      split.routine.Yields (Boundary.ofFn fun _ _ => .ok (some [4, 1])) [9, 0] () e' ∧
      (e.outcome = .returned ∧ e.outputs = [10]) ∧
      e'.outcome = .returned ∧ e'.entered = e.entered ∧
      split.pool.joinRuns tally.outputIds e'.outputs = some [10] := by
  have hf : tally.WellFormed .unbounded :=
    ⟨by decide, rfl, by decide, by decide, by decide, by decide⟩
  have hin : tally.Accepts [9] := .cons (by decide) .nil
  have hbuses : ∀ id bus, tally.bus? id = some bus → bus.data = [.reg 2] := by
    intro id bus hbus
    have hmem : bus ∈ tally.buses := List.mem_of_find?_eq_some hbus
    rw [List.mem_singleton.1 hmem]
  have hrun : ∃ e m₁, tally.run { maxSteps := 10, trace := true }
      (Boundary.ofFn fun _ _ => .ok (some [20])) [9] () = .ok e m₁ ∧
        e.outcome = .returned ∧ e.outputs = [10] := ⟨_, _, rfl, rfl, rfl⟩
  have hcheck : (match tally.splitWithLimbs ⟨"small", 12, 4⟩ with
      | .ok split => split.routine.code.all (fun instruction => instruction.length < 10) &&
        (split.pool.splitValues [.reg 2] [20] == some [4, 1] &&
          split.pool.splitValues tally.inputIds [9] == some [9, 0])
      | .error _ => false) = true := by decide +kernel
  cases hsplit : tally.splitWithLimbs ⟨"small", 12, 4⟩ with
  | error e =>
    rw [hsplit] at hcheck
    cases hcheck
  | ok split =>
    rw [hsplit] at hcheck
    simp only [Bool.and_eq_true, List.all_eq_true, decide_eq_true_eq, beq_iff_eq] at hcheck
    obtain ⟨hshort, hanswer, hlimbs⟩ := hcheck
    have haddr : ∀ instruction ∈ split.routine.code, instruction.length < Word.modulus :=
      fun instruction hi => Nat.lt_trans (hshort instruction hi) (by decide)
    have hio : split.pool.Carries tally (fun _ _ => .ok (some [20])) fun _ _ =>
        .ok (some [4, 1]) := by
      intro id bus hbus address _ address' _
      rw [hbuses id bus hbus]
      exact ⟨.cons (by decide) .nil, [4, 1], hanswer, rfl⟩
    obtain ⟨inputs', hinputs, hends, hagrees, -⟩ := split_equivalent hf hsplit haddr hin hio
    rw [hlimbs] at hinputs
    cases hinputs
    obtain ⟨e, m₁, hyields, hreturned, houtputs⟩ := hrun
    have hyields : tally.Yields (Boundary.ofFn fun _ _ => .ok (some [20])) [9] () e :=
      ⟨10, m₁, hyields⟩
    obtain ⟨e', hyields'⟩ := hends.1 ⟨e, hyields⟩
    have hagree := hagrees e e' hyields hyields'
    exact ⟨split, e, e', rfl, hlimbs, hyields, hyields', ⟨hreturned, houtputs⟩,
      hagree.outcome_eq.trans hreturned, hagree.entered_eq,
      houtputs ▸ hagree.outputs_join hreturned⟩

end Routine

end LimbMachine
