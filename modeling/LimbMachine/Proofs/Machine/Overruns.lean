import LimbMachine.Proofs.Check.Overruns
import LimbMachine.Proofs.Exec.Limits
import LimbMachine.Proofs.Exec.Traces
import LimbMachine.Proofs.Exec.Trails
import LimbMachine.Proofs.Machine.Transparency

/-!
# Runs on a machine that checks its sums

Where such a machine has an answer, it is the one that is given otherwise
(`Machine.callRows?_agrees`), whatever program it runs. And it has an answer to every call of a
machine whose routines it accepts (`Machine.callRows?_eq`): what the check adds up, the widths of
packed registers and the offsets of branches, is all that is added up in a run.
-/

namespace LimbMachine

variable {σ : Type} {reads : Boundary.Reads σ} {io : Boundary σ}

/-! ## Agreement -/

/-- Where the reads have an answer, the boundary gives it. -/
def Boundary.Reads.Agree (reads : Boundary.Reads σ) (io : Boundary σ) : Prop :=
  ∀ bus address memory result, reads bus address memory = some result →
    io.read bus address memory = result

/-- A call sees no more of the boundary than the answer to what it reads. -/
theorem Microcode.execute_answering {code : Microcode} {frame : Frame σ}
    {result : EStateM.Result RunError σ (Option (List Nat))}
    (h : ∀ bus targets sources, code = .call bus targets sources →
      io.read bus (sources.map frame.state.load) frame.memory = result) :
    code.execute (.answering result) frame = code.execute io frame := by
  cases code with
  | call bus targets sources =>
    have hread : Frame.onMemory (fun _ => result) frame =
        Frame.onMemory (io.read bus (sources.map frame.state.load)) frame := by
      unfold Frame.onMemory
      rw [h bus targets sources rfl]
    exact estate_bind_congr (estate_bind_congr hread)
  | _ => rfl

theorem Microcode.execute?_agrees (hreads : reads.Agree io) {code : Microcode} {frame : Frame σ}
    {result : EStateM.Result RunError (Frame σ) Step}
    (h : code.execute? reads frame = some result) : code.execute io frame = result := by
  unfold execute? at h
  obtain ⟨answer, hanswer, rfl⟩ := Option.map_eq_some_iff.1 h
  refine (execute_answering fun bus targets sources hcall => ?_).symm
  subst hcall
  exact hreads _ _ _ _ hanswer

namespace Routine

variable {f : Routine} {config : RunConfig}

theorem resume?_agrees (hreads : reads.Agree io) {fuel : Nat} {t : Thread σ}
    {result : EStateM.Result RunError σ (Thread σ)}
    (h : f.resume? config reads fuel t = some result) : f.resume config io fuel t = result := by
  fun_induction resume? f config reads fuel t with
  | case1 fuel t hterm =>
    rw [resume_terminated hterm]
    exact Option.some.inj h
  | case2 fuel t hterm hfetch =>
    rw [resume_lost (Bool.eq_false_iff.2 hterm) hfetch]
    exact Option.some.inj h
  | case3 t hterm code hfetch =>
    rw [resume_exhausted (Bool.eq_false_iff.2 hterm) hfetch]
    exact Option.some.inj h
  | case4 => cases h
  | case5 t hterm code hfetch fuel e frame hexec =>
    have hexec' := Microcode.execute?_agrees hreads hexec
    rw [resume_aborts ⟨Bool.eq_false_iff.2 hterm, .inr ⟨code, frame, hfetch, hexec', rfl⟩⟩]
    exact Option.some.inj h
  | case6 => cases h
  | case7 t hterm code hfetch fuel step frame hexec _ ih =>
    have hexec' := Microcode.execute?_agrees hreads hexec
    rw [resume_advances ⟨Bool.eq_false_iff.2 hterm, code, step, frame, hfetch, hexec', rfl⟩]
    exact ih h

theorem run?_agrees (hreads : reads.Agree io) {inputs : List Nat} {memory : σ}
    {result : EStateM.Result RunError σ Execution}
    (h : f.run? config reads inputs memory = some result) :
    f.run config io inputs memory = result := by
  unfold run? at h
  unfold run
  cases hstart : f.start inputs with
  | error e =>
    rw [hstart] at h
    exact Option.some.inj h
  | ok s =>
    rw [hstart] at h
    obtain ⟨ended, hended, rfl⟩ := Option.map_eq_some_iff.1 h
    dsimp only
    rw [resume?_agrees hreads hended]

end Routine

namespace Machine

variable {m : Machine} {id : Nat} {cache : Cache}

theorem answer?_agrees (m : Machine) (room : Nat) :
    (m.answer? room).Agree (attach (m.answer room)) := by
  induction room with
  | zero => exact fun id inputs cache result h => Option.some.inj h
  | succ room ih =>
    intro id inputs cache result h
    show m.answer (room + 1) id inputs cache = result
    unfold answer? at h
    cases hf : m.routines[id]? with
    | none =>
      rw [hf] at h
      rw [answer_unknown hf, ← answer_unknown hf 0]
      exact Option.some.inj h
    | some f =>
      cases hfind : cache.find? ⟨id, inputs⟩ with
      | some answer =>
        rw [hf, hfind] at h
        rw [answer_hit hf hfind, ← answer_hit hf hfind 0]
        exact Option.some.inj h
      | none =>
        rw [hf, hfind] at h
        obtain ⟨nested, hnested, rfl⟩ := Option.map_eq_some_iff.1 h
        rw [answer_succ_miss hf hfind, Routine.run?_agrees ih hnested]
        exact (serve_miss hf hfind fun _ _ _ => nested).symm

theorem call?_agrees {inputs : List Nat} {result : EStateM.Result RunError Cache Execution}
    (h : m.call? id inputs cache = some result) : m.call id inputs cache = result := by
  unfold call? at h
  unfold call
  cases hf : m.routines[id]? with
  | none =>
    rw [hf] at h
    exact Option.some.inj h
  | some f =>
    rw [hf] at h
    exact Routine.run?_agrees (m.answer?_agrees _) h

/-- **An answer of a machine that checks its sums is the answer of the machine.** -/
theorem callRows?_agrees {rows : List (List Nat)}
    {result : EStateM.Result RunError Cache (List Execution)}
    (h : m.callRows? id rows cache = some result) : m.callRows id rows cache = result := by
  induction rows generalizing cache result with
  | nil => exact Option.some.inj h
  | cons row rest ih =>
    unfold callRows? at h
    unfold callRows
    cases hcall : m.call? id row cache with
    | none =>
      rw [hcall] at h
      cases h
    | some called =>
      have hfirst := call?_agrees hcall
      rw [hcall] at h
      cases called with
      | error e cache₁ =>
        rw [estate_bind_of_error hfirst]
        exact Option.some.inj h
      | ok first cache₁ =>
        obtain ⟨others, hothers, rfl⟩ := Option.map_eq_some_iff.1 h
        rw [estate_bind_of_ok hfirst]
        cases others with
        | error e cache₂ => exact estate_bind_of_error (ih hothers)
        | ok others cache₂ => exact estate_bind_of_ok (ih hothers)

end Machine

/-! ## Answers -/

namespace Microcode

variable {code : Microcode} {offset : Nat}

/-- A runnable microcode adds up no widths past the largest size. -/
theorem executeOverruns_eq_false {s : State} (hrun : code.Runnable s.registers)
    (hland : offset + 1 + code.skipDistance.getD 0 < Word.modulus) :
    code.executeOverruns s = false := by
  have hstore : ∀ {targets : List RegId}, s.registers.Storable targets →
      State.storeOverruns s.registers 0 targets = false := fun hst => by
    rw [State.storeOverruns_eq hst.declared Word.modulus_pos, Nat.zero_add]
    exact Word.overruns_eq_false.2 hst.size
  have hdistance : Word.overruns (1 + code.skipDistance.getD 0) = false :=
    Word.overruns_eq_false.2 (by omega)
  cases code with
  | assign targets rhs => exact hstore hrun.1
  | add targets sources constant => exact hstore hrun.1
  | mul targets sources constant => exact hstore hrun.1
  | sub targets sources constant =>
    obtain ⟨minuend, subtrahends, pivot, rfl, hsub⟩ := hrun
    have hpivot := Word.overruns_eq_false.2 hsub.low.size
    rw [← subPivotOverruns_eq hsub.pivot_eq] at hpivot
    simp only [executeOverruns, State.subtractOverruns, List.head?_cons, Option.map_some,
      Option.getD_some, hsub.pivot_eq, hpivot, hstore hsub.low, Bool.false_or]
    split
    · exact hstore hsub.high
    · rfl
  | cast targets source width =>
    simp only [executeOverruns, hstore hrun.1, Bool.and_false]
  | skip left right constant distance =>
    have hoverruns : Word.overruns (1 + distance) = false := hdistance
    simp only [executeOverruns, hoverruns, Bool.and_false]
  | skipIf left right constant distance =>
    have hoverruns : Word.overruns (1 + distance) = false := hdistance
    simp only [executeOverruns, RegisterFile.overruns_eq_false.2 hrun.1,
      RegisterFile.overruns_eq_false.2 hrun.2, hoverruns, Bool.or_false, Bool.and_false]
  | _ => rfl

theorem Leads.overruns_eq_false {step : Step} (h : code.Leads step)
    (hland : offset + 1 + code.skipDistance.getD 0 < Word.modulus) :
    step.overruns offset = false := by
  cases step with
  | skip count =>
    refine Word.overruns_eq_false.2 ?_
    obtain ⟨-, rfl | ⟨distance, hskip, rfl⟩⟩ := h
    · omega
    · rw [hskip, Option.getD_some] at hland
      have hle : Word.add 1 distance ≤ 1 + distance := Nat.mod_le _ _
      omega
  | _ => rfl

/-- Wherever the boundary answers, a microcode without a sum that overruns can be executed. -/
theorem execute?_isSome (hreads : ∀ bus address memory, (reads bus address memory).isSome)
    {frame : Frame σ} (h : code.executeOverruns frame.state = false) :
    (code.execute? reads frame).isSome = true := by
  unfold execute?
  rw [Option.isSome_map]
  split
  · exact hreads _ _ _
  · rw [h]
    rfl

end Microcode

namespace Routine

variable {f : Routine} {field : FieldParams} {config : RunConfig}

theorem resume?_isSome (hreads : ∀ bus address memory, (reads bus address memory).isSome)
    (hvalid : f.validate field = .ok ()) (hsized : f.Sized) {fuel : Nat} {t : Thread σ}
    (ht : t.frame.state.registers = f.registers) :
    (f.resume? config reads fuel t).isSome = true := by
  have hfetched : ∀ {pc offset : Nat} {code : Microcode}, f.fetch pc offset = some code →
      code.Runnable f.registers ∧ offset + 1 + code.skipDistance.getD 0 < Word.modulus := by
    intro pc offset code hfetch
    obtain ⟨instruction, hi, hcode⟩ := fetch_eq_some_iff.1 hfetch
    have hmem := List.mem_of_getElem? hi
    have hcodes := (Instruction.validate_ok_iff.1 ((validate_ok_iff.1 hvalid).2.2 _ hmem)).2.1
    exact ⟨Microcode.runnable_of_validate (hcodes code (List.mem_of_getElem? hcode))
      (hsized.packed _ hmem _ (List.mem_of_getElem? hcode)), hsized.landing_lt hmem hcode⟩
  fun_induction resume? f config reads fuel t with
  | case1 => rfl
  | case2 => rfl
  | case3 => rfl
  | case4 t hterm code hfetch fuel hexec =>
    obtain ⟨hrun, hland⟩ := hfetched hfetch
    have hquiet : code.executeOverruns t.frame.state = false :=
      Microcode.executeOverruns_eq_false (ht ▸ hrun) hland
    have hsome := Microcode.execute?_isSome hreads hquiet
    rw [hexec] at hsome
    cases hsome
  | case5 => rfl
  | case6 t hterm code hfetch fuel step frame hexec hover =>
    obtain ⟨-, hland⟩ := hfetched hfetch
    obtain ⟨answer, -, hexec⟩ := Option.map_eq_some_iff.1 hexec
    have hleads := (code.gives_leads (.answering answer)).of_ok hexec
    rw [hleads.overruns_eq_false hland] at hover
    cases hover
  | case7 t hterm code hfetch fuel step frame hexec hover ih =>
    obtain ⟨answer, -, hexec⟩ := Option.map_eq_some_iff.1 hexec
    have hregisters : frame.state.registers = f.registers :=
      (Microcode.execute_shape hexec).registers_eq.trans ht
    refine ih ?_
    cases step <;> exact hregisters

theorem run?_isSome (hreads : ∀ bus address memory, (reads bus address memory).isSome)
    (hvalid : f.validate field = .ok ()) (hsized : f.Sized) (inputs : List Nat) (memory : σ) :
    (f.run? config reads inputs memory).isSome = true := by
  unfold run?
  cases hstart : f.start inputs with
  | error e => rfl
  | ok s =>
    dsimp only
    rw [Option.isSome_map]
    exact resume?_isSome hreads hvalid hsized (by rw [start_eq hstart])

end Routine

namespace Machine

variable {m : Machine} {field : FieldParams}

section Accepted

variable (hm : ∀ f ∈ m.routines, f.validate field = .ok () ∧ f.Sized)

include hm

theorem answer?_isSome (room id : Nat) (inputs : List Nat) (cache : Cache) :
    (m.answer? room id inputs cache).isSome = true := by
  induction room generalizing id inputs cache with
  | zero => rfl
  | succ room ih =>
    unfold answer?
    split
    · rename_i f hf _
      obtain ⟨hvalid, hsized⟩ := hm f (List.mem_of_getElem? hf)
      rw [Option.isSome_map]
      exact Routine.run?_isSome ih hvalid hsized inputs cache
    · rfl

theorem call?_isSome (id : Nat) (inputs : List Nat) (cache : Cache) :
    (m.call? id inputs cache).isSome = true := by
  unfold call?
  split
  · rfl
  · rename_i f hf
    obtain ⟨hvalid, hsized⟩ := hm f (List.mem_of_getElem? hf)
    exact Routine.run?_isSome (answer?_isSome hm _) hvalid hsized inputs cache

theorem callRows?_isSome (id : Nat) (rows : List (List Nat)) (cache : Cache) :
    (m.callRows? id rows cache).isSome = true := by
  induction rows generalizing cache with
  | nil => rfl
  | cons row rest ih =>
    unfold callRows?
    obtain ⟨called, hcalled⟩ := Option.isSome_iff_exists.1 (call?_isSome hm id row cache)
    rw [hcalled]
    cases called with
    | error e cache₁ => rfl
    | ok first cache₁ =>
      dsimp only
      rw [Option.isSome_map]
      exact ih cache₁

/-- **Accepted machines run without overruns**: whatever a machine is called on, no sum overruns
that a call comes to, if every routine is accepted and sized. -/
theorem callRows?_eq (id : Nat) (rows : List (List Nat)) (cache : Cache) :
    m.callRows? id rows cache = some (m.callRows id rows cache) := by
  obtain ⟨result, hresult⟩ := Option.isSome_iff_exists.1 (callRows?_isSome hm id rows cache)
  rw [hresult, callRows?_agrees hresult]

end Accepted

end Machine

end LimbMachine
